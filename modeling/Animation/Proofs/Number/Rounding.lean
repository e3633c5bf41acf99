import Animation.Proofs.Number.Units

/-!
Sums of finite doubles. A sum that is not zero is the exact sum rounded, so it
has the sign of the exact sum, though it may be an infinity. It is finite
where the exact sum stays below the greatest double, since rounding up from
there reaches that double at most.
-/

namespace Animation.Number

open Float.Model (UnpackedFloat Format)

/-! ### Signs -/

/-- Not NaN, and with this sign. -/
inductive HasSign (sign : UnpackedFloat.Sign) : UnpackedFloat → Prop
  | infinity : HasSign sign (.infinity sign)
  | zero : HasSign sign (.zero sign)
  | finite {mantissa exponent positive} :
      HasSign sign (.finite sign mantissa exponent positive)

/-- Fields that are not those of NaN give back their sign. -/
theorem hasSign_unpack {sign : UnpackedFloat.Sign} {exponent : BitVec 11} {mantissa : BitVec 52}
    (h : exponent = -1#11 → mantissa = 0#52) :
    HasSign sign (UnpackedFloat.unpack .binary64
      (UnpackedFloat.packComponents .binary64 sign exponent mantissa)) := by
  simp only [UnpackedFloat.unpack, UnpackedFloat.unpackExponent_packComponents,
    UnpackedFloat.unpackMantissa_packComponents, UnpackedFloat.unpackSign_packComponents,
    UnpackedFloat.Sign.ofBitVec_toBitVec]
  split
  · next hones =>
    rw [if_pos (h hones)]
    exact .infinity
  · split
    · split
      · exact .zero
      · exact .finite
    · exact .finite

/-- An exponent that is packed as it is does not fill its field with ones. -/
theorem biased_ne_ones (exponent : ℤ) (h : ¬ 2 ^ 11 ≤ (exponent + 1023 + 52).toNat + 1) :
    BitVec.ofNat 11 (exponent + 1023 + 52).toNat ≠ -1#11 := by
  intro hones
  have hvalue := congrArg BitVec.toNat hones
  rw [BitVec.toNat_ofNat] at hvalue
  change _ = 2047 at hvalue
  omega

/-- Packing may turn a number into an infinity, but keeps its sign. -/
theorem HasSign.unpack_pack {sign : UnpackedFloat.Sign} {unpacked : UnpackedFloat}
    (h : HasSign sign unpacked) : HasSign sign (Float.Model.pack unpacked).unpack := by
  change HasSign sign (UnpackedFloat.unpack .binary64 (UnpackedFloat.pack .binary64 unpacked))
  cases h with
  | infinity => exact hasSign_unpack fun _ => rfl
  | zero => exact hasSign_unpack fun _ => rfl
  | finite =>
      unfold UnpackedFloat.pack
      dsimp only
      split
      · exact hasSign_unpack fun _ => rfl
      · next h =>
          split
          · exact hasSign_unpack fun hones => absurd hones (biased_ne_ones _ h)
          · exact hasSign_unpack fun hones => absurd hones (by decide)

theorem hasSign_round (sign : UnpackedFloat.Sign) (mantissa : ℕ) (exponent : ℤ) :
    HasSign sign (UnpackedFloat.round .binary64 sign mantissa exponent) := by
  simp only [UnpackedFloat.round, UnpackedFloat.roundWithAccuracy]
  split
  · exact .zero
  · exact .finite

theorem HasSign.parts {x : Float} {sign : UnpackedFloat.Sign} (h : HasSign sign x.toModel.unpack) :
    parts x = .infinite (isNegative sign) ∨ ∃ units, parts x = .finite (isNegative sign) units := by
  have hmatches := matches_parts x
  generalize x.toModel.unpack = unpacked at h hmatches
  generalize Number.parts x = found at hmatches
  cases h <;> cases hmatches
  · exact .inl rfl
  · exact .inr ⟨_, rfl⟩
  · exact .inr ⟨_, rfl⟩

/-! ### Rounding without overflow -/

theorem isFinite_unpack {sign : UnpackedFloat.Sign} {exponent : BitVec 11} {mantissa : BitVec 52}
    (h : exponent ≠ -1#11) :
    (UnpackedFloat.unpack .binary64
      (UnpackedFloat.packComponents .binary64 sign exponent mantissa)).isFinite = true := by
  simp only [UnpackedFloat.unpack, UnpackedFloat.unpackExponent_packComponents,
    UnpackedFloat.unpackMantissa_packComponents, UnpackedFloat.unpackSign_packComponents,
    UnpackedFloat.Sign.ofBitVec_toBitVec]
  rw [if_neg h]
  split
  · split <;> rfl
  · rfl

theorem isFinite_unpack_pack {sign : UnpackedFloat.Sign} {mantissa : ℕ} {exponent : ℤ}
    {positive : 0 < mantissa} (h : exponent ≤ 971) :
    (Float.Model.pack (.finite sign mantissa exponent positive)).unpack.isFinite = true := by
  have hroom : ¬ 2 ^ 11 ≤ (exponent + 1023 + 52).toNat + 1 := by omega
  change (UnpackedFloat.unpack .binary64 (UnpackedFloat.pack .binary64 _)).isFinite = true
  unfold UnpackedFloat.pack
  dsimp only
  split
  · next hfull => exact absurd hfull hroom
  split
  · exact isFinite_unpack (biased_ne_ones exponent hroom)
  · exact isFinite_unpack (by decide)

theorem mantissa_shiftRight (mantissa : UnpackedFloat.ExtendedMantissa) (count : ℕ) :
    (mantissa >>> count).mantissa = mantissa.mantissa / 2 ^ count := by
  induction count with
  | zero => simp [HShiftRight.hShiftRight, Nat.repeat]
  | succ count ih =>
      change (mantissa >>> count).mantissa / 2 = _
      rw [ih, Nat.div_div_eq_div_mul, pow_succ]

theorem roundedMantissa_le (mantissa : UnpackedFloat.ExtendedMantissa) :
    mantissa.roundedMantissa ≤ mantissa.mantissa + 1 := by
  rcases mantissa with ⟨whole, _ | _, _ | _⟩ <;>
    simp [UnpackedFloat.ExtendedMantissa.roundedMantissa, UnpackedFloat.ExtendedMantissa.accuracy,
      UnpackedFloat.Accuracy.roundToNearestEven]
  omega

theorem roundedMantissa_shiftRight_le (mantissa count : ℕ) :
    ((⟨mantissa, false, false⟩ : UnpackedFloat.ExtendedMantissa) >>> count).roundedMantissa ≤
      mantissa / 2 ^ count + 1 :=
  (roundedMantissa_le _).trans_eq (by rw [mantissa_shiftRight])

/-- The number of units of the greatest double. -/
def greatest : ℕ := (2 ^ 53 - 1) * 2 ^ 2045

theorem log2_mul_two_pow {mantissa : ℕ} (h : mantissa ≠ 0) (count : ℕ) :
    (mantissa * 2 ^ count).log2 = mantissa.log2 + count := by
  have hpos : 0 < 2 ^ count := by positivity
  rw [Nat.log2_eq_iff (by positivity)]
  constructor
  · rw [pow_add]
    exact Nat.mul_le_mul_right _ (Nat.log2_self_le h)
  · rw [Nat.add_right_comm, pow_add]
    exact Nat.mul_lt_mul_of_pos_right Nat.lt_log2_self hpos

/-- The exponent that rounding moves a mantissa to: the one that leaves 53 bits
of it, or the least exponent there is. -/
def aim (mantissa : ℕ) (exponent : ℤ) : ℤ := max (mantissa.log2 + exponent - 52) (-1074)

theorem targetExponent_eq (mantissa : ℕ) (exponent : ℤ) :
    Format.binary64.targetExponent (Float.Model.totalExponent mantissa exponent) =
      aim mantissa exponent := by
  change max (mantissa.log2 + 1 + exponent - 53) (3 - 2 ^ 10 - 53) = _
  rw [aim]
  omega

theorem aim_shiftLeft {mantissa : ℕ} (h : mantissa ≠ 0) (exponent : ℤ) (count : ℕ) :
    aim (mantissa <<< count) (exponent - count) = aim mantissa exponent := by
  rw [aim, aim, Nat.shiftLeft_eq, log2_mul_two_pow h]
  congr 1
  omega

/-- Below the greatest double the aim is in range, and what is left of the
mantissa leaves room for rounding up. -/
theorem aim_below {mantissa power count : ℕ} {exponent : ℤ} (hexponent : exponent = power - 1074)
    (haim : aim mantissa exponent = exponent + count) (h : mantissa * 2 ^ power < greatest) :
    exponent + count ≤ 971 ∧ mantissa / 2 ^ count + 1 ≤ 2 ^ 53 ∧
      (exponent + count = 971 → mantissa / 2 ^ count + 1 < 2 ^ 53) := by
  have hpos : 0 < 2 ^ count := by positivity
  have hlog : mantissa.log2 + power < 53 + 2045 ∨ mantissa = 0 := by
    rcases Nat.eq_zero_or_pos mantissa with hzero | hmantissa
    · exact .inr hzero
    · refine .inl ((Nat.pow_lt_pow_iff_right (by decide : 1 < 2)).mp ?_)
      calc 2 ^ (mantissa.log2 + power) = 2 ^ mantissa.log2 * 2 ^ power := pow_add ..
        _ ≤ mantissa * 2 ^ power := Nat.mul_le_mul_right _ (Nat.log2_self_le hmantissa.ne')
        _ < greatest := h
        _ < 2 ^ 53 * 2 ^ 2045 := Nat.mul_lt_mul_of_pos_right (by decide) (by positivity)
        _ = 2 ^ (53 + 2045) := (pow_add 2 53 2045).symm
  rw [aim] at haim
  have hzero : mantissa = 0 → mantissa.log2 = 0 := by
    rintro rfl
    rfl
  refine ⟨by omega, ?_, ?_⟩
  · apply Nat.succ_le_of_lt
    rw [Nat.div_lt_iff_lt_mul hpos, ← pow_add]
    exact Nat.lt_log2_self.trans_le (Nat.pow_le_pow_right (by decide) (by omega))
  · intro hlast
    suffices hquotient : mantissa / 2 ^ count < 2 ^ 53 - 1 by omega
    rw [Nat.div_lt_iff_lt_mul hpos]
    apply Nat.lt_of_mul_lt_mul_right (a := 2 ^ power)
    rw [mul_assoc, ← pow_add, show count + power = 2045 by omega]
    exact h

theorem isFinite_roundWithAccuracy {sign : UnpackedFloat.Sign} {mantissa power : ℕ} {exponent : ℤ}
    (hexponent : exponent = power - 1074) (hup : exponent ≤ aim mantissa exponent)
    (h : mantissa * 2 ^ power < greatest) :
    (Float.Model.pack (UnpackedFloat.roundWithAccuracy .binary64 sign mantissa exponent
      .exact)).unpack.isFinite = true := by
  simp only [UnpackedFloat.roundWithAccuracy]
  split
  · cases sign <;> rfl
  · apply isFinite_unpack_pack
    simp only [UnpackedFloat.shiftToTargetExponent, UnpackedFloat.shiftToExponent,
      targetExponent_eq, UnpackedFloat.ExtendedMantissa.ofMantissaAndAccuracy]
    generalize hcount : (aim mantissa exponent - exponent).toNat = count
    have hrounded := roundedMantissa_shiftRight_le mantissa count
    generalize ((⟨mantissa, false, false⟩ : UnpackedFloat.ExtendedMantissa) >>>
      count).roundedMantissa = rounded at hrounded ⊢
    have haim : aim mantissa exponent = exponent + count := by omega
    obtain ⟨hmiddle, hroom, hlast⟩ := aim_below hexponent haim h
    have hlog : ∀ bits, rounded < 2 ^ (bits + 1) → rounded.log2 ≤ bits := by
      intro bits hbits
      rcases Nat.eq_zero_or_pos rounded with hzero | hpos
      · simp [hzero]
      · exact Nat.lt_succ_iff.mp ((Nat.log2_lt hpos.ne').mpr hbits)
    have hwide := hlog 53 (by omega)
    have hnarrow := hlog 52
    rw [aim]
    omega

theorem isFinite_round {sign : UnpackedFloat.Sign} {mantissa power : ℕ} (hpos : mantissa ≠ 0)
    (h : mantissa * 2 ^ power < greatest) :
    (Float.Model.pack (UnpackedFloat.round .binary64 sign mantissa
      (power - 1074))).unpack.isFinite = true := by
  simp only [UnpackedFloat.round, UnpackedFloat.decreaseExponent, targetExponent_eq]
  generalize hcount : ((power : ℤ) - 1074 - aim mantissa (power - 1074)).toNat = count
  have hleast : -1074 ≤ aim mantissa (power - 1074) := le_max_right _ _
  have hpower : (power : ℤ) - 1074 - count = (power - count : ℕ) - 1074 := by omega
  apply isFinite_roundWithAccuracy hpower
  · rw [aim_shiftLeft hpos]
    omega
  · rw [Nat.shiftLeft_eq, mul_assoc, ← pow_add, Nat.add_sub_cancel' (by omega)]
    exact h


/-! ### Sums -/

theorem apply_eq_signed (sign : UnpackedFloat.Sign) (units : ℕ) :
    sign.apply units = signed (isNegative sign) units := by
  cases sign <;> rfl

/-- What an operation gives for this many units: a number that has so many
itself, or so many rounded. -/
inductive Rounds (total : ℤ) : UnpackedFloat → Prop
  | kept {sign mantissa positive power} {exponent : ℤ} :
      Canonical mantissa power → exponent = power - 1074 →
      signed (isNegative sign) (mantissa * 2 ^ power) = total →
      Rounds total (.finite sign mantissa exponent positive)
  | rounded {sign mantissa} {power : ℕ} :
      mantissa ≠ 0 → signed (isNegative sign) (mantissa * 2 ^ power) = total →
      Rounds total (UnpackedFloat.round .binary64 sign mantissa (power - 1074))

theorem rounds_normalize {mantissa : ℤ} (h : mantissa ≠ 0) (power : ℕ)
    (zeroSign : UnpackedFloat.Sign) :
    Rounds (mantissa * 2 ^ power)
      (UnpackedFloat.normalize .binary64 mantissa (power - 1074) zeroSign) := by
  unfold UnpackedFloat.normalize
  rcases lt_trichotomy mantissa 0 with hneg | hzero | hpos
  · rw [compare_lt_iff_lt.mpr hneg]
    refine .rounded (by omega) ?_
    rw [signed_mul]
    simp [signed, isNegative, hneg.le]
  · exact absurd hzero h
  · rw [compare_gt_iff_gt.mpr hpos]
    refine .rounded (by omega) ?_
    simp [signed, isNegative, hpos.le]

theorem Matches.rounds_add {first second : UnpackedFloat} {negative other : Bool} {m n : ℕ}
    (hfirst : Matches first (.finite negative m)) (hsecond : Matches second (.finite other n))
    (h : signed negative m + signed other n ≠ 0) :
    Rounds (signed negative m + signed other n) (UnpackedFloat.add .binary64 first second) := by
  cases hfirst with
  | zero =>
      cases hsecond with
      | zero => simp [signed] at h
      | finite hcanonical hexponent hunits =>
          exact .kept hcanonical hexponent (by simp [signed, hunits])
  | @finite sign m positive _ _ p hm hp hunits =>
      cases hsecond with
      | zero => exact .kept hm hp (by simp [signed, hunits])
      | @finite sign' n positive' _ _ q hn hq hunits' =>
          subst hp hq hunits hunits'
          have hleast : min ((p : ℤ) - 1074) (q - 1074) = (min p q : ℕ) - 1074 := by omega
          have hfirst : ((p : ℤ) - 1074 - ((min p q : ℕ) - 1074)).toNat = p - min p q := by omega
          have hsecond : ((q : ℤ) - 1074 - ((min p q : ℕ) - 1074)).toNat = q - min p q := by omega
          have hp : m * 2 ^ p = m * 2 ^ (p - min p q) * 2 ^ min p q := by
            rw [mul_assoc, ← pow_add, Nat.sub_add_cancel (min_le_left p q)]
          have hq : n * 2 ^ q = n * 2 ^ (q - min p q) * 2 ^ min p q := by
            rw [mul_assoc, ← pow_add, Nat.sub_add_cancel (min_le_right p q)]
          simp only [UnpackedFloat.add, UnpackedFloat.decreaseExponent, hleast, hfirst, hsecond,
            apply_eq_signed, Nat.shiftLeft_eq]
          rw [hp, hq, signed_mul, signed_mul _ (n * _), ← add_mul] at h ⊢
          rw [Nat.cast_pow, Nat.cast_two] at h ⊢
          exact rounds_normalize (left_ne_zero_of_mul h) _ _

theorem Rounds.exists_sign {total : ℤ} {unpacked : UnpackedFloat} (h : Rounds total unpacked) :
    ∃ sign units, signed (isNegative sign) units = total ∧ HasSign sign unpacked := by
  cases h with
  | kept _ _ htotal => exact ⟨_, _, htotal, .finite⟩
  | rounded _ htotal => exact ⟨_, _, htotal, hasSign_round ..⟩

theorem Rounds.isFinite {total : ℤ} {unpacked : UnpackedFloat} (h : Rounds total unpacked)
    (hsmall : total.natAbs < greatest) :
    (Float.Model.pack unpacked).unpack.isFinite = true := by
  cases h with
  | kept hcanonical hexponent _ =>
      have hpower := hcanonical.power_le
      exact isFinite_unpack_pack (by omega)
  | rounded hpos htotal =>
      subst htotal
      exact isFinite_round hpos (by rwa [natAbs_signed] at hsmall)

/-- A sum that is not zero is of the sign of the exact sum. -/
theorem parts_add {x y : Float} {negative other : Bool} {m n : ℕ}
    (hx : parts x = .finite negative m) (hy : parts y = .finite other n)
    (h : signed negative m + signed other n ≠ 0) :
    ∃ sign units, signed sign units = signed negative m + signed other n ∧
      (parts (x + y) = .infinite sign ∨ ∃ k, parts (x + y) = .finite sign k) := by
  have hrounds := (hx ▸ matches_parts x).rounds_add (hy ▸ matches_parts y) h
  obtain ⟨sign, units, htotal, hsign⟩ := hrounds.exists_sign
  exact ⟨isNegative sign, units, htotal, HasSign.parts (x := x + y) hsign.unpack_pack⟩

/-- A sum below the greatest double does not overflow. -/
theorem isFinite_add {x y : Float} {negative other : Bool} {m n : ℕ}
    (hx : parts x = .finite negative m) (hy : parts y = .finite other n)
    (h : signed negative m + signed other n ≠ 0)
    (hsmall : (signed negative m + signed other n).natAbs < greatest) :
    (x + y).isFinite = true :=
  ((hx ▸ matches_parts x).rounds_add (hy ▸ matches_parts y) h).isFinite hsmall

end Animation.Number
