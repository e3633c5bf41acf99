import Animation.Proofs.Number.Order

/-!
Doubles as counts of units. What a double is taken apart into agrees with its
unpacked form, so the order of finite doubles is the order of their signed
counts. Every count of 53 bits and enough zeros after them is that of a double,
and remainders of such counts are such counts again: remainders are exact.
-/

namespace Animation.Number

open Float.Model (UnpackedFloat Format)

theorem binade_eq : binade = 2 ^ 52 := by decide

theorem signPattern_eq : signPattern = 2 ^ 63 := by decide

theorem infinityPattern_eq : infinityPattern = 2047 * 2 ^ 52 := by decide

/-! ### Patterns and units -/

theorem unitsOfPattern_subnormal {mantissa : ℕ} (h : mantissa < 2 ^ 52) :
    unitsOfPattern mantissa = mantissa := by
  rw [unitsOfPattern, binade_eq, if_pos h]

theorem unitsOfPattern_normal {mantissa : ℕ} (h : mantissa < 2 ^ 52) (power : ℕ) :
    unitsOfPattern ((power + 1) * 2 ^ 52 + mantissa) = (2 ^ 52 + mantissa) * 2 ^ power := by
  have hmod : ((power + 1) * 2 ^ 52 + mantissa) % 2 ^ 52 = mantissa := by omega
  have hdiv : ((power + 1) * 2 ^ 52 + mantissa) / 2 ^ 52 - 1 = power := by omega
  rw [unitsOfPattern, binade_eq, if_neg (by omega), hmod, hdiv, Nat.shiftLeft_eq, Nat.add_comm]

/-- The mantissa and the power of two of a finite double, as its bits have
them: all 53 bits are used unless the power is the least one. -/
structure Canonical (mantissa power : ℕ) : Prop where
  mantissa_lt : mantissa < 2 ^ 53
  power_le : power ≤ 2045
  full : 2 ^ 52 ≤ mantissa ∨ power = 0

def isNegative : UnpackedFloat.Sign → Bool
  | .negative => true
  | .positive => false

/-- The unpacked form of a double, and the same double taken apart. -/
inductive Matches : UnpackedFloat → Parts → Prop
  | nan : Matches .notANumber .nan
  | infinite {sign} : Matches (.infinity sign) (.infinite (isNegative sign))
  | zero {sign} : Matches (.zero sign) (.finite (isNegative sign) 0)
  | finite {sign mantissa positive units} {exponent : ℤ} {power : ℕ} :
      Canonical mantissa power → exponent = power - 1074 → units = mantissa * 2 ^ power →
      Matches (.finite sign mantissa exponent positive) (.finite (isNegative sign) units)

section

variable (bits : BitVec 64)

theorem toNat_unpackMantissa :
    (@UnpackedFloat.unpackMantissa .binary64 bits).toNat = bits.toNat % 2 ^ 52 := by
  rw [UnpackedFloat.unpackMantissa_def, BitVec.extractLsb'_toNat]
  rfl

theorem toNat_unpackExponent :
    (@UnpackedFloat.unpackExponent .binary64 bits).toNat =
      bits.toNat / 2 ^ 52 % 2 ^ 11 := by
  rw [UnpackedFloat.unpackExponent_def, BitVec.extractLsb'_toNat, Nat.shiftRight_eq_div_pow]

theorem isNegative_unpackSign :
    isNegative (.ofBitVec (@UnpackedFloat.unpackSign .binary64 bits)) =
      decide (2 ^ 63 ≤ bits.toNat) := by
  have hsign : (@UnpackedFloat.unpackSign .binary64 bits).toNat =
      bits.toNat / 2 ^ 63 % 2 := by
    rw [UnpackedFloat.unpackSign_def, BitVec.extractLsb'_toNat, Nat.shiftRight_eq_div_pow]
    rfl
  have hbits := bits.isLt
  have hzero : @UnpackedFloat.unpackSign .binary64 bits = 0#1 ↔ bits.toNat < 2 ^ 63 := by
    rw [← BitVec.toNat_inj, hsign, BitVec.toNat_ofNat]
    omega
  unfold UnpackedFloat.Sign.ofBitVec
  by_cases hsmall : bits.toNat < 2 ^ 63
  · rw [if_pos (hzero.mpr hsmall), decide_eq_false (by omega)]
    rfl
  · rw [if_neg (mt hzero.mp hsmall), decide_eq_true (by omega)]
    rfl

end

theorem toNat_one_append (mantissa : BitVec 52) :
    (1#1 ++ mantissa).toNat = 2 ^ 52 + mantissa.toNat := by
  rw [BitVec.toNat_append, ← Nat.shiftLeft_add_eq_or_of_lt mantissa.isLt]
  rfl

/-- Both read the same bits: the exponent's field is one more than the power,
and 0 where the mantissa has no leading one. -/
theorem matches_parts (x : Float) : Matches x.toModel.unpack (parts x) := by
  have hsign : signBit x = isNegative (.ofBitVec
      (@UnpackedFloat.unpackSign .binary64 x.toModel.toBits.toBitVec)) := by
    rw [isNegative_unpackSign, ← signPattern_eq]
    rfl
  have hpattern : pattern x =
      (@UnpackedFloat.unpackExponent .binary64 x.toModel.toBits.toBitVec).toNat * 2 ^ 52 +
        (@UnpackedFloat.unpackMantissa .binary64 x.toModel.toBits.toBitVec).toNat := by
    rw [toNat_unpackExponent, toNat_unpackMantissa, pattern, signPattern_eq]
    change x.toModel.toBits.toBitVec.toNat % 2 ^ 63 = _
    omega
  unfold parts Float.Model.unpack UnpackedFloat.unpack
  rw [hsign, hpattern, infinityPattern_eq]
  generalize x.toModel.toBits.toBitVec = bits
  have hones : @UnpackedFloat.unpackExponent .binary64 bits = -1#11 ↔
      (@UnpackedFloat.unpackExponent .binary64 bits).toNat = 2047 := by
    rw [← BitVec.toNat_inj]
    rfl
  have hzeros : @UnpackedFloat.unpackExponent .binary64 bits = 0#11 ↔
      (@UnpackedFloat.unpackExponent .binary64 bits).toNat = 0 := by
    rw [← BitVec.toNat_inj]
    rfl
  have hempty : @UnpackedFloat.unpackMantissa .binary64 bits = 0#52 ↔
      (@UnpackedFloat.unpackMantissa .binary64 bits).toNat = 0 := by
    rw [← BitVec.toNat_inj]
    rfl
  have hfull := toNat_one_append (@UnpackedFloat.unpackMantissa .binary64 bits)
  have hmantissa : (@UnpackedFloat.unpackMantissa .binary64 bits).toNat < 2 ^ 52 :=
    (@UnpackedFloat.unpackMantissa .binary64 bits).isLt
  have hexponent : (@UnpackedFloat.unpackExponent .binary64 bits).toNat < 2 ^ 11 :=
    (@UnpackedFloat.unpackExponent .binary64 bits).isLt
  simp only [hones, hzeros, hempty]
  rcases hpower : (@UnpackedFloat.unpackExponent .binary64 bits).toNat with _ | power
  · have hcanonical : Canonical (@UnpackedFloat.unpackMantissa .binary64 bits).toNat 0 :=
      ⟨by omega, by omega, .inr rfl⟩
    rw [if_neg (by omega), if_pos rfl, if_neg (by omega), if_neg (by omega), Nat.zero_mul,
      Nat.zero_add, unitsOfPattern_subnormal hmantissa]
    split
    · next hzero =>
        rw [hzero]
        exact .zero
    · exact .finite hcanonical (by decide) (by omega)
  · by_cases hlast : power + 1 = 2047
    · rw [if_pos hlast, hlast]
      split
      · next hzero =>
          rw [hzero, if_neg (by omega), if_pos (by omega)]
          exact .infinite
      · rw [if_pos (by omega)]
        exact .nan
    · have hcanonical :
          Canonical (1#1 ++ @UnpackedFloat.unpackMantissa .binary64 bits).toNat power :=
        ⟨by omega, by omega, .inl (by omega)⟩
      rw [if_neg hlast, if_neg (Nat.succ_ne_zero power), if_neg (by omega), if_neg (by omega),
        unitsOfPattern_normal hmantissa]
      refine .finite hcanonical ?_ (by rw [hfull])
      change ((power + 1 : ℕ) : ℤ) - (1023 + 52) = _
      omega

theorem isFinite_iff {x : Float} :
    x.isFinite = true ↔ ∃ negative units, parts x = .finite negative units := by
  have hmatches := matches_parts x
  change x.toModel.unpack.isFinite = true ↔ _
  generalize x.toModel.unpack = unpacked at hmatches
  generalize Number.parts x = found at hmatches
  cases hmatches <;> simp [UnpackedFloat.isFinite]

/-! ### The order -/

/-- The power of two decides, and where it is the same the mantissa does. -/
theorem Canonical.lt_iff {mantissa other power further : ℕ} (h : Canonical mantissa power)
    (hother : Canonical other further) :
    mantissa * 2 ^ power < other * 2 ^ further ↔
      power < further ∨ power = further ∧ mantissa < other := by
  have hless : ∀ {m n p q : ℕ}, Canonical m p → Canonical n q → p < q → m * 2 ^ p < n * 2 ^ q := by
    intro m n p q hm hn hpq
    have hfull : 2 ^ 52 ≤ n := hn.full.resolve_right (by omega)
    calc m * 2 ^ p < 2 ^ 53 * 2 ^ p := Nat.mul_lt_mul_of_pos_right hm.mantissa_lt (by positivity)
      _ = 2 ^ 52 * 2 ^ (p + 1) := by ring
      _ ≤ n * 2 ^ q := Nat.mul_le_mul hfull (Nat.pow_le_pow_right (by decide) hpq)
  rcases lt_trichotomy power further with hpower | rfl | hpower
  · exact iff_of_true (hless h hother hpower) (.inl hpower)
  · simp
  · have hnot := (hless hother h hpower).not_gt
    exact iff_of_false hnot (by omega)

/-- A number of units with a sign. -/
def signed (negative : Bool) (units : ℕ) : ℤ := if negative then -units else units

@[simp]
theorem natAbs_signed (negative : Bool) (units : ℕ) : (signed negative units).natAbs = units := by
  cases negative <;> simp [signed]

theorem signed_mul (negative : Bool) (units count : ℕ) :
    signed negative (units * count) = signed negative units * count := by
  cases negative <;> simp [signed]

theorem Matches.isNaN_of_finite {unpacked : UnpackedFloat} {negative : Bool} {units : ℕ}
    (h : Matches unpacked (.finite negative units)) : unpacked.isNaN = false := by
  cases h <;> rfl

theorem Matches.rank_lt_iff {first second : UnpackedFloat} {negative other : Bool} {m n : ℕ}
    (hfirst : Matches first (.finite negative m)) (hsecond : Matches second (.finite other n)) :
    rankOfUnpacked first < rankOfUnpacked second ↔ signed negative m < signed other n := by
  cases hfirst with
  | @zero sign =>
      cases hsecond with
      | @zero sign' => cases sign <;> cases sign' <;> simp [rankOfUnpacked, signed, isNegative]
      | @finite sign' _ positive =>
          cases sign <;> cases sign' <;>
            simp [rankOfUnpacked, signed, isNegative, Prod.Lex.toLex_lt_toLex, *]
  | @finite sign m positive _ _ p hm =>
      cases hsecond with
      | @zero sign' =>
          cases sign <;> cases sign' <;>
            simp [rankOfUnpacked, signed, isNegative, Prod.Lex.toLex_lt_toLex, *]
      | @finite sign' n hpos _ _ q hn =>
          subst_vars
          have hless : (m * 2 ^ p : ℤ) < n * 2 ^ q ↔ p < q ∨ p = q ∧ m < n := by
            exact_mod_cast hm.lt_iff hn
          have hmore : (n * 2 ^ q : ℤ) < m * 2 ^ p ↔ q < p ∨ p = q ∧ n < m := by
            rw [eq_comm (a := p)]
            exact_mod_cast hn.lt_iff hm
          have hm : (0 : ℤ) < m * 2 ^ p := by positivity
          have hn : (0 : ℤ) < n * 2 ^ q := by positivity
          cases sign <;> cases sign' <;>
            simp [rankOfUnpacked, signed, isNegative, Prod.Lex.toLex_lt_toLex, hless, hmore] <;>
            omega

/-- Finite doubles are ordered as their numbers of units are. -/
theorem lt_iff_units {x y : Float} {negative other : Bool} {m n : ℕ}
    (hx : parts x = .finite negative m) (hy : parts y = .finite other n) :
    x < y ↔ signed negative m < signed other n := by
  have hfirst := hx ▸ matches_parts x
  have hsecond := hy ▸ matches_parts y
  have hnumber : x.isNaN = false := hfirst.isNaN_of_finite
  have hother : y.isNaN = false := hsecond.isNaN_of_finite
  rw [lt_iff, ← hfirst.rank_lt_iff hsecond]
  exact ⟨fun h => h.2.2, fun h => ⟨hnumber, hother, h⟩⟩

/-! ### Doubles from units -/

/-- As many units as some finite double has. -/
def Exact (units : ℕ) : Prop :=
  ∃ mantissa power, mantissa < 2 ^ 53 ∧ power ≤ 2045 ∧ units = mantissa * 2 ^ power

/-- Taking whole multiples away adds no bits. -/
theorem Exact.mod {m n : ℕ} (hm : Exact m) (hn : Exact n) : Exact (m % n) := by
  obtain ⟨a, p, ha, hp, rfl⟩ := hm
  obtain ⟨b, q, hb, hq, rfl⟩ := hn
  by_cases hb' : b = 0
  · subst hb'
    simp only [Nat.zero_mul, Nat.mod_zero]
    exact ⟨a, p, ha, hp, rfl⟩
  · rcases le_total p q with hpq | hpq
    · obtain ⟨k, rfl⟩ := Nat.exists_eq_add_of_le hpq
      refine ⟨a % (b * 2 ^ k), p, (Nat.mod_le _ _).trans_lt ha, hp, ?_⟩
      rw [pow_add, mul_comm (2 ^ p), ← mul_assoc, Nat.mul_mod_mul_right]
    · obtain ⟨k, rfl⟩ := Nat.exists_eq_add_of_le hpq
      refine ⟨a * 2 ^ k % b, q, (Nat.mod_lt _ (by omega)).trans hb, hq, ?_⟩
      rw [pow_add, mul_comm (2 ^ q), ← mul_assoc, Nat.mul_mod_mul_right]

theorem Exact.le_of_lt {units : ℕ} (h : Exact units) {power : ℕ}
    (hlt : units < 2 ^ 53 * 2 ^ power) : units ≤ (2 ^ 53 - 1) * 2 ^ power := by
  obtain ⟨mantissa, other, hmantissa, -, rfl⟩ := h
  rcases le_total other power with hle | hle
  · exact Nat.mul_le_mul (by omega) (Nat.pow_le_pow_right (by decide) hle)
  · obtain ⟨k, rfl⟩ := Nat.exists_eq_add_of_le hle
    rw [pow_add, mul_comm (2 ^ power), ← mul_assoc] at hlt ⊢
    have hlt := Nat.lt_of_mul_lt_mul_right hlt
    exact Nat.mul_le_mul_right _ (by omega)

theorem Exact.exists_pattern {units : ℕ} (h : Exact units) :
    ∃ pattern < infinityPattern, unitsOfPattern pattern = units := by
  obtain ⟨mantissa, power, hmantissa, hpower, rfl⟩ := h
  rw [infinityPattern_eq]
  induction power generalizing mantissa with
  | zero =>
      by_cases hfull : mantissa < 2 ^ 52
      · exact ⟨mantissa, by omega, by rw [unitsOfPattern_subnormal hfull, pow_zero, mul_one]⟩
      · refine ⟨(0 + 1) * 2 ^ 52 + (mantissa - 2 ^ 52), by omega, ?_⟩
        rw [unitsOfPattern_normal (by omega), Nat.add_sub_cancel' (by omega)]
  | succ power ih =>
      by_cases hfull : mantissa < 2 ^ 52
      · obtain ⟨pattern, hpattern, hunits⟩ := ih (2 * mantissa) (by omega) (by omega)
        exact ⟨pattern, hpattern, by rw [hunits, pow_succ]; ring⟩
      · refine ⟨(power + 1 + 1) * 2 ^ 52 + (mantissa - 2 ^ 52), by omega, ?_⟩
        rw [unitsOfPattern_normal (by omega), Nat.add_sub_cancel' (by omega)]

/-- Bits below those of infinity, the sign aside, are kept as they are. -/
theorem toBits_ofBits {bits : UInt64} (h : bits.toNat % signPattern < infinityPattern) :
    (Float.ofBits bits).toBits = bits := by
  have hnumber : @UnpackedFloat.isNaNBits .binary64 bits.toBitVec = false := by
    apply decide_eq_false
    rintro ⟨hexponent, -⟩
    have hones := congrArg BitVec.toNat hexponent
    rw [toNat_unpackExponent] at hones
    change bits.toNat / 2 ^ 52 % 2 ^ 11 = 2047 at hones
    rw [signPattern_eq, infinityPattern_eq] at h
    omega
  have hpack := @UnpackedFloat.pack_unpack .binary64 bits.toBitVec (by decide)
  rw [hnumber] at hpack
  exact congrArg UInt64.ofBitVec hpack

theorem parts_ofUnits {units : ℕ} (h : Exact units) (negative : Bool) :
    parts (ofUnits negative units) = .finite negative units := by
  obtain ⟨found, hfound, rfl⟩ := h.exists_pattern
  have hsmall : found < 2047 * 2 ^ 52 := infinityPattern_eq ▸ hfound
  let bits := UInt64.ofNat (found + if negative then signPattern else 0)
  have hbits : bits.toNat = found + if negative then 2 ^ 63 else 0 := by
    rw [UInt64.toNat_ofNat', signPattern_eq, Nat.mod_eq_of_lt]
    split <;> omega
  have hpattern : bits.toNat % signPattern = found := by
    rw [hbits, signPattern_eq]
    split <;> omega
  have hnegative : decide (signPattern ≤ bits.toNat) = negative := by
    rw [hbits, signPattern_eq]
    cases negative with
    | false => exact decide_eq_false (by simp; omega)
    | true => exact decide_eq_true (by simp)
  have hkept : (ofUnits negative (unitsOfPattern found)).toBits = bits := by
    rw [ofUnits, patternOfUnits_unitsOfPattern]
    exact toBits_ofBits (hpattern.symm ▸ hfound)
  rw [parts, pattern, signBit, hkept, hpattern, hnegative, if_neg hfound.not_gt, if_neg hfound.ne]

theorem exact_of_parts {x : Float} {negative : Bool} {units : ℕ}
    (h : parts x = .finite negative units) : Exact units := by
  have hmatches := h ▸ matches_parts x
  generalize x.toModel.unpack = unpacked at hmatches
  cases hmatches with
  | zero => exact ⟨0, 0, by decide, by decide, rfl⟩
  | finite hcanonical _ hunits =>
      exact ⟨_, _, hcanonical.mantissa_lt, hcanonical.power_le, hunits⟩

/-- The remainder of two finite numbers is a double, so it is exact. -/
theorem parts_remainder {x y : Float} {negative other : Bool} {m n : ℕ}
    (hx : parts x = .finite negative m) (hy : parts y = .finite other n) (hn : n ≠ 0) :
    parts (remainder x y) = .finite negative (m % n) := by
  simp only [remainder, hx, hy, if_neg hn]
  exact parts_ofUnits ((exact_of_parts hx).mod (exact_of_parts hy)) negative

end Animation.Number
