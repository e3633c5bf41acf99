import Animation.Json.Token
import Animation.Json.Write
import Mathlib.Data.List.Basic
import Mathlib.Data.List.TakeWhile

/-!
Strings and whole numbers, written and read again. A string may hold any
character: what cannot stand for itself is escaped, and every escape is undone
by the reader. A whole number is written with all of its digits, so nothing is
lost as long as it fits 64 bits.
-/

namespace Animation

/-! ### Strings -/

namespace Quoted

theorem hexDigit?_hexChar (n : Nat) : hexDigit? (hexChar n) = some (n % 16) := by
  have hall : ∀ d < 16, hexDigit? (Nat.digitChar d) = some d := by decide
  exact hall _ (Nat.mod_lt n (by decide))

/-- A unit that is no half of a character stands for the character with its
number, whatever comes after it. -/
theorem join?_unit {n : Nat} (h : n < 0xd800) (rest : List Piece) :
    join? (.unit n :: rest) = (Char.ofNat n :: ·) <$> join? rest := by
  have hhigh : isHigh n = false := by
    simp only [isHigh, Bool.and_eq_false_iff, decide_eq_false_iff_not]
    omega
  have hlow : isLow n = false := by
    simp only [isLow, Bool.and_eq_false_iff, decide_eq_false_iff_not]
    omega
  cases rest with
  | nil => simp [join?, hhigh, hlow]
  | cons piece others => cases piece <;> simp [join?, hhigh, hlow]

/-- However a character is written, it is one piece, and the piece stands for
the character. -/
theorem exists_piece (c : Char) :
    ∃ piece, (∀ rest, pieces? (escape c ++ rest) = (piece :: ·) <$> pieces? rest) ∧
      ∀ others, join? (piece :: others) = (c :: ·) <$> join? others := by
  unfold escape
  split
  iterate 7
    · refine ⟨.char _, fun rest => ?_, fun _ => rfl⟩
      cases h : pieces? rest <;> simp [pieces?, shortEscape?, h]
  · next hquote hslash _ _ _ _ _ =>
      split
      · next hcontrol =>
          refine ⟨.unit c.toNat, fun rest => ?_, fun others => ?_⟩
          · have hunit : unit? '0' '0' (hexChar (c.toNat / 16)) (hexChar c.toNat) =
                some (.unit c.toNat) := by
              have hzero : hexDigit? '0' = some 0 := rfl
              have hvalue : c.toNat / 16 % 16 * 16 + c.toNat % 16 = c.toNat := by omega
              simp [unit?, hexDigit?_hexChar, hzero, hvalue]
            cases h : pieces? rest <;> simp [pieces?, hunit, h]
          · rw [join?_unit (by omega), Char.ofNat_toNat]
      · refine ⟨.char c, fun rest => ?_, fun _ => rfl⟩
        rw [List.singleton_append, pieces?]
        · cases pieces? rest <;> rfl
        all_goals simp_all

/-- What is written between the quotation marks stands for the text. -/
theorem decode?_escape (text : List Char) :
    decode? (text.flatMap escape) = some (some (String.ofList text)) := by
  have hpieces : ∃ pieces, pieces? (text.flatMap escape) = some pieces ∧
      join? pieces = some text := by
    induction text with
    | nil => exact ⟨[], rfl, rfl⟩
    | cons c text ih =>
        obtain ⟨pieces, hread, hjoin⟩ := ih
        obtain ⟨piece, hpiece, hchar⟩ := exists_piece c
        refine ⟨piece :: pieces, ?_, ?_⟩
        · rw [List.flatMap_cons, hpiece, hread]
          rfl
        · rw [hchar, hjoin]
          rfl
  obtain ⟨pieces, hread, hjoin⟩ := hpieces
  simp [decode?, hread, hjoin]

end Quoted

/-! ### Numbers -/

namespace Numeral

open Decimal

theorem digits_toDigits (n : Nat) :
    digits (Nat.toDigits 10 n) = ((Nat.toDigits 10 n).map digit, []) := by
  have hdigits : ∀ c ∈ Nat.toDigits 10 n, c.isDigit = true := fun c hc =>
    Nat.isDigit_of_mem_toDigits (by decide) (by decide) hc
  rw [digits, List.takeWhile_eq_self_iff.mpr hdigits, List.dropWhile_eq_nil_iff.mpr hdigits]

/-- Only zero is written with a zero in front. -/
theorem eq_zero_of_leading_zero {n : Nat} {rest : List Nat}
    (h : (Nat.toDigits 10 n).map digit = 0 :: rest) : n = 0 := by
  induction n using Nat.strongRecOn generalizing rest with
  | ind n ih =>
      by_cases hsmall : n < 10
      · rw [Nat.toDigits_of_lt_base hsmall] at h
        exact (Nat.toNat_digitChar_sub_48_of_lt_ten hsmall).symm.trans (List.cons.inj h).1
      · have hlarge : 10 ≤ n := Nat.le_of_not_lt hsmall
        rw [Nat.toDigits_of_base_le (by decide) hlarge, List.map_append] at h
        rcases List.append_eq_cons_iff.mp h with ⟨hnil, -⟩ | ⟨others, hhead, -⟩
        · exact absurd (List.map_eq_nil_iff.mp hnil) Nat.toDigits_ne_nil
        · have := ih (n / 10) (by omega) hhead
          omega

theorem length_of_leading_zero {n : Nat} {rest : List Nat}
    (h : (Nat.toDigits 10 n).map digit = 0 :: rest) : rest = [] := by
  rw [eq_zero_of_leading_zero h, Nat.toDigits_zero] at h
  exact (List.cons.inj h).2.symm

/-- Digits are gathered completely where they make a number of 64 bits. -/
theorem gather_eq {significand : Nat} {text : List Char}
    (h : Nat.ofDigitChars 10 text significand < UInt64.size) :
    gather significand (text.map digit) = (Nat.ofDigitChars 10 text significand, []) := by
  induction text generalizing significand with
  | nil => rfl
  | cons c text ih =>
      have hstep : Nat.ofDigitChars 10 (c :: text) significand =
          Nat.ofDigitChars 10 text (significand * 10 + digit c) := by
        rw [Nat.ofDigitChars_cons, Nat.mul_comm]
        rfl
      rw [hstep] at h
      have hle : significand * 10 + digit c ≤
          Nat.ofDigitChars 10 text (significand * 10 + digit c) := by
        rw [Nat.ofDigitChars_eq_ofDigitChars_zero]
        have hpos : 0 < 10 ^ text.length := Nat.pow_pos (by decide)
        exact (Nat.le_mul_of_pos_left _ hpos).trans (Nat.le_add_right _ _)
      rw [List.map_cons, gather, if_pos (hle.trans_lt h), ih h, hstep]

theorem gather_toDigits {n : Nat} (h : n < UInt64.size) :
    gather 0 ((Nat.toDigits 10 n).map digit) = (n, []) := by
  have hvalue : Nat.ofDigitChars 10 (Nat.toDigits 10 n) 0 = n :=
    Nat.ofDigitChars_toDigits (by decide) (by decide)
  rw [gather_eq (by rw [hvalue]; exact h), hvalue]

theorem le_ofDigits (significand : Nat) (places : List Nat) :
    significand ≤ places.foldl (fun n d => n * 10 + d) significand := by
  induction places generalizing significand with
  | nil => exact Nat.le_refl _
  | cons d rest ih =>
      have hstep := ih (significand * 10 + d)
      rw [List.foldl_cons]
      omega

/-- Digits are gathered completely if and only if they make a number of 64
bits, which is then what they are gathered to. -/
theorem gather_eq_iff {significand n : Nat} {places : List Nat} (h : significand < UInt64.size) :
    gather significand places = (n, []) ↔
      places.foldl (fun n d => n * 10 + d) significand = n ∧ n < UInt64.size := by
  induction places generalizing significand with
  | nil =>
      simp only [gather, List.foldl_nil, Prod.mk.injEq, and_true]
      constructor
      · rintro rfl
        exact ⟨rfl, h⟩
      · exact And.left
  | cons d rest ih =>
      rw [gather, List.foldl_cons]
      by_cases hfits : significand * 10 + d < UInt64.size
      · rw [if_pos hfits, ih hfits]
      · rw [if_neg hfits]
        have hgrows := le_ofDigits (significand * 10 + d) rest
        refine iff_of_false (by simp) ?_
        rintro ⟨rfl, hsmall⟩
        omega

theorem wholeMagnitude?_eq_some_iff {numeral : Numeral} {n : Nat} :
    numeral.wholeMagnitude? = some n ↔ numeral.fraction = none ∧ numeral.exponent = none ∧
      ofDigits numeral.whole = n ∧ n < UInt64.size := by
  obtain ⟨negative, whole, fraction, exponent⟩ := numeral
  have hgather : gather 0 whole = (n, []) ↔ _ := gather_eq_iff (show 0 < UInt64.size by decide)
  rw [ofDigits, ← hgather]
  unfold wholeMagnitude?
  split
  · next hfraction hexponent hwhole =>
      obtain rfl : fraction = none := hfraction
      obtain rfl : exponent = none := hexponent
      obtain hwhole : gather 0 whole = _ := hwhole
      simp [hwhole]
  · next hother =>
      refine iff_of_false (by simp) ?_
      rintro ⟨rfl, rfl, hwhole⟩
      exact hother n rfl rfl hwhole

/-- A numeral has an exact value without a sign if it is digits alone and they
make a number of 64 bits, and only then. -/
theorem value?_eq_natural_iff {numeral : Numeral} {n : UInt64} :
    numeral.value? = some (.natural n) ↔ numeral.negative = false ∧ numeral.fraction = none ∧
      numeral.exponent = none ∧ ofDigits numeral.whole = n.toNat := by
  have hwhole : numeral.wholeMagnitude? = some n.toNat ↔ numeral.fraction = none ∧
      numeral.exponent = none ∧ ofDigits numeral.whole = n.toNat := by
    rw [wholeMagnitude?_eq_some_iff]
    simp [n.toNat_lt_size]
  rw [← hwhole]
  unfold value?
  cases hmagnitude : numeral.wholeMagnitude? with
  | none => cases numeral.negative <;> simp
  | some magnitude =>
      have hfits := (wholeMagnitude?_eq_some_iff.mp hmagnitude).2.2.2
      have hkept : (UInt64.ofNat magnitude).toNat = magnitude := UInt64.toNat_ofNat_of_lt hfits
      cases numeral.negative with
      | false => simp [← UInt64.toNat_inj, hkept]
      | true =>
          dsimp only
          split <;> simp

/-- The numeral of a whole number, perhaps with a minus. -/
def ofWhole (negative : Bool) (magnitude : Nat) : Numeral :=
  { negative, whole := (Nat.toDigits 10 magnitude).map digit, fraction := none, exponent := none }

/-- Digits after a minus are a numeral, and so are digits alone. -/
theorem ofChars?_minus (n : Nat) :
    ofChars? ('-' :: Nat.toDigits 10 n) = some (ofWhole true n) := by
  simp only [ofChars?, digits_toDigits]
  split
  · next hnil => exact absurd (List.map_eq_nil_iff.mp hnil) Nat.toDigits_ne_nil
  · next hzero => cases length_of_leading_zero hzero
  · rfl

theorem ofChars?_toDigits (n : Nat) :
    ofChars? (Nat.toDigits 10 n) = some (ofWhole false n) := by
  have hminus : ∀ text, Nat.toDigits 10 n ≠ '-' :: text := by
    intro text htext
    have hmem : '-' ∈ Nat.toDigits 10 n := by simp [htext]
    exact absurd (Nat.isDigit_of_mem_toDigits (by decide) (by decide) hmem) (by decide)
  rw [ofChars?]
  · simp only [digits_toDigits]
    split
    · next hnil => exact absurd (List.map_eq_nil_iff.mp hnil) Nat.toDigits_ne_nil
    · next hzero => cases length_of_leading_zero hzero
    · rfl
  · exact hminus

end Numeral

namespace JsonNumber

/-- Whole numbers. Doubles are not exact: their reader is faster than it is
precise, so some of them are read as a neighbour. -/
def Exact : JsonNumber → Prop
  | .natural _ => True
  | .negative magnitude => 0 < magnitude.toNat ∧ 2 * magnitude.toNat ≤ UInt64.size
  | .real _ => False

/-- What is written for a whole number is a numeral with this value. -/
theorem exists_numeral {number : JsonNumber} (h : number.Exact) :
    ∃ numeral, Numeral.ofChars? number.write.toList = some numeral ∧
      numeral.value? = some number := by
  cases number with
  | natural value =>
      refine ⟨.ofWhole false value.toNat, ?_, ?_⟩
      · rw [write, Nat.toString_eq_repr, Nat.toList_repr, Numeral.ofChars?_toDigits]
      · simp [Numeral.value?, Numeral.wholeMagnitude?, Numeral.ofWhole,
          Numeral.gather_toDigits value.toNat_lt]
  | negative magnitude =>
      obtain ⟨hpos, hfits⟩ := h
      refine ⟨.ofWhole true magnitude.toNat, ?_, ?_⟩
      · rw [write, Nat.toString_eq_repr, String.toList_append, Nat.toList_repr]
        exact Numeral.ofChars?_minus magnitude.toNat
      · simp [Numeral.value?, Numeral.wholeMagnitude?, Numeral.ofWhole,
          Numeral.gather_toDigits magnitude.toNat_lt, hpos, hfits]
  | real value => cases h

end JsonNumber

end Animation
