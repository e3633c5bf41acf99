/-!
Doubles as exact numbers. Every finite double is a whole multiple of the
least positive one, `2 ^ -1074`, so a finite value is a sign and a count of
such units, and exact arithmetic on doubles is arithmetic on `Nat`.

Only values whose count fits a double again are encoded here. A count with
more than 53 significant bits loses its low bits, which no caller relies on.
-/

namespace Animation.Number

/-- A double taken apart. `finite negative units` is `± units * 2 ^ -1074`,
and both zeros have no units. -/
inductive Parts where
  | nan
  | infinite (negative : Bool)
  | finite (negative : Bool) (units : Nat)
  deriving DecidableEq, Repr

/-- How many units make one. -/
def one : Nat := 1 <<< 1074

/-- How many doubles there are from a power of two up to the next one. -/
def binade : Nat := 1 <<< 52

/-- The units of the double whose bits, sign aside, are `pattern`. Patterns in
the first binade are subnormal and count units themselves. The pattern of
infinity gives `2 ^ 1024`, the number the next double would have. -/
def unitsOfPattern (pattern : Nat) : Nat :=
  if pattern < binade then pattern
  else (pattern % binade + binade) <<< (pattern / binade - 1)

/-- The pattern of the double with this many units. -/
def patternOfUnits (units : Nat) : Nat :=
  if units < binade then units
  else
    let shift := units.log2 - 52
    shift * binade + units >>> shift

/-- Taking a pattern apart and putting it together again loses nothing, so
every finite double survives the way to units and back. -/
theorem patternOfUnits_unitsOfPattern (pattern : Nat) :
    patternOfUnits (unitsOfPattern pattern) = pattern := by
  have hbinade : binade = 4503599627370496 := by decide
  simp only [unitsOfPattern, patternOfUnits, hbinade]
  by_cases small : pattern < 4503599627370496
  · simp [small]
  · rw [if_neg small]
    have hdiv : 1 ≤ pattern / 4503599627370496 := by omega
    generalize hscale : pattern / 4503599627370496 - 1 = scale
    generalize hmantissa : pattern % 4503599627370496 + 4503599627370496 = mantissa
    have hlow : 2 ^ 52 ≤ mantissa := by omega
    have hhigh : mantissa < 2 ^ 53 := by omega
    have hpos : 0 < 2 ^ scale := Nat.two_pow_pos scale
    have hunits : mantissa <<< scale = mantissa * 2 ^ scale := Nat.shiftLeft_eq mantissa scale
    have hge : mantissa ≤ mantissa * 2 ^ scale := Nat.le_mul_of_pos_right mantissa hpos
    have hlog : (mantissa <<< scale).log2 - 52 = scale := by
      have hne : mantissa * 2 ^ scale ≠ 0 := by omega
      rw [hunits]
      suffices h : (mantissa * 2 ^ scale).log2 = 52 + scale by omega
      rw [Nat.log2_eq_iff hne]
      constructor
      · rw [Nat.pow_add]
        exact Nat.mul_le_mul_right _ hlow
      · rw [show 52 + scale + 1 = 53 + scale by omega, Nat.pow_add]
        exact Nat.mul_lt_mul_of_pos_right hhigh hpos
    rw [if_neg (by omega), hlog, Nat.shiftRight_eq_div_pow, hunits, Nat.mul_div_cancel _ hpos]
    omega

/-- The patterns with a sign begin here. -/
def signPattern : Nat := 1 <<< 63

/-- The pattern of a double: its bits without the sign. -/
def pattern (x : Float) : Nat := x.toBits.toNat % signPattern

/-- Whether the sign bit is set; true of negative zero. -/
def signBit (x : Float) : Bool := signPattern ≤ x.toBits.toNat

/-- The pattern of the two infinities. All patterns above it are NaN. -/
def infinityPattern : Nat := 2047 * binade

def parts (x : Float) : Parts :=
  if infinityPattern < pattern x then .nan
  else if pattern x = infinityPattern then .infinite (signBit x)
  else .finite (signBit x) (unitsOfPattern (pattern x))

/-- The double with this sign and this many units. -/
def ofUnits (negative : Bool) (units : Nat) : Float :=
  Float.ofBits (UInt64.ofNat (patternOfUnits units + if negative then signPattern else 0))

/-- The one NaN this library produces on its own account. -/
def nan : Float := Float.ofBits 0x7ff8000000000000

end Animation.Number
