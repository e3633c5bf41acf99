/-!
Decimal digits at the front of a text. Digits are the ten ASCII ones, and are
kept as numbers below ten.
-/

namespace Animation.Decimal

def digit (c : Char) : Nat := c.toNat - '0'.toNat

/-- The digits at the front of a text, and what follows them. -/
def digits (text : List Char) : List Nat × List Char :=
  ((text.takeWhile Char.isDigit).map digit, text.dropWhile Char.isDigit)

def ofDigits (places : List Nat) : Nat :=
  places.foldl (fun n d => n * 10 + d) 0

/-- A sign or none, and whether it was a minus. -/
def signed : List Char → Bool × List Char
  | '-' :: text => (true, text)
  | '+' :: text => (false, text)
  | text => (false, text)

/-- An exponent, which is a letter, perhaps a sign, and at least one digit; or
nothing, if the text does not begin with the letter. -/
def exponent? : List Char → Option (Option (Bool × List Nat) × List Char)
  | c :: text =>
    if c = 'e' ∨ c = 'E' then
      let (negative, text) := signed text
      match digits text with
      | ([], _) => none
      | (places, rest) => some (some (negative, places), rest)
    else some (none, c :: text)
  | [] => some (none, [])

/-- The value of an exponent; nothing counts as zero. -/
def exponentValue : Option (Bool × List Nat) → Int
  | none => 0
  | some (true, places) => -(ofDigits places : Int)
  | some (false, places) => ofDigits places

end Animation.Decimal
