/-!
Strings of JSON texts: what stands between the quotation marks, and the
strings that it stands for.

Escapes name UTF-16 code units. Two of them can make one character, and one
alone can be half a character that belongs to no string. Reading therefore has
two stages: escapes must be well formed wherever they stand, but only where
the string itself is wanted must the units fit together.
-/

namespace Animation

namespace Quoted

/-- A character that stands for itself, or a code unit named by an escape. -/
inductive Piece where
  | char (c : Char)
  | unit (n : Nat)
  deriving DecidableEq, Repr

def hexDigit? (c : Char) : Option Nat :=
  if c.isDigit then some (c.toNat - '0'.toNat)
  else if 'a' ≤ c ∧ c ≤ 'f' then some (c.toNat - 'a'.toNat + 10)
  else if 'A' ≤ c ∧ c ≤ 'F' then some (c.toNat - 'A'.toNat + 10)
  else none

def unit? (a b c d : Char) : Option Piece := do
  let a ← hexDigit? a
  let b ← hexDigit? b
  let c ← hexDigit? c
  let d ← hexDigit? d
  pure (.unit (((a * 16 + b) * 16 + c) * 16 + d))

/-- The character that a short escape stands for. -/
def shortEscape? : Char → Option Char
  | '"' => some '"'
  | '\\' => some '\\'
  | '/' => some '/'
  | 'b' => some '\x08'
  | 'f' => some '\x0c'
  | 'n' => some '\n'
  | 'r' => some '\r'
  | 't' => some '\t'
  | _ => none

/-- Splits a body into pieces, or finds a malformed escape in it. -/
def pieces? : List Char → Option (List Piece)
  | [] => some []
  | '\\' :: 'u' :: a :: b :: c :: d :: rest => do
    let piece ← unit? a b c d
    let others ← pieces? rest
    pure (piece :: others)
  | '\\' :: c :: rest => do
    let piece ← shortEscape? c
    let others ← pieces? rest
    pure (.char piece :: others)
  | ['\\'] => none
  | c :: rest => do
    let others ← pieces? rest
    pure (.char c :: others)

def isHigh (n : Nat) : Bool := 0xd800 ≤ n && n < 0xdc00
def isLow (n : Nat) : Bool := 0xdc00 ≤ n && n < 0xe000

/-- Joins pieces to characters. Every half of a character must be followed or
preceded by its other half. -/
def join? : List Piece → Option (List Char)
  | [] => some []
  | .char c :: rest => (c :: ·) <$> join? rest
  | .unit high :: .unit low :: rest =>
    if isHigh high then
      if isLow low then
        (Char.ofNat (0x10000 + (high - 0xd800) * 0x400 + (low - 0xdc00)) :: ·) <$> join? rest
      else none
    else if isLow high then none
    else (Char.ofNat high :: ·) <$> join? (.unit low :: rest)
  | .unit n :: rest =>
    if isHigh n || isLow n then none else (Char.ofNat n :: ·) <$> join? rest

/-- The string that a body stands for. The outer `none` is a malformed escape,
the inner one half a character. -/
def decode? (body : List Char) : Option (Option String) :=
  (pieces? body).map fun pieces => (join? pieces).map String.ofList

def hexChar (n : Nat) : Char := Nat.digitChar (n % 16)

/-- How a character is written in a string. Quotation marks, backslashes and
control characters are escaped, everything else stands for itself. -/
def escape (c : Char) : List Char :=
  match c with
  | '"' => ['\\', '"']
  | '\\' => ['\\', '\\']
  | '\x08' => ['\\', 'b']
  | '\x0c' => ['\\', 'f']
  | '\n' => ['\\', 'n']
  | '\r' => ['\\', 'r']
  | '\t' => ['\\', 't']
  | c =>
    if c.toNat < 0x20 then
      ['\\', 'u', '0', '0', hexChar (c.toNat / 16), hexChar c.toNat]
    else [c]

/-- A string in quotation marks. -/
def encode (text : String) : String :=
  String.ofList ('"' :: text.toList.flatMap escape ++ ['"'])

end Quoted

end Animation
