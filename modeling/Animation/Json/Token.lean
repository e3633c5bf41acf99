import Animation.Json.Numeral
import Animation.Json.Quoted

/-!
The tokens of a JSON text. Scanning goes over the text once, one character at
a time, and stops only at its end or at the first character that no text can
have there. Words are taken as long as possible, so two values need something
between them.
-/

namespace Animation

inductive Token where
  | openArray | closeArray | openObject | closeObject | comma | colon
  | null
  | bool (value : Bool)
  | number (numeral : Numeral)
  /-- A string, or `none` if its escapes name half a character. -/
  | string (text : Option String)
  deriving DecidableEq, Repr

namespace Token

/-- Blanks between tokens. -/
def isBlank (c : Char) : Bool :=
  c == ' ' || c == '\t' || c == '\n' || c == '\r'

def punctuation? : Char → Option Token
  | '[' => some .openArray
  | ']' => some .closeArray
  | '{' => some .openObject
  | '}' => some .closeObject
  | ',' => some .comma
  | ':' => some .colon
  | _ => none

/-- Words are the three names and the numerals. -/
def ofWord? (word : List Char) : Option Token :=
  if word = ['n', 'u', 'l', 'l'] then some .null
  else if word = ['t', 'r', 'u', 'e'] then some (.bool true)
  else if word = ['f', 'a', 'l', 's', 'e'] then some (.bool false)
  else (Numeral.ofChars? word).map .number

/-- What the scanner is inside of. Characters read so far are kept in reverse. -/
inductive Inside where
  | nothing
  | word (read : List Char)
  | quoted (read : List Char)
  /-- Inside quotation marks, after a backslash. -/
  | escape (read : List Char)

/-- A scanner with the tokens that are complete, also in reverse. -/
structure Scanner where
  done : List Token := []
  inside : Inside := .nothing

namespace Scanner

/-- Takes a character that is not part of a word or a string. -/
def start (done : List Token) (c : Char) : Scanner :=
  if isBlank c then { done }
  else if c = '"' then { done, inside := .quoted [] }
  else
    match punctuation? c with
    | some token => { done := token :: done }
    | none => { done, inside := .word [c] }

/-- Whether a character ends the word before it. -/
def endsWord (c : Char) : Bool :=
  isBlank c || c == '"' || (punctuation? c).isSome

def step (scanner : Scanner) (c : Char) : Option Scanner :=
  match scanner.inside with
  | .nothing => some (start scanner.done c)
  | .word read =>
    if endsWord c then do
      let token ← ofWord? read.reverse
      some (start (token :: scanner.done) c)
    else some { scanner with inside := .word (c :: read) }
  | .quoted read =>
    if c = '"' then do
      let text ← Quoted.decode? read.reverse
      some { done := .string text :: scanner.done }
    else if c = '\\' then some { scanner with inside := .escape (c :: read) }
    else if c.toNat < 0x20 then none
    else some { scanner with inside := .quoted (c :: read) }
  | .escape read => some { scanner with inside := .quoted (c :: read) }

/-- The tokens of a text that ends here. -/
def finish? (scanner : Scanner) : Option (List Token) :=
  match scanner.inside with
  | .nothing => some scanner.done.reverse
  | .word read => do
    let token ← ofWord? read.reverse
    some (token :: scanner.done).reverse
  | .quoted _ | .escape _ => none

end Scanner

/-- The tokens of a text, if it consists of tokens. -/
def scan? (text : String) : Option (List Token) := do
  let scanner ← text.toList.foldlM Scanner.step {}
  scanner.finish?

end Token

end Animation
