/-!
What there is to see of a text that was made for a terminal: the text without
control characters and control sequences.

A sequence begins with the escape character, and its first characters decide
how it ends. A tab, a line break or a form feed is visible also inside the
shorter kinds of sequences. It holds the sequence up: what follows is visible as
well, until a control character lets the sequence go on or a character outside
of ASCII ends it.
-/

namespace Animation.Text

/-- What a character belongs to. -/
inductive Mode where
  | plain
  /-- Just after the escape character. -/
  | escape
  /-- A sequence that ends with its next letter, digit or mark of the upper
  range. -/
  | designation
  /-- A control sequence, which ends with a letter or a mark around letters. -/
  | control
  /-- The opening of a device control string, before its letter, and the same
  after a parameter and after an intermediate character. -/
  | device
  | deviceParameter
  | deviceIntermediate
  /-- A command to the operating system, which a bell ends. -/
  | command
  /-- A string that only its terminator ends. -/
  | string
  deriving DecidableEq, Repr

/-- Control characters that lay a text out rather than act on a terminal. -/
def isLayout (c : Char) : Bool :=
  c == '\t' || c == '\n' || c == '\x0c' || c == '\r'

/-- Characters that are visible outside of sequences. -/
def isVisible (c : Char) : Bool :=
  isLayout c || (0x20 ≤ c.toNat && c.toNat != 0x7f)

/-- The mode after a character that ends whatever sequence it stands in. The
escape character begins the next one. -/
def interrupt? (c : Char) : Option Mode :=
  if c = '\x1b' then some .escape
  else if c = '\x18' ∨ c = '\x1a' then some .plain
  else none

/-- Whether the terminator of strings is among the bytes of a character. -/
def holdsTerminator (c : Char) : Bool :=
  (String.utf8EncodeChar c).contains 0x9c

namespace Mode

/-- The sequence that a character after the escape character opens. Most such
characters are a sequence of their own. -/
def opened : Char → Mode
  | '[' => .control
  | ']' => .command
  | 'P' => .device
  | 'X' | '^' | '_' => .string
  | _ => .plain

/-- The mode after a character that interrupts nothing. -/
def next (mode : Mode) (c : Char) : Mode :=
  let between (low high : Nat) : Bool := low ≤ c.toNat && c.toNat ≤ high
  match mode with
  | .plain => .plain
  | .escape =>
    if between 0x20 0x2f then .designation
    else if between 0x30 0x7e then opened c
    else .escape
  | .designation => if between 0x30 0x7e then .plain else .designation
  | .control => if between 0x40 0x7e then .plain else .control
  | .device | .deviceParameter =>
    if between 0x20 0x2f then .deviceIntermediate
    else if between 0x30 0x3b then .deviceParameter
    else if between 0x3c 0x3f then if mode = .device then .deviceParameter else .string
    else if between 0x40 0x7e then .string
    else mode
  | .deviceIntermediate => if between 0x30 0x7e then .string else .deviceIntermediate
  | .command => if c = '\x07' then .plain else .command
  | .string => if holdsTerminator c then .plain else .string

/-- Whether a character is visible in this mode. -/
def shows (mode : Mode) (c : Char) : Bool :=
  match mode with
  | .plain => isVisible c
  | .escape | .designation | .control => isLayout c
  | _ => false

end Mode

/-- A reader of a text: the mode it is in, and whether the sequence of that mode
is held up. -/
structure Viewer where
  mode : Mode := .plain
  held : Bool := false

namespace Viewer

def shows (viewer : Viewer) (c : Char) : Bool :=
  if viewer.held then isVisible c else viewer.mode.shows c

/-- The viewer after a character. Whatever is visible holds a sequence up. -/
def step (viewer : Viewer) (c : Char) : Viewer :=
  let mode :=
    match interrupt? c with
    | some mode => mode
    | none =>
      if !viewer.held then viewer.mode.next c
      else if c.toNat < 0x80 then viewer.mode
      else .plain
  { mode, held := viewer.shows c }

/-- The visible characters of a text, for a viewer that has come to it. -/
def view (viewer : Viewer) : List Char → List Char
  | [] => []
  | c :: rest =>
    let others := view (viewer.step c) rest
    if viewer.shows c then c :: others else others

theorem isVisible_of_shows {viewer : Viewer} {c : Char} (h : viewer.shows c = true) :
    isVisible c = true := by
  obtain ⟨mode, held⟩ := viewer
  cases held <;> cases mode <;> simp_all [shows, Mode.shows, isVisible]

theorem isVisible_of_mem_view {viewer : Viewer} {text : List Char} {c : Char}
    (h : c ∈ viewer.view text) : isVisible c = true := by
  induction text generalizing viewer with
  | nil => simp [view] at h
  | cons d rest ih =>
    simp only [view] at h
    split at h
    · next shown =>
      rcases List.mem_cons.mp h with rfl | member
      · exact isVisible_of_shows shown
      · exact ih member
    · exact ih h

end Viewer

/-- The visible part of a text. -/
def visible (text : String) : String :=
  String.ofList (({} : Viewer).view text.toList)

/-- Nothing but visible characters is left of a text. -/
theorem isVisible_of_mem_visible {text : String} {c : Char} (h : c ∈ (visible text).toList) :
    isVisible c = true := by
  rw [visible, String.toList_ofList] at h
  exact Viewer.isVisible_of_mem_view h

end Animation.Text
