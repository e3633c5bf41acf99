/-!
The values that expressions read and write live outside the expressions, in
the cells of a store. A cell is named by a `Ref`, its place in the order in
which cells were made; cells are never removed, so a ref keeps its meaning.

A slot holds what was last put into it. A derived cell is read-only and
answers each reading by a rule, from how often it has been read before and
from readings of older cells. Looking only at older cells is what makes every
reading end.
-/

namespace Animation

/-- A cell of a store. -/
structure Ref where
  index : Nat
  deriving DecidableEq, Repr

/-- How a derived cell answers. `rule n readings` is its `n`th answer, counted
from zero, where `readings` are those of the inputs, taken in order for this
answer. -/
structure Derivation where
  inputs : List Ref
  rule : Nat → List (Option Float) → Option Float

namespace Derivation

/-- Always the same reading. -/
def constant (reading : Option Float) : Derivation :=
  ⟨[], fun _ _ => reading⟩

/-- The readings of a list, over and over; none if the list is empty. -/
def cycle (readings : List (Option Float)) : Derivation :=
  ⟨[], fun n _ => readings[n % readings.length]?.join⟩

/-- The numbers 1, 2, 3 and so on, one for each reading. -/
def counter : Derivation :=
  ⟨[], fun n _ => some (Float.ofNat (n + 1))⟩

/-- A multiple of another cell's reading, none while that has none. -/
def scaled (source : Ref) (factor : Float) : Derivation :=
  ⟨[source], fun _ readings => readings.head?.join.map (· * factor)⟩

end Derivation

inductive Cell where
  | slot (content : Option Float)
  | derived (derivation : Derivation) (answered : Nat)

structure Store where
  cells : Array Cell

namespace Store

def empty : Store := ⟨#[]⟩

/-- The ref that the next new cell will have. -/
def next (store : Store) : Ref := ⟨store.cells.size⟩

/-- A new slot with this content. -/
def allocate (content : Option Float) (store : Store) : Ref × Store :=
  (store.next, ⟨store.cells.push (.slot content)⟩)

/-- A new derived cell that has not been read yet. -/
def derive (derivation : Derivation) (store : Store) : Ref × Store :=
  (store.next, ⟨store.cells.push (.derived derivation 0)⟩)

def isSlot (ref : Ref) (store : Store) : Bool :=
  match store.cells[ref.index]? with
  | some (.slot _) => true
  | _ => false

/-- Sets the content of a slot. Derived cells keep everything they have. -/
def put (ref : Ref) (content : Option Float) (store : Store) : Store :=
  if store.isSlot ref then ⟨store.cells.setIfInBounds ref.index (.slot content)⟩ else store

/-- Writes a number, and tells whether the cell took it. -/
def write (ref : Ref) (value : Float) (store : Store) : Bool × Store :=
  (store.isSlot ref, store.put ref (some value))

/-- Reads cells one after the other, each in the store that the one before it
has left. -/
def readEach (read : Ref → Store → Option Float × Store) :
    List Ref → Store → List (Option Float) × Store
  | [], store => ([], store)
  | ref :: rest, store =>
    let (reading, middle) := read ref store
    let (readings, after) := readEach read rest middle
    (reading :: readings, after)

/-- Reads `ref` on behalf of the cell at `bound`, or of the outside if `bound`
is the next new cell. Only cells below `bound` have a reading for it. -/
def readBelow : Nat → Ref → Store → Option Float × Store
  | 0, _, store => (none, store)
  | bound + 1, ref, store =>
    if ref.index < bound then readBelow bound ref store
    else if ref.index = bound then
      match store.cells[bound]? with
      | none => (none, store)
      | some (.slot content) => (content, store)
      | some (.derived derivation answered) =>
        let (readings, after) := readEach (readBelow bound) derivation.inputs store
        (derivation.rule answered readings,
          ⟨after.cells.setIfInBounds bound (.derived derivation (answered + 1))⟩)
    else (none, store)

/-- The present reading of a cell. A reading counts as an answer of every
derived cell that it goes through. -/
def read (ref : Ref) (store : Store) : Option Float × Store :=
  readBelow (ref.index + 1) ref store

/-- The present readings of several cells, in order. -/
def readAll (refs : List Ref) (store : Store) : List (Option Float) × Store :=
  readEach read refs store

/-- Reading a slot gives its content and leaves the store as it is. -/
theorem read_slot {store : Store} {ref : Ref} {content : Option Float}
    (h : store.cells[ref.index]? = some (.slot content)) :
    store.read ref = (content, store) := by
  simp [read, readBelow, h]

/-- A slot reads what was put into it last. -/
theorem read_put {store : Store} {ref : Ref} (h : store.isSlot ref = true)
    (content : Option Float) :
    (store.put ref content).read ref = (content, store.put ref content) := by
  apply read_slot
  have hbound : ref.index < store.cells.size := by
    apply Nat.lt_of_not_le
    intro outside
    simp [isSlot, Array.getElem?_eq_none outside] at h
  simp [put, h, hbound]

/-- What is put into one cell does not concern any other. -/
theorem getElem?_put_of_ne {store : Store} {ref : Ref} {i : Nat} (h : ref.index ≠ i)
    (content : Option Float) :
    (store.put ref content).cells[i]? = store.cells[i]? := by
  unfold put
  split
  · simp [Array.getElem?_setIfInBounds_ne h]
  · rfl

end Store

end Animation
