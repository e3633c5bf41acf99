import Animation.Expression.Kind
import Animation.Proofs.Walk
import Mathlib.Data.List.MinMax
import Mathlib.Logic.Relation
import Mathlib.Order.Nat

/-!
Trees of nodes, be they expressions or elements. A node has places for
operands in the order in which its fields are declared; a place is filled, or
it is empty although the node cannot do without it. Optional operands that are
absent have no place, and lists have one for each item.

Everything that visits a tree from left to right visits the places of each
node in this order. What is said here in terms of places is said of all
families of nodes at once.
-/

namespace Animation

inductive Place (α : Type) where
  | filled (operand : α)
  | missing (field : Field)

namespace Place

variable {α β : Type}

def required (field : Field) : Option α → Place α
  | some operand => .filled operand
  | none => .missing field

def optional : Option α → List (Place α)
  | some operand => [.filled operand]
  | none => []

def operand? : Place α → Option α
  | .filled operand => some operand
  | .missing _ => none

@[simp] theorem filled_eq_required {field : Field} {slot : Option α} {operand : α} :
    .filled operand = required field slot ↔ slot = some operand := by
  cases slot <;> simp [required, eq_comm]

theorem filled_mem_map {operands : List α} {operand : α} :
    filled operand ∈ operands.map filled ↔ operand ∈ operands := by
  simp

@[simp] theorem filled_mem_optional {slot : Option α} {operand : α} :
    .filled operand ∈ optional slot ↔ slot = some operand := by
  cases slot <;> simp [optional, eq_comm]

theorem operand?_eq_some {place : Place α} {operand : α} :
    place.operand? = some operand ↔ place = .filled operand := by
  cases place <;> simp [operand?]

@[simp] theorem operand?_required (field : Field) (slot : Option α) :
    (required field slot).operand? = slot := by
  cases slot <;> rfl

@[simp] theorem filterMap_operand?_filled (operands : List α) :
    operands.filterMap (fun operand => (filled operand).operand?) = operands :=
  List.filterMap_some

@[simp] theorem head?_optional (slot : Option α) :
    (optional slot).head?.bind operand? = slot := by
  cases slot <;> rfl

/-- Both places are filled, with related operands, or lack the same field. -/
inductive Alike (related : α → β → Prop) : Place α → Place β → Prop
  | filled {operand : α} {other : β} :
      related operand other → Alike related (.filled operand) (.filled other)
  | missing {field : Field} : Alike related (.missing field) (.missing field)

theorem required_congr {related : α → β → Prop} {field : Field} {slot : Option α}
    {other : Option β} (h : Option.Rel related slot other) :
    Alike related (required field slot) (required field other) := by
  cases h with
  | none => exact .missing
  | some h => exact .filled h

theorem optional_congr {related : α → β → Prop} {slot : Option α} {other : Option β}
    (h : Option.Rel related slot other) :
    List.Forall₂ (Alike related) (optional slot) (optional other) := by
  cases h with
  | none => exact .nil
  | some h => exact .cons (.filled h) .nil

theorem filled_congr {related : α → β → Prop} {operands : List α} {others : List β}
    (h : List.Forall₂ related operands others) :
    List.Forall₂ (Alike related) (operands.map filled) (others.map filled) := by
  rw [List.forall₂_map_left_iff, List.forall₂_map_right_iff]
  exact h.imp fun _ _ h => .filled h

theorem Alike.operand? {related : α → β → Prop} {place : Place α} {other : Place β}
    (h : Alike related place other) : Option.Rel related place.operand? other.operand? := by
  cases h with
  | filled hoperand => exact .some hoperand
  | missing => exact .none

theorem alike_required {related : α → β → Prop} {field : Field} {slot : Option α}
    {place : Place β} (h : Alike related (required field slot) place) :
    required field place.operand? = place := by
  cases slot with
  | none =>
      cases h
      rfl
  | some operand =>
      cases h
      rfl

theorem alike_optional {related : α → β → Prop} {slot : Option α} {places : List (Place β)}
    (h : List.Forall₂ (Alike related) (optional slot) places) :
    optional (places.head?.bind operand?) = places := by
  cases slot with
  | none =>
      cases h
      rfl
  | some operand =>
      rcases h with _ | ⟨⟨_⟩, _ | _⟩
      rfl

theorem alike_map {related : α → β → Prop} {operands : List α} {places : List (Place β)}
    (h : List.Forall₂ (Alike related) (operands.map filled) places) :
    (places.filterMap operand?).map filled = places := by
  induction operands generalizing places with
  | nil =>
      cases h
      rfl
  | cons operand rest ih =>
      rcases h with _ | ⟨⟨_⟩, hrest⟩
      exact congrArg _ (ih hrest)

theorem alike_operands {related : α → β → Prop} {these : List (Place α)} {those : List (Place β)}
    (h : List.Forall₂ (Alike related) these those) :
    List.Forall₂ related (these.filterMap operand?) (those.filterMap operand?) := by
  induction h with
  | nil => exact .nil
  | cons hplace _ ih =>
      cases hplace with
      | filled hoperand => exact .cons hoperand ih
      | missing => exact ih

theorem alike_missing {related : α → β → Prop} {these : List (Place α)} {those : List (Place β)}
    {field : Field} (h : List.Forall₂ (Alike related) these those) :
    .missing field ∈ these ↔ .missing field ∈ those := by
  induction h with
  | nil => simp
  | cons hplace _ ih => cases hplace <;> simp [ih]

end Place

/-- Trees whose nodes have places. Without a kind there are no places, and
what has a kind is a node; elements can be nodes without having a kind. -/
class Tree (α : Type) [SizeOf α] where
  isNode : α → Bool
  kind? : α → Option Kind
  places : α → List (Place α)
  isNode_of_kind {tree : α} {kind : Kind} : kind? tree = some kind → isNode tree = true
  places_of_no_kind {tree : α} : kind? tree = none → places tree = []
  sizeOf_lt {tree operand : α} : .filled operand ∈ places tree → sizeOf operand < sizeOf tree

namespace Tree

variable {α β : Type} [SizeOf α] [Tree α] [SizeOf β] [Tree β]

/-- The operands that are present, from left to right. -/
def operands (tree : α) : List α :=
  (places tree).filterMap Place.operand?

theorem mem_operands {tree operand : α} :
    operand ∈ operands tree ↔ .filled operand ∈ places tree := by
  simp [operands, Place.operand?_eq_some]

theorem sizeOf_operand_lt {tree operand : α} (h : operand ∈ operands tree) :
    sizeOf operand < sizeOf tree :=
  sizeOf_lt (mem_operands.mp h)

/-- Induction over a tree: a tree is settled once its operands are. -/
theorem operand_induction {motive : α → Prop}
    (step : ∀ tree, (∀ operand ∈ operands tree, motive operand) → motive tree)
    (tree : α) : motive tree :=
  step tree fun operand h =>
    have := sizeOf_operand_lt h
    operand_induction step operand
termination_by sizeOf tree

/-- The root itself, its operands, their operands and so on. -/
def Contains : α → α → Prop :=
  Relation.ReflTransGen fun tree operand => operand ∈ operands tree

theorem contains_iff {root tree : α} :
    Contains root tree ↔ root = tree ∨ ∃ operand ∈ operands root, Contains operand tree := by
  rw [Contains, Relation.ReflTransGen.cases_head_iff]

/-- Somewhere a node of this kind lacks this required operand. -/
def Lacks (root : α) (kind : Kind) (field : Field) : Prop :=
  ∃ tree, Contains root tree ∧ kind? tree = some kind ∧ .missing field ∈ places tree

theorem lacks_iff {root : α} {kind : Kind} {field : Field} :
    Lacks root kind field ↔
      (kind? root = some kind ∧ .missing field ∈ places root) ∨
        ∃ operand ∈ operands root, Lacks operand kind field := by
  simp only [Lacks, @contains_iff _ _ _ root]
  constructor
  · rintro ⟨tree, rfl | ⟨operand, hoperand, hrest⟩, hmissing⟩
    · exact Or.inl hmissing
    · exact Or.inr ⟨operand, hoperand, tree, hrest, hmissing⟩
  · rintro (hmissing | ⟨operand, hoperand, tree, hrest, hmissing⟩)
    · exact ⟨root, Or.inl rfl, hmissing⟩
    · exact ⟨tree, Or.inr ⟨operand, hoperand, hrest⟩, hmissing⟩

/-- The largest number of nodes that are nested inside each other. Numbers and
readings that are not nodes do not count. -/
def nesting (tree : α) : Nat :=
  ((operands tree).attach.map fun operand => nesting operand.1).foldr max 0 +
    (isNode tree).toNat
termination_by sizeOf tree
decreasing_by exact sizeOf_operand_lt operand.2

theorem nesting_eq (tree : α) :
    nesting tree = ((operands tree).map nesting).foldr max 0 + (isNode tree).toNat := by
  rw [nesting]
  simp only [List.attach_map_val (f := nesting)]

theorem nesting_leaf {tree : α} (hplaces : places tree = []) (hleaf : isNode tree = false) :
    nesting tree = 0 := by
  rw [nesting_eq, operands, hplaces, hleaf]
  rfl

/-- A node has at most so many nodes inside each other, itself included, as
its operands have, and one more. -/
theorem nesting_node_le {tree : α} {n : Nat} (h : isNode tree = true) :
    nesting tree ≤ n + 1 ↔ ∀ operand ∈ operands tree, nesting operand ≤ n := by
  rw [nesting_eq, h]
  simp only [Bool.toNat_true, Nat.add_le_add_iff_right]
  constructor
  · intro hmax operand hoperand
    exact (List.le_max_of_le (List.mem_map_of_mem hoperand) (Nat.le_refl _)).trans hmax
  · intro hall
    apply List.max_le_of_forall_le
    intro level hlevel
    obtain ⟨operand, hoperand, rfl⟩ := List.mem_map.mp hlevel
    exact hall operand hoperand

theorem nesting_node_pos {tree : α} (h : isNode tree = true) : 0 < nesting tree := by
  rw [nesting_eq, h]
  exact Nat.succ_pos _

theorem nesting_operand_lt {tree operand : α} (h : isNode tree = true)
    (hoperand : operand ∈ operands tree) : nesting operand < nesting tree := by
  have hpos := nesting_node_pos h
  have hle : nesting tree ≤ (nesting tree - 1) + 1 := by omega
  have := (nesting_node_le h).mp hle operand hoperand
  omega

/-! ### Touring a tree -/

/-- What is met on a tour: a tree with its level, which is one more than the
number of nodes around it, a required operand that is missing in a node, and
the tree once more when everything in it has been met. -/
inductive Visit (α : Type) where
  | enter (level : Nat) (tree : α)
  | missing (node : α) (field : Field)
  | leave (tree : α)

/-- The part of a tour of this node that is in one place. -/
def Visit.ofPlace (node : α) (tour : α → List (Visit α)) : Place α → List (Visit α)
  | .filled operand => tour operand
  | .missing field => [.missing node field]

/-- From left to right and depth first, with everything in a place before the
next place. -/
def tour (level : Nat) (tree : α) : List (Visit α) :=
  .enter level tree ::
    ((places tree).attach.flatMap fun
      | ⟨.filled operand, _⟩ => tour (level + (isNode tree).toNat) operand
      | ⟨.missing field, _⟩ => [.missing tree field]) ++
    [.leave tree]
termination_by sizeOf tree
decreasing_by exact sizeOf_lt ‹_›

theorem tour_eq (level : Nat) (tree : α) :
    tour level tree =
      .enter level tree ::
        (places tree).flatMap (Visit.ofPlace tree (tour (level + (isNode tree).toNat))) ++
        [.leave tree] := by
  rw [tour, List.flatMap_subtype, List.unattach_attach]
  rintro (operand | field) hplace <;> rfl

/-! ### Trees of the same shape -/

/-- Related trees agree in everything but their leaves and what their nodes
carry besides operands. -/
def Shaped (related : α → β → Prop) : Prop :=
  ∀ tree other, related tree other →
    isNode tree = isNode other ∧ kind? tree = kind? other ∧
      List.Forall₂ (Place.Alike related) (places tree) (places other)

/-- What related trees have as operands, in pairs. -/
theorem Shaped.operands {related : α → β → Prop} (h : Shaped related) {tree : α} {other : β}
    (hrelated : related tree other) :
    List.Forall₂ (fun operand partner => operand ∈ operands tree ∧ related operand partner)
      (operands tree) (operands other) := by
  obtain ⟨-, -, hplaces⟩ := h tree other hrelated
  exact Walk.forall₂_mem (Place.alike_operands hplaces)

theorem Shaped.nesting_eq {related : α → β → Prop} (h : Shaped related) {tree : α} {other : β}
    (hrelated : related tree other) : nesting tree = nesting other := by
  induction tree using operand_induction generalizing other with
  | step tree ih =>
      obtain ⟨hnode, -, -⟩ := h tree other hrelated
      have hoperands : (Tree.operands tree).map nesting = (Tree.operands other).map nesting := by
        rw [← List.forall₂_eq_eq_eq, List.forall₂_map_left_iff, List.forall₂_map_right_iff]
        exact (h.operands hrelated).imp fun operand _ hpair => ih operand hpair.1 hpair.2
      rw [Tree.nesting_eq tree, Tree.nesting_eq other, hoperands, hnode]

theorem Shaped.lacks_iff {related : α → β → Prop} (h : Shaped related) {tree : α} {other : β}
    {kind : Kind} {field : Field} (hrelated : related tree other) :
    Lacks tree kind field ↔ Lacks other kind field := by
  induction tree using operand_induction generalizing other with
  | step tree ih =>
      obtain ⟨-, hkind, hplaces⟩ := h tree other hrelated
      have hoperands : (∃ operand ∈ Tree.operands tree, Lacks operand kind field) ↔
          ∃ operand ∈ Tree.operands other, Lacks operand kind field := by
        apply Walk.exists_iff_of_forall₂
        exact (h.operands hrelated).imp fun operand _ hpair => ih operand hpair.1 hpair.2
      rw [Tree.lacks_iff, @Tree.lacks_iff _ _ _ other, hkind, Place.alike_missing hplaces,
        hoperands]

end Tree

end Animation
