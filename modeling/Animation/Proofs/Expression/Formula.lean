import Animation.Proofs.Compiler.Room

/-!
Trees as propositional formulas. `and`, `or`, `not` and choices make up the
logical part of the language, over numbers and readings of cells. What such a
tree says is a formula whose atoms are its leaves, in the sense of classical
logic: every leaf is either true or not, NaN and a reading of nothing being
false like the two zeros.
-/

namespace Animation

open Number (isTrue)

/-- Propositional formulas. -/
inductive Formula (Atom : Type) where
  | atom (name : Atom)
  | falsum
  | not (part : Formula Atom)
  | every (parts : List (Formula Atom))
  | any (parts : List (Formula Atom))
  /-- If the test, then the one, else the other. -/
  | choice (test positive negative : Formula Atom)

namespace Formula

variable {Atom : Type} (valuation : Atom → Prop)

mutual

/-- Truth of a formula when its atoms are true or not as the valuation says. -/
def Holds : Formula Atom → Prop
  | .atom name => valuation name
  | .falsum => False
  | .not part => ¬ Holds part
  | .every parts => AllHold parts
  | .any parts => AnyHolds parts
  | .choice test positive negative =>
    (Holds test ∧ Holds positive) ∨ (¬ Holds test ∧ Holds negative)

def AllHold : List (Formula Atom) → Prop
  | [] => True
  | part :: rest => Holds part ∧ AllHold rest

def AnyHolds : List (Formula Atom) → Prop
  | [] => False
  | part :: rest => Holds part ∨ AnyHolds rest

end

end Formula

/-- The atoms of the logical part. -/
inductive Leaf where
  | number (value : Float)
  | reading (source : Ref)

/-- A leaf is true if it is a number that counts as true, or a slot that holds
such a number. -/
def Leaf.IsTrue (store : Store) : Leaf → Prop
  | .number value => isTrue value = true
  | .reading source =>
    ∃ value, store.cells[source.index]? = some (.slot (some value)) ∧ isTrue value = true

namespace Expression

mutual

/-- The formula that a tree of the logical part reads as. Other trees have
none. Readings of nothing are false, and so is a choice without a second branch
where its test is. -/
def formula? : Expression → Option (Formula Leaf)
  | .literal content | .number content => some (.atom (.number content))
  | .external source | .value (some source) => some (.atom (.reading source))
  | .value none => some .falsum
  | .binary .and (some a) (some b) others => do
    let first ← formula? a
    let second ← formula? b
    let rest ← formulas? others
    pure (.every (first :: second :: rest))
  | .binary .or (some a) (some b) others => do
    let first ← formula? a
    let second ← formula? b
    let rest ← formulas? others
    pure (.any (first :: second :: rest))
  | .unary .not (some v) => do
    let part ← formula? v
    pure (.not part)
  | .cond (some expr) (some ifNode) elseNode => do
    let test ← formula? expr
    let positive ← formula? ifNode
    let negative ← orFalsum? elseNode
    pure (.choice test positive negative)
  | _ => none

def orFalsum? : Option Expression → Option (Formula Leaf)
  | none => some .falsum
  | some elseNode => formula? elseNode

def formulas? : List Expression → Option (List (Formula Leaf))
  | [] => some []
  | operand :: rest => do
    let first ← formula? operand
    let others ← formulas? rest
    pure (first :: others)

end

/-- Nodes of these kinds have truth values as results. -/
def connectives : List Kind :=
  [.binary .and, .binary .or, .unary .not]

/-- Conjunctions, disjunctions, negations and choices are all there is around
numbers and readings. -/
def Logical (tree : Expression) : Prop :=
  ∀ part kind, Tree.Contains tree part → part.kind? = some kind →
    kind ∈ connectives ++ [.cond, .value, .number]

/-! ### Trees that read as formulas -/

theorem formulas?_eq_some_iff {operands : List Expression} {formulas : List (Formula Leaf)} :
    formulas? operands = some formulas ↔
      List.Forall₂ (fun operand formula => operand.formula? = some formula) operands formulas := by
  induction operands generalizing formulas with
  | nil => simp [formulas?, eq_comm]
  | cons operand operands ih =>
      simp only [formulas?, List.forall₂_cons_left_iff, Option.bind_eq_bind,
        Option.bind_eq_some_iff, Option.pure_def, Option.some.injEq, ih]
      constructor
      · rintro ⟨first, hfirst, rest, hrest, rfl⟩
        exact ⟨first, rest, hfirst, hrest, rfl⟩
      · rintro ⟨first, rest, hfirst, hrest, rfl⟩
        exact ⟨first, hfirst, rest, hrest, rfl⟩

/-- Of folds, conjunctions and disjunctions read as formulas. -/
theorem formula?_binary {op : FoldOp} {a b : Option Expression} {others : List Expression}
    {formula : Formula Leaf} (h : (binary op a b others).formula? = some formula) :
    ∃ first second parts, a = some first ∧ b = some second ∧
      List.Forall₂ (fun operand part => operand.formula? = some part)
        (first :: second :: others) parts ∧
      (op = .and ∧ formula = .every parts ∨ op = .or ∧ formula = .any parts) := by
  cases a with
  | none => cases op <;> simp [formula?] at h
  | some a =>
      cases b with
      | none => cases op <;> simp [formula?] at h
      | some b =>
          cases op with
          | and | or =>
              simp only [formula?, Option.bind_eq_bind, Option.bind_eq_some_iff, Option.pure_def,
                Option.some.injEq] at h
              obtain ⟨first, hfirst, second, hsecond, rest, hrest, rfl⟩ := h
              refine ⟨a, b, first :: second :: rest, rfl, rfl, ?_, ?_⟩
              · exact .cons hfirst (.cons hsecond (formulas?_eq_some_iff.mp hrest))
              · simp
          | _ => simp [formula?] at h

theorem formula?_unary {op : UnaryOp} {v : Option Expression} {formula : Formula Leaf}
    (h : (unary op v).formula? = some formula) :
    ∃ operand part, op = .not ∧ v = some operand ∧ operand.formula? = some part ∧
      formula = .not part := by
  cases v with
  | none => cases op <;> simp [formula?] at h
  | some v =>
      cases op with
      | not =>
          simp only [formula?, Option.bind_eq_bind, Option.bind_eq_some_iff, Option.pure_def,
            Option.some.injEq] at h
          obtain ⟨part, hpart, rfl⟩ := h
          exact ⟨v, part, rfl, rfl, hpart, rfl⟩
      | _ => simp [formula?] at h

/-- A choice reads as one, of what its missing branch stands for as well. -/
theorem formula?_cond {expr ifNode elseNode : Option Expression} {formula : Formula Leaf}
    (h : (cond expr ifNode elseNode).formula? = some formula) :
    ∃ condition taken test positive negative, expr = some condition ∧ ifNode = some taken ∧
      condition.formula? = some test ∧ taken.formula? = some positive ∧
      orFalsum? elseNode = some negative ∧ formula = .choice test positive negative := by
  cases expr with
  | none => simp [formula?] at h
  | some expr =>
      cases ifNode with
      | none => simp [formula?] at h
      | some ifNode =>
          simp only [formula?, Option.bind_eq_bind, Option.bind_eq_some_iff, Option.pure_def,
            Option.some.injEq] at h
          obtain ⟨test, htest, positive, hpositive, negative, hnegative, rfl⟩ := h
          exact ⟨expr, ifNode, test, positive, negative, rfl, rfl, htest, hpositive, hnegative, rfl⟩

/-- Nothing is missing in a tree that reads as a formula. -/
theorem exists_operands_of_formula? {tree : Expression} {formula : Formula Leaf}
    (h : tree.formula? = some formula) :
    ∃ operands : List Expression, tree.places = operands.map .filled ∧
      ∀ operand ∈ operands, ∃ part, operand.formula? = some part := by
  cases tree with
  | literal _ | external _ | value _ | number _ => exact ⟨[], rfl, nofun⟩
  | binary op a b others =>
      obtain ⟨first, second, parts, rfl, rfl, hparts, -⟩ := formula?_binary h
      refine ⟨first :: second :: others, rfl, ?_⟩
      intro operand hoperand
      obtain ⟨part, -, hpart⟩ := Walk.exists_of_forall₂ hparts operand hoperand
      exact ⟨part, hpart⟩
  | unary op v =>
      obtain ⟨operand, part, rfl, rfl, hpart, -⟩ := formula?_unary h
      exact ⟨[operand], rfl, by simp [hpart]⟩
  | cond expr ifNode elseNode =>
      obtain ⟨condition, taken, test, positive, negative, rfl, rfl, htest, hpositive, hnegative,
        -⟩ := formula?_cond h
      cases elseNode with
      | none => exact ⟨[condition, taken], rfl, by simp [htest, hpositive]⟩
      | some elseNode =>
          have helse : elseNode.formula? = some negative := hnegative
          exact ⟨[condition, taken, elseNode], rfl, by simp [htest, hpositive, helse]⟩
  | compare _ _ _ | set _ _ | block _ | call _ _ => simp [formula?] at h

/-- It compiles if only there is room for it. -/
theorem compilesIn_of_formula? {tree : Expression} {formula : Formula Leaf}
    (h : tree.formula? = some formula) : tree.CompilesIn (Tree.nesting tree) := by
  induction tree using Tree.operand_induction generalizing formula with
  | step tree ih =>
      cases hkind : tree.kind? with
      | none => exact compilesIn_leaf hkind _
      | some kind =>
          have hnode := isNode_of_kind hkind
          obtain ⟨n, hnesting⟩ := Nat.exists_eq_add_one.mpr (Tree.nesting_node_pos hnode)
          obtain ⟨operands, hplaces, hparts⟩ := exists_operands_of_formula? h
          rw [hnesting]
          apply compilesIn_node hplaces
          intro operand hoperand
          obtain ⟨part, hpart⟩ := hparts operand hoperand
          rw [← operands_eq hplaces] at hoperand
          have hinside := (Tree.nesting_node_le hnode).mp (Nat.le_of_eq hnesting) operand hoperand
          exact (ih operand hoperand hpart).mono hinside

/-! ### Trees of the logical part -/

theorem Logical.operand {tree operand : Expression} (h : tree.Logical)
    (hoperand : operand ∈ Tree.operands tree) : operand.Logical :=
  fun part kind hpart => h part kind (Tree.contains_iff.mpr (.inr ⟨operand, hoperand, hpart⟩))

theorem Logical.kind {tree : Expression} {kind : Kind} (h : tree.Logical)
    (hkind : tree.kind? = some kind) : kind ∈ connectives ++ [.cond, .value, .number] :=
  h tree kind (Tree.contains_iff.mpr (.inl rfl)) hkind

theorem exists_formulas? {operands : List Expression}
    (h : ∀ operand ∈ operands, ∃ part, operand.formula? = some part) :
    ∃ parts, formulas? operands = some parts := by
  induction operands with
  | nil => exact ⟨[], rfl⟩
  | cons operand operands ih =>
      obtain ⟨⟨part, hpart⟩, hrest⟩ := List.forall_mem_cons.mp h
      obtain ⟨parts, hparts⟩ := ih hrest
      exact ⟨part :: parts, by simp [formulas?, hpart, hparts]⟩

/-- There is an operand in the place, and it reads as a formula. -/
def Readable (place : Place Expression) : Prop :=
  ∃ operand part, .filled operand = place ∧ operand.formula? = some part

theorem readable_required {field : Field} {slot : Option Expression}
    (h : Readable (.required field slot)) :
    ∃ operand part, slot = some operand ∧ operand.formula? = some part := by
  obtain ⟨operand, part, hplace, hpart⟩ := h
  exact ⟨operand, part, Place.filled_eq_required.mp hplace, hpart⟩

theorem readable_optional {elseNode : Option Expression}
    (h : ∀ place ∈ Place.optional elseNode, Readable place) :
    ∃ part, orFalsum? elseNode = some part := by
  cases elseNode with
  | none => exact ⟨.falsum, rfl⟩
  | some elseNode =>
      obtain ⟨_, part, ⟨⟩, hpart⟩ := h _ List.mem_cons_self
      exact ⟨part, hpart⟩

/-- A node of the logical part reads as a formula if all of its operands are
there and do so. -/
theorem exists_formula?_node {tree : Expression} (hlogical : tree.Logical)
    (h : ∀ place ∈ tree.places, Readable place) : ∃ formula, tree.formula? = some formula := by
  cases tree with
  | literal _ | number _ | external _ => exact ⟨_, rfl⟩
  | value source => cases source <;> exact ⟨_, rfl⟩
  | binary op a b others =>
      simp only [places, List.forall_mem_cons] at h
      obtain ⟨ha, hb, hothers⟩ := h
      obtain ⟨a, first, rfl, hfirst⟩ := readable_required ha
      obtain ⟨b, second, rfl, hsecond⟩ := readable_required hb
      have hparts : ∀ operand ∈ others, ∃ part, operand.formula? = some part := by
        intro operand hoperand
        obtain ⟨_, part, ⟨⟩, hpart⟩ := hothers _ (List.mem_map_of_mem hoperand)
        exact ⟨part, hpart⟩
      obtain ⟨rest, hrest⟩ := exists_formulas? hparts
      have hop : op = .and ∨ op = .or := by simpa [connectives] using hlogical.kind rfl
      rcases hop with rfl | rfl
      · exact ⟨.every (first :: second :: rest), by simp [formula?, hfirst, hsecond, hrest]⟩
      · exact ⟨.any (first :: second :: rest), by simp [formula?, hfirst, hsecond, hrest]⟩
  | unary op v =>
      obtain ⟨v, part, rfl, hpart⟩ := readable_required (h _ List.mem_cons_self)
      have hop : op = .not := by simpa [connectives] using hlogical.kind rfl
      subst hop
      exact ⟨.not part, by simp [formula?, hpart]⟩
  | cond expr ifNode elseNode =>
      simp only [places, List.forall_mem_cons] at h
      obtain ⟨hexpr, hif, helse⟩ := h
      obtain ⟨expr, test, rfl, htest⟩ := readable_required hexpr
      obtain ⟨ifNode, positive, rfl, hpositive⟩ := readable_required hif
      obtain ⟨negative, hnegative⟩ := readable_optional helse
      exact ⟨.choice test positive negative, by simp [formula?, htest, hpositive, hnegative]⟩
  | compare _ _ _ | set _ _ | block _ | call _ _ =>
      have hkind := hlogical.kind rfl
      simp [connectives] at hkind

/-- In a tree that compiles, nothing is missing. -/
theorem Logical.exists_formula? {tree : Expression} (hlogical : tree.Logical)
    {compiler : Compiler} {program : Program} (h : (compiler.compile tree).1 = .ok program) :
    ∃ formula, tree.formula? = some formula := by
  induction tree using Tree.operand_induction generalizing compiler program with
  | step tree ih =>
      obtain ⟨-, operands, programs, hplaces, hprograms, -⟩ := compile_eq_ok_iff.mp h
      apply exists_formula?_node hlogical
      rw [hplaces, List.forall_mem_map]
      intro operand hoperand
      obtain ⟨inside, -, hinside⟩ := Walk.exists_of_forall₂ hprograms operand hoperand
      rw [← operands_eq hplaces] at hoperand
      obtain ⟨part, hpart⟩ := ih operand hoperand (hlogical.operand hoperand) hinside
      exact ⟨operand, part, rfl, hpart⟩

end Expression

end Animation
