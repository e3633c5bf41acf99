import Animation.Proofs.Expression.Footprint
import Animation.Proofs.Expression.Formula
import Animation.Proofs.Expression.Laws

/-!
A pass of a tree of the logical part decides the formula that the tree reads as,
from any content of the slots that it reads. Numbers come in between: every
node hands a number to the node around it, which takes it as a truth value
again. Only choices and leaves can hand on a number other than 1 and 0.
-/

namespace Animation

open Number (isTrue ofBool isTrue_ofBool)

namespace Expression

/-! ### What evaluations decide -/

variable {store : Store}

/-- The outcome decides the formula and has changed nothing. -/
structure Decides (store : Store) (formula : Formula Leaf) (outcome : Outcome Float) : Prop where
  unchanged : outcome.store = store
  truth : isTrue outcome.value = true ↔ formula.Holds (Leaf.IsTrue store)

/-- Whatever the tree evaluates to from this store decides the formula. -/
def Settles (store : Store) (tree : Expression) (formula : Formula Leaf) : Prop :=
  ∀ outcome, tree.Evaluates store outcome → Decides store formula outcome

theorem decides_reading {source : Ref} (hslot : store.isSlot source = true)
    {reading : Option Float} {after : Store} (hread : store.read source = (reading, after)) :
    Decides store (.atom (.reading source)) ⟨reading.getD Number.nan, after, [.read source]⟩ := by
  obtain ⟨content, hcontent⟩ := Store.isSlot_iff.mp hslot
  rw [Store.read_slot hcontent] at hread
  obtain ⟨rfl, rfl⟩ := Prod.mk.inj hread
  refine ⟨rfl, ?_⟩
  cases content with
  | none => simp [Formula.Holds, Leaf.IsTrue, hcontent, Number.isTrue_nan]
  | some value => simp [Formula.Holds, Leaf.IsTrue, hcontent]

/-- Operands that settle their formulas leave the store to the next ones as it
was, so that all and any of them are true as their formulas are. -/
theorem settles_all {operands : List Expression} {formulas : List (Formula Leaf)}
    (h : List.Forall₂ (Settles store) operands formulas) {values : Outcome (List Float)}
    (hvalues : EvaluatesAll operands store values) :
    values.store = store ∧
      (values.value.all isTrue = true ↔ Formula.AllHold (Leaf.IsTrue store) formulas) ∧
      (values.value.any isTrue = true ↔ Formula.AnyHolds (Leaf.IsTrue store) formulas) := by
  induction h generalizing values with
  | nil =>
      cases hvalues
      simp [Formula.AllHold, Formula.AnyHolds]
  | cons hhead _ ih =>
      cases hvalues with
      | cons hfirst hrest =>
          obtain ⟨hstore, htruth⟩ := hhead _ hfirst
          rw [hstore] at hrest
          obtain ⟨hafter, hall, hany⟩ := ih hrest
          refine ⟨hafter, ?_, ?_⟩
          · rw [List.all_cons, Bool.and_eq_true, htruth, hall, Formula.AllHold]
          · rw [List.any_cons, Bool.or_eq_true, htruth, hany, Formula.AnyHolds]

/-- The test leaves the store to the branch as it was. -/
theorem settles_choice {condition taken : Expression} {elseNode : Option Expression}
    {test positive negative : Formula Leaf} (htest : Settles store condition test)
    (hpositive : Settles store taken positive)
    (hnegative : Settles store (elseNode.getD (.literal 0)) negative) :
    Settles store (choice condition taken elseNode) (.choice test positive negative) := by
  intro outcome h
  obtain ⟨tested, branch, last, htested, hbranch, hlast, rfl⟩ := evaluates_choice_iff.mp h
  obtain ⟨hunchanged, htruth⟩ := htest tested htested
  rw [hunchanged] at hlast
  cases hvalue : isTrue tested.value with
  | true =>
      rw [hvalue, if_pos rfl] at hbranch
      cases hbranch
      obtain ⟨hafter, hlast⟩ := hpositive last hlast
      have hholds := htruth.mp hvalue
      exact ⟨hafter, by simp [Formula.Holds, hlast, hholds]⟩
  | false =>
      rw [hvalue, if_neg Bool.false_ne_true] at hbranch
      cases hbranch
      obtain ⟨hafter, hlast⟩ := hnegative last hlast
      have hfails : ¬ test.Holds (Leaf.IsTrue store) := by simp [← htruth, hvalue]
      exact ⟨hafter, by simp [Formula.Holds, hlast, hfails]⟩

/-- The values of a conjunction or disjunction that reads as a formula. -/
theorem exists_values_of_fold {op : FoldOp} {a b : Expression} {others : List Expression}
    {outcome : Outcome Float} (h : (fold op a b others).Evaluates store outcome) :
    ∃ x y rest after events, EvaluatesAll (a :: b :: others) store ⟨x :: y :: rest, after, events⟩ ∧
      outcome = ⟨(y :: rest).foldl op.apply x, after, events⟩ := by
  obtain ⟨first, rest, ha, hrest, rfl⟩ := evaluates_fold_iff.mp h
  cases hrest with
  | cons hb hothers => exact ⟨_, _, _, _, _, .cons ha (.cons hb hothers), rfl⟩

theorem settles_binary {op : FoldOp} {a b : Expression} {others : List Expression}
    {parts : List (Formula Leaf)} {formula : Formula Leaf}
    (hparts : List.Forall₂ (Settles store) (a :: b :: others) parts)
    (hop : op = .and ∧ formula = .every parts ∨ op = .or ∧ formula = .any parts) :
    Settles store (fold op a b others) formula := by
  intro outcome houtcome
  obtain ⟨x, y, rest, after, events, hvalues, rfl⟩ := exists_values_of_fold houtcome
  obtain ⟨hstore, hall, hany⟩ := settles_all hparts hvalues
  refine ⟨hstore, ?_⟩
  rcases hop with ⟨rfl, rfl⟩ | ⟨rfl, rfl⟩
  · simp only [FoldOp.foldl_and, isTrue_ofBool, hall, Formula.Holds]
  · simp only [FoldOp.foldl_or, isTrue_ofBool, hany, Formula.Holds]

theorem settles_not {operand : Expression} {part : Formula Leaf}
    (hpart : Settles store operand part) : Settles store (apply .not operand) (.not part) := by
  intro outcome houtcome
  obtain ⟨inner, hinner, rfl⟩ := evaluates_not_iff.mp houtcome
  obtain ⟨hstore, htruth⟩ := hpart inner hinner
  refine ⟨hstore, ?_⟩
  rw [UnaryOp.apply_not, isTrue_ofBool, Formula.Holds, ← htruth, Bool.not_eq_true',
    Bool.not_eq_true]

/-- Induction on the tree: the nodes around the leaves settle their formulas
because their operands settle theirs. -/
theorem settles_of_formula? {tree : Expression} {formula : Formula Leaf}
    (h : tree.formula? = some formula)
    (hslots : ∀ source, tree.Uses (.read source) → store.isSlot source = true) :
    Settles store tree formula := by
  induction tree using Tree.operand_induction generalizing formula with
  | step tree ih =>
      have hoperand : ∀ {operand part}, operand ∈ Tree.operands tree →
          operand.formula? = some part → Settles store operand part := by
        intro operand part hmember hpart
        apply ih operand hmember hpart
        intro source huse
        exact hslots source (uses_iff.mpr (.inr ⟨operand, hmember, huse⟩))
      cases tree with
      | literal _ | number _ =>
          cases h
          rintro outcome ⟨⟩
          exact ⟨rfl, Iff.rfl⟩
      | external source =>
          cases h
          have hslot := hslots source (uses_iff.mpr (.inl (by simp [ownUses])))
          intro outcome houtcome
          cases houtcome with
          | external hread => exact decides_reading hslot hread
      | value source =>
          cases source with
          | none =>
              cases h
              rintro outcome ⟨⟩
              exact ⟨rfl, by simp [Formula.Holds, Number.isTrue_nan]⟩
          | some source =>
              cases h
              have hslot := hslots source (uses_iff.mpr (.inl (by simp [ownUses])))
              intro outcome houtcome
              cases houtcome with
              | value hread => exact decides_reading hslot hread
      | binary op a b others =>
          obtain ⟨first, second, parts, rfl, rfl, hparts, hop⟩ := formula?_binary h
          have hsettle := (Walk.forall₂_mem hparts).imp fun operand part hpair =>
            hoperand (operands_fold op first second others ▸ hpair.1) hpair.2
          exact settles_binary hsettle hop
      | unary op v =>
          obtain ⟨operand, part, rfl, rfl, hpart, rfl⟩ := formula?_unary h
          have hmember : operand ∈ Tree.operands (apply .not operand) := by simp [operands_apply]
          exact settles_not (hoperand hmember hpart)
      | cond expr ifNode elseNode =>
          obtain ⟨condition, taken, test, positive, negative, rfl, rfl, htest, hpositive, hnegative,
            rfl⟩ := formula?_cond h
          have hmissing : Settles store (elseNode.getD (.literal 0)) negative := by
            cases elseNode with
            | none =>
                cases hnegative
                rintro outcome ⟨⟩
                have hfalse : isTrue 0 = false := isTrue_ofBool false
                exact ⟨rfl, by simp [Formula.Holds, hfalse]⟩
            | some elseNode =>
                exact hoperand (Tree.mem_operands.mpr (.tail _ (.tail _ (.head _)))) hnegative
          exact settles_choice (hoperand (Tree.mem_operands.mpr (.head _)) htest)
            (hoperand (Tree.mem_operands.mpr (.tail _ (.head _))) hpositive) hmissing
      | compare _ _ _ | set _ _ | block _ | call _ _ => simp [formula?] at h

/-- Whatever numbers are connected, the result is a truth value. -/
theorem value_of_connective {tree : Expression} {kind : Kind} (hkind : tree.kind? = some kind)
    (h : kind ∈ connectives) {outcome : Outcome Float} (houtcome : tree.Evaluates store outcome) :
    outcome.value = 1 ∨ outcome.value = 0 := by
  suffices htruth : ∃ truth, outcome.value = ofBool truth by
    obtain ⟨truth, hvalue⟩ := htruth
    cases truth with
    | true => exact .inl hvalue
    | false => exact .inr hvalue
  cases houtcome with
  | binary ha hb hothers =>
      cases hkind
      obtain ⟨x, y, rest, after, events, -, houtcome⟩ :=
        exists_values_of_fold (.binary ha hb hothers)
      have hvalue := congrArg Outcome.value houtcome
      simp only [connectives, List.mem_cons, List.not_mem_nil, Kind.binary.injEq, or_false,
        reduceCtorEq] at h
      rcases h with rfl | rfl
      · exact ⟨_, hvalue.trans (FoldOp.foldl_and x y rest)⟩
      · exact ⟨_, hvalue.trans (FoldOp.foldl_or x y rest)⟩
  | unary hv =>
      cases hkind
      simp only [connectives, List.mem_cons, List.not_mem_nil, Kind.unary.injEq, or_false,
        false_or, reduceCtorEq] at h
      subst h
      exact ⟨_, UnaryOp.apply_not _⟩
  | _ => cases hkind <;> simp [connectives] at h

/-- As numbers, NaN and both zeros are false. A tree of the logical part that
compiles reads as a formula, and one that does compiles where there is room for
its nesting. If it reads from slots only, the result of a pass is true as a
number exactly if the formula is true, from any content of the slots. The result
of a conjunction, disjunction or negation is exactly 1 or 0, whatever its
operands are. The laws of such formulas may be applied to any part of any tree:
what a pass does stays the same. -/
theorem logic_classical :
    ((∀ number : Float, number.isNaN = true → isTrue number = false) ∧
      isTrue 0 = false ∧ isTrue (-0) = false) ∧
    (∀ tree, Logical tree →
      ∀ compiler program, (Compiler.compile compiler tree).1 = .ok program →
        ∃ formula, tree.formula? = some formula) ∧
    (∀ tree formula, formula? tree = some formula →
      tree.CompilesIn (Tree.nesting tree) ∧
        ∀ store : Store, (∀ source, tree.Uses (.read source) → store.isSlot source = true) →
          ∀ compiler program, (Compiler.compile compiler tree).1 = .ok program →
            (isTrue (program.run store).value = true ↔ formula.Holds (Leaf.IsTrue store))) ∧
    (∀ tree kind, kind? tree = some kind → kind ∈ connectives →
      ∀ compiler program, (Compiler.compile compiler tree).1 = .ok program →
        ∀ store, (program.run store).value = 1 ∨ (program.run store).value = 0) ∧
    ∀ tree path part other, part? tree path = some part → Law part other →
      (∀ store, PassesAs store tree (tree.replace path other)) ∧
        ∀ compiler program, (Compiler.compile compiler tree).1 = .ok program →
          ∃ changed, (compiler.compile (tree.replace path other)).1 = .ok changed := by
  refine ⟨⟨?_, by decide, by decide⟩, ?_, ?_, ?_, ?_⟩
  · intro number hnan
    rw [Number.isTrue, hnan, Bool.not_true, Bool.and_false]
  · exact fun tree hlogical compiler program => hlogical.exists_formula?
  · intro tree formula hformula
    refine ⟨compilesIn_of_formula? hformula, ?_⟩
    intro store hslots compiler program hcompile
    have hsettles := settles_of_formula? hformula hslots
    exact (hsettles _ (evaluates_of_compile hcompile store)).truth
  · intro tree kind hkind hconnective compiler program hcompile store
    exact value_of_connective hkind hconnective (evaluates_of_compile hcompile store)
  · intro tree path part other hpart hlaw
    exact hlaw.replace hpart

/-- A choice whose condition denies that a number, nothing and NaN are true. -/
theorem logic_classical_choice :
    let seven : Expression := .external ⟨1⟩
    let nothing : Expression := .external ⟨0⟩
    let all : Expression := fold .and seven nothing [.literal Number.nan]
    let taken : Expression := fold .or (.literal (-0)) seven []
    let tree : Expression := choice (apply .not all) taken none
    let formula : Formula Leaf :=
      .choice
        (.not (.every [.atom (.reading ⟨1⟩), .atom (.reading ⟨0⟩), .atom (.number Number.nan)]))
        (.any [.atom (.number (-0)), .atom (.reading ⟨1⟩)]) .falsum
    let positive : Program := .fold .or (.constant (-0)) [.read ⟨1⟩]
    let program : Program :=
      .cond (.unary .not (.fold .and (.read ⟨1⟩) [.read ⟨0⟩, .constant Number.nan])) positive
        (.constant 0)
    let changed : Program :=
      .cond (.fold .or (.unary .not (.read ⟨1⟩))
        [.unary .not (.read ⟨0⟩), .unary .not (.constant Number.nan)]) positive (.constant 0)
    let store : Store := ⟨#[.slot none, .slot (some 7)]⟩
    formula? tree = some formula ∧ (Compiler.compile {} tree).1 = .ok program ∧
      formula.Holds (Leaf.IsTrue store) ∧ isTrue (program.run store).value = true ∧
      changed.run store = program.run store := by
  intro seven nothing all taken tree formula positive program changed store
  obtain ⟨-, -, hdecides, -, hlaws⟩ := logic_classical
  have hformula : formula? tree = some formula := rfl
  have hcompile : (Compiler.compile {} tree).1 = .ok program := rfl
  have hslots : ∀ source, tree.Uses (.read source) → store.isSlot source = true := by
    intro source huse
    have hread := (Compiler.mem_uses_iff hcompile).mpr huse
    simp only [program, positive, Program.uses, Program.usesAll, List.mem_append, List.mem_cons,
      List.not_mem_nil, Use.read.injEq, or_false, false_or, or_self] at hread
    obtain (rfl | rfl) | rfl := hread
    all_goals rfl
  have hseven : isTrue 7 = true := by decide
  have hholds : formula.Holds (Leaf.IsTrue store) := by
    simp [formula, store, Formula.Holds, Formula.AllHold, Formula.AnyHolds, Leaf.IsTrue, hseven]
  have htrue := ((hdecides tree formula hformula).2 store hslots {} program hcompile).mpr hholds
  have hpart : part? tree [0] = some (apply .not all) := rfl
  have hchanged : (Compiler.compile {} (tree.replace [0] (fold .or (apply .not seven)
      (apply .not nothing) [apply .not (.literal Number.nan)]))).1 = .ok changed := rfl
  have hpass := (hlaws tree [0] _ _ hpart (.deMorgan .and)).1 store
  exact ⟨hformula, hcompile, hholds, htrue, hpass _ _ _ _ hcompile hchanged⟩

end Expression

end Animation
