import Animation.Proofs.Expression.Branches
import Animation.Proofs.Expression.Folding

/-!
Laws of conditions. Any number can be a condition, and what comes of it is 1 or
0; so negating twice loses the number and keeps the condition. Conjunctions and
disjunctions evaluate all of their operands, from left to right, which is why
they can be exchanged by De Morgan's laws also where operands read and write.

A law that holds of a part of a tree holds of the tree: the part can be replaced
wherever it is, and a pass stays the same in all it does.
-/

namespace Animation

open Number (isTrue ofBool isTrue_ofBool)

/-- Conjunction and disjunction are dual to each other. -/
inductive FoldOp.Dual : FoldOp → FoldOp → Prop
  | and : Dual .and .or
  | or : Dual .or .and

/-- A conjunction of two operands and more is 1 or 0, whatever they are. -/
theorem FoldOp.foldl_and (x y : Float) (values : List Float) :
    (y :: values).foldl FoldOp.and.apply x = ofBool ((x :: y :: values).all isTrue) := by
  induction values generalizing x y with
  | nil => simp [FoldOp.apply]
  | cons z values ih =>
      rw [List.foldl_cons, ih]
      simp [FoldOp.apply, isTrue_ofBool, Bool.and_assoc]

theorem FoldOp.foldl_or (x y : Float) (values : List Float) :
    (y :: values).foldl FoldOp.or.apply x = ofBool ((x :: y :: values).any isTrue) := by
  induction values generalizing x y with
  | nil => simp [FoldOp.apply]
  | cons z values ih =>
      rw [List.foldl_cons, ih]
      simp [FoldOp.apply, isTrue_ofBool, Bool.or_assoc]

theorem UnaryOp.apply_not (x : Float) : UnaryOp.not.apply x = ofBool (!isTrue x) := by
  simp [UnaryOp.apply, UnaryOp.applyNumber]

/-- De Morgan's laws for values, of which there are two or more. -/
theorem FoldOp.Dual.apply_not_foldl {op dual : FoldOp} (h : op.Dual dual) (x y : Float)
    (values : List Float) :
    UnaryOp.not.apply ((y :: values).foldl op.apply x) =
      ((y :: values).map UnaryOp.not.apply).foldl dual.apply (UnaryOp.not.apply x) := by
  have hnot : (fun value => isTrue (UnaryOp.not.apply value)) = fun value => !isTrue value := by
    funext value
    rw [UnaryOp.apply_not, isTrue_ofBool]
  rw [List.map_cons]
  cases h with
  | and =>
      rw [foldl_and, foldl_or, UnaryOp.apply_not, isTrue_ofBool, ← List.map_cons, ← List.map_cons,
        List.any_map, Function.comp_def, hnot, List.not_all_eq_any_not]
  | or =>
      rw [foldl_and, foldl_or, UnaryOp.apply_not, isTrue_ofBool, ← List.map_cons, ← List.map_cons,
        List.all_map, Function.comp_def, hnot, List.not_any_eq_all_not]

namespace Expression

/-- The second tree may stand for the first. -/
inductive Law : Expression → Expression → Prop
  /-- A condition that is negated twice. -/
  | doubleNegation {condition : Expression} {ifNode elseNode : Option Expression} :
      Law (.cond (some (.apply .not (.apply .not condition))) ifNode elseNode)
        (.cond (some condition) ifNode elseNode)
  /-- A conjunction or disjunction that is negated. -/
  | deMorgan {op dual : FoldOp} {a b : Expression} {others : List Expression} :
      op.Dual dual →
      Law (.apply .not (.fold op a b others))
        (.fold dual (.apply .not a) (.apply .not b) (others.map (.apply .not)))
  /-- A negated condition. Where there is no second branch, 0 takes its place. -/
  | swap {condition taken : Expression} {elseNode : Option Expression} :
      Law (.choice (.apply .not condition) taken elseNode)
        (.choice condition (elseNode.getD (.literal 0)) (some taken))

/-! ### Evaluations of negations and choices -/

variable {store : Store}

theorem evaluates_not_iff {v : Expression} {outcome : Outcome Float} :
    (apply .not v).Evaluates store outcome ↔
      ∃ operand, v.Evaluates store operand ∧
        outcome = ⟨UnaryOp.not.apply operand.value, operand.store, operand.events⟩ := by
  constructor
  · intro h
    cases h with
    | unary hv => exact ⟨_, hv, rfl⟩
  · rintro ⟨operand, hv, rfl⟩
    exact .unary hv

theorem evaluatesAll_not_iff {operands : List Expression} {outcome : Outcome (List Float)} :
    EvaluatesAll (operands.map (apply .not)) store outcome ↔
      ∃ values, EvaluatesAll operands store values ∧
        outcome = ⟨values.value.map UnaryOp.not.apply, values.store, values.events⟩ := by
  induction operands generalizing store outcome with
  | nil =>
      constructor
      · intro h
        cases h
        exact ⟨_, .nil, rfl⟩
      · rintro ⟨values, hvalues, rfl⟩
        cases hvalues
        exact .nil
  | cons operand operands ih =>
      constructor
      · intro h
        cases h with
        | cons hoperand hrest =>
            obtain ⟨first, hfirst, rfl⟩ := evaluates_not_iff.mp hoperand
            obtain ⟨values, hvalues, rfl⟩ := ih.mp hrest
            exact ⟨_, .cons hfirst hvalues, rfl⟩
      · rintro ⟨values, hvalues, rfl⟩
        cases hvalues with
        | cons hoperand hrest =>
            exact .cons (evaluates_not_iff.mpr ⟨_, hoperand, rfl⟩) (ih.mpr ⟨_, hrest, rfl⟩)

/-- A choice evaluates its condition and then one branch, which has to be there.
Without a second branch there is 0 in its place. -/
theorem evaluates_choice_iff {condition : Expression} {ifNode elseNode : Option Expression}
    {outcome : Outcome Float} :
    (cond (some condition) ifNode elseNode).Evaluates store outcome ↔
      ∃ test taken branch, condition.Evaluates store test ∧
        (if isTrue test.value then ifNode else some (elseNode.getD (.literal 0))) = some taken ∧
        taken.Evaluates test.store branch ∧
        outcome = ⟨branch.value, branch.store, test.events ++ branch.events⟩ := by
  constructor
  · intro h
    cases h with
    | condTrue htest htrue hbranch => exact ⟨_, _, _, htest, if_pos htrue, hbranch, rfl⟩
    | condFalse htest hfalse hbranch =>
        exact ⟨_, _, _, htest, if_neg (by simp [hfalse]), hbranch, rfl⟩
    | condNoElse htest hfalse =>
        exact ⟨_, _, _, htest, if_neg (by simp [hfalse]), .literal, by simp⟩
  · rintro ⟨test, taken, branch, htest, htaken, hbranch, rfl⟩
    cases htrue : isTrue test.value with
    | true =>
        rw [htrue, if_pos rfl] at htaken
        subst htaken
        exact .condTrue htest htrue hbranch
    | false =>
        rw [htrue, if_neg Bool.false_ne_true] at htaken
        cases Option.some.inj htaken
        cases elseNode with
        | some elseNode => exact .condFalse htest htrue hbranch
        | none =>
            cases hbranch
            have hnone : (cond (some condition) ifNode none).Evaluates store _ :=
              .condNoElse htest htrue
            simpa using hnone

/-! ### Both sides of a law -/

/-- What a law exchanges evaluates alike, from every store. -/
theorem Law.evaluates {part other : Expression} (h : Law part other) {outcome : Outcome Float}
    (hpart : part.Evaluates store outcome) : other.Evaluates store outcome := by
  cases h with
  | doubleNegation =>
      obtain ⟨_, taken, branch, htest, htaken, hbranch, rfl⟩ := evaluates_choice_iff.mp hpart
      obtain ⟨_, hinner, rfl⟩ := evaluates_not_iff.mp htest
      obtain ⟨test, hcondition, rfl⟩ := evaluates_not_iff.mp hinner
      simp only [UnaryOp.apply_not, isTrue_ofBool, Bool.not_not] at htaken
      exact evaluates_choice_iff.mpr ⟨test, taken, branch, hcondition, htaken, hbranch, rfl⟩
  | deMorgan hdual =>
      obtain ⟨_, hfold, rfl⟩ := evaluates_not_iff.mp hpart
      obtain ⟨first, rest, ha, hrest, rfl⟩ := evaluates_fold_iff.mp hfold
      rw [evaluates_fold_iff, ← List.map_cons]
      refine ⟨_, _, evaluates_not_iff.mpr ⟨first, ha, rfl⟩,
        evaluatesAll_not_iff.mpr ⟨rest, hrest, rfl⟩, ?_⟩
      cases hrest with
      | cons hb hothers => rw [hdual.apply_not_foldl]
  | swap =>
      obtain ⟨_, taken, branch, htest, htaken, hbranch, rfl⟩ := evaluates_choice_iff.mp hpart
      obtain ⟨test, hcondition, rfl⟩ := evaluates_not_iff.mp htest
      refine evaluates_choice_iff.mpr ⟨test, taken, branch, hcondition, ?_, hbranch, rfl⟩
      rw [← htaken, UnaryOp.apply_not, isTrue_ofBool]
      cases isTrue test.value <;> rfl

variable {n : Nat}

theorem compilesIn_choice {condition taken : Expression} {elseNode : Option Expression}
    (hcondition : condition.CompilesIn n) (htaken : taken.CompilesIn n)
    (helse : (elseNode.getD (.literal 0)).CompilesIn n) :
    (choice condition taken elseNode).CompilesIn (n + 1) := by
  cases elseNode with
  | none =>
      have hplaces : (choice condition taken none).places = [condition, taken].map .filled := rfl
      exact compilesIn_node hplaces (by simpa using ⟨hcondition, htaken⟩)
  | some elseNode =>
      have hplaces : (choice condition taken (some elseNode)).places =
          [condition, taken, elseNode].map .filled := rfl
      exact compilesIn_node hplaces (by simpa using ⟨hcondition, htaken, helse⟩)

theorem compilesIn_not {v : Expression} (h : v.CompilesIn n) :
    (apply .not v).CompilesIn (n + 1) := by
  have hplaces : (apply .not v).places = [v].map .filled := rfl
  exact compilesIn_node hplaces (by simpa using h)

theorem exists_compile_not {v : Expression} {compiler : Compiler} {program : Program}
    (h : (compiler.compile (apply .not v)).1 = .ok program) :
    compiler.deeper.room + 1 = compiler.room ∧
      ∃ inside, (compiler.deeper.compile v).1 = .ok inside := by
  have hv : v ∈ Tree.operands (apply .not v) := by simp [operands_apply]
  obtain ⟨hroom, hinside⟩ := exists_compile_operand h hv
  exact ⟨Compiler.room_deeper hroom, hinside⟩

/-- What may stand for a tree compiles wherever the tree does. -/
theorem Law.exists_compile {part other : Expression} (h : Law part other) {compiler : Compiler}
    {program : Program} (hcompile : (compiler.compile part).1 = .ok program) :
    ∃ changed, (compiler.compile other).1 = .ok changed := by
  suffices hfits : other.CompilesIn compiler.room from hfits compiler (Nat.le_refl _)
  cases h with
  | doubleNegation =>
      obtain ⟨_, _, _, _, _, ⟨⟩, rfl, -, houter, htaken, helse, hroom⟩ :=
        choice_of_compile hcompile
      obtain ⟨hsecond, _, hinner⟩ := exists_compile_not houter
      obtain ⟨hthird, _, hcondition⟩ := exists_compile_not hinner
      rw [← Compiler.room_deeper (Compiler.room_pos_iff.mpr hroom)]
      exact compilesIn_choice ((compilesIn_of_compile hcondition).mono (by omega))
        (compilesIn_of_compile htaken) (compilesIn_of_compile helse)
  | deMorgan hdual =>
      obtain ⟨hroom, _, hfold⟩ := exists_compile_not hcompile
      obtain ⟨n, hinside, hall⟩ := compilesIn_operands_of_fold hfold
      rw [← hroom, hinside]
      apply compilesIn_fold
      · exact compilesIn_not (hall _ List.mem_cons_self)
      · rw [← List.map_cons, List.forall_mem_map]
        intro operand hoperand
        exact compilesIn_not (hall operand (List.mem_cons_of_mem _ hoperand))
  | swap =>
      obtain ⟨_, _, _, _, _, ⟨⟩, ⟨⟩, -, hnegated, htaken, helse, hroom⟩ :=
        choice_of_compile hcompile
      obtain ⟨hsecond, _, hcondition⟩ := exists_compile_not hnegated
      rw [← Compiler.room_deeper (Compiler.room_pos_iff.mpr hroom)]
      exact compilesIn_choice ((compilesIn_of_compile hcondition).mono (by omega))
        (compilesIn_of_compile helse) (compilesIn_of_compile htaken)

/-- A law may be applied to any part of a tree. The tree compiles as before, and
its passes stay the same. -/
theorem Law.replace {part other : Expression} (h : Law part other) {tree : Expression}
    {path : List Nat} (hpart : tree.part? path = some part) :
    (∀ store, PassesAs store tree (tree.replace path other)) ∧
      ∀ compiler program, (Compiler.compile compiler tree).1 = .ok program →
        ∃ changed, (compiler.compile (tree.replace path other)).1 = .ok changed := by
  constructor
  · intro store
    apply passesAs_replace hpart
    intro found _
    exact passesAs_of_evaluates fun outcome => h.evaluates
  · intro compiler program hcompile
    exact exists_compile_replace hpart (fun _ _ => h.exists_compile) hcompile

end Expression

end Animation
