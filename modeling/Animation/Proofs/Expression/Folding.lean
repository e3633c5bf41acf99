import Animation.Proofs.Compiler.Room

/-!
Folds of many operands and folds of two. An operator is applied from the left,
as soon as the next operand is there, and a pass notices nothing of where one
fold ends and the next begins. So a fold can be cut anywhere, its first part
becoming the first operand of the rest. No operator needs to be associative
for that; only nesting goes up.
-/

namespace Animation.Expression

/-- Two operands at a time: the operator is applied to `a` and the first of the
operands, then to this fold and the next one, and so on. -/
def nest (op : FoldOp) (a : Expression) (operands : List Expression) : Expression :=
  operands.foldl (fun folded operand => fold op folded operand []) a

/-! ### Operands one after the other -/

theorem evaluatesAll_append {early late : List Expression} {store : Store}
    {outcome : Outcome (List Float)} :
    EvaluatesAll (early ++ late) store outcome ↔
      ∃ first rest, EvaluatesAll early store first ∧ EvaluatesAll late first.store rest ∧
        outcome = ⟨first.value ++ rest.value, rest.store, first.events ++ rest.events⟩ := by
  induction early generalizing store outcome with
  | nil =>
      constructor
      · intro h
        exact ⟨_, outcome, .nil, h, rfl⟩
      · rintro ⟨first, rest, hfirst, hrest, rfl⟩
        cases hfirst
        exact hrest
  | cons operand early ih =>
      constructor
      · intro h
        cases h with
        | cons hoperand hothers =>
            obtain ⟨first, rest, hfirst, hrest, rfl⟩ := ih.mp hothers
            exact ⟨_, rest, .cons hoperand hfirst, hrest, by simp⟩
      · rintro ⟨first, rest, hfirst, hrest, rfl⟩
        cases hfirst with
        | cons hoperand hothers =>
            have hall := EvaluatesAll.cons hoperand (ih.mpr ⟨_, rest, hothers, hrest, rfl⟩)
            simpa using hall

/-- Combining values as they come is evaluating everything and combining then. -/
theorem accumulates_iff_evaluatesAll {combine : Float → Float → Float} {soFar : Float}
    {operands : List Expression} {store : Store} {outcome : Outcome Float} :
    Accumulates combine soFar operands store outcome ↔
      ∃ values, EvaluatesAll operands store values ∧
        outcome = ⟨values.value.foldl combine soFar, values.store, values.events⟩ := by
  induction operands generalizing soFar store outcome with
  | nil =>
      constructor
      · intro h
        cases h
        exact ⟨_, .nil, rfl⟩
      · rintro ⟨values, hvalues, rfl⟩
        cases hvalues
        exact .nil
  | cons operand operands ih =>
      constructor
      · intro h
        cases h with
        | cons hoperand hrest =>
            obtain ⟨values, hvalues, rfl⟩ := ih.mp hrest
            exact ⟨_, .cons hoperand hvalues, rfl⟩
      · rintro ⟨values, hvalues, rfl⟩
        cases hvalues with
        | cons hoperand hrest => exact .cons hoperand (ih.mpr ⟨_, hrest, rfl⟩)

variable {op : FoldOp} {a b : Expression} {others : List Expression} {store : Store}
  {outcome : Outcome Float}

/-- A fold evaluates its operands in order, and its value is theirs folded from
the left. -/
theorem evaluates_fold_iff :
    (fold op a b others).Evaluates store outcome ↔
      ∃ first rest, a.Evaluates store first ∧ EvaluatesAll (b :: others) first.store rest ∧
        outcome = ⟨rest.value.foldl op.apply first.value, rest.store,
          first.events ++ rest.events⟩ := by
  constructor
  · intro h
    cases h with
    | binary ha hb hothers =>
        obtain ⟨values, hvalues, rfl⟩ := accumulates_iff_evaluatesAll.mp hothers
        exact ⟨_, _, ha, .cons hb hvalues, rfl⟩
  · rintro ⟨first, rest, ha, hrest, rfl⟩
    cases hrest with
    | cons hb hothers =>
        exact .binary ha hb (accumulates_iff_evaluatesAll.mpr ⟨_, hothers, rfl⟩)

/-! ### Cutting a fold -/

/-- The first part of a fold may be its first operand. -/
theorem evaluates_cut {early : List Expression} {c : Expression} {late : List Expression} :
    (fold op (fold op a b early) c late).Evaluates store outcome ↔
      (fold op a b (early ++ c :: late)).Evaluates store outcome := by
  simp only [evaluates_fold_iff, ← List.cons_append, evaluatesAll_append]
  constructor
  · rintro ⟨_, rest, ⟨first, middle, ha, hmiddle, rfl⟩, hrest, rfl⟩
    exact ⟨first, _, ha, ⟨middle, rest, hmiddle, hrest, rfl⟩, by simp⟩
  · rintro ⟨first, _, ha, ⟨middle, rest, hmiddle, hrest, rfl⟩, rfl⟩
    exact ⟨_, rest, ⟨first, middle, ha, hmiddle, rfl⟩, hrest, by simp⟩

/-- Cut everywhere, a fold is nested to the left. -/
theorem evaluates_nest :
    (nest op (fold op a b []) others).Evaluates store outcome ↔
      (fold op a b others).Evaluates store outcome := by
  induction others generalizing a b with
  | nil => rfl
  | cons c others ih =>
      change (nest op (fold op (fold op a b []) c []) others).Evaluates store outcome ↔ _
      rw [ih, evaluates_cut, List.nil_append]

/-- Trees that evaluate alike make the same passes. -/
theorem passesAs_of_evaluates {tree other : Expression} {store : Store}
    (h : ∀ outcome, tree.Evaluates store outcome → other.Evaluates store outcome) :
    PassesAs store tree other := by
  intro compiler again program changed hcompile hchanged
  apply (runs_of_compile hchanged store _).mp
  exact h _ (evaluates_of_compile hcompile store)

/-! ### Room for the nested folds -/

variable {n : Nat}

theorem compilesIn_fold (ha : a.CompilesIn n)
    (hrest : ∀ operand ∈ b :: others, operand.CompilesIn n) :
    (fold op a b others).CompilesIn (n + 1) := by
  have hplaces : (fold op a b others).places = (a :: b :: others).map .filled := rfl
  exact compilesIn_node hplaces (List.forall_mem_cons.mpr ⟨ha, hrest⟩)

/-- Each fold that is added needs one level more. -/
theorem compilesIn_nest (ha : a.CompilesIn n) (hothers : ∀ operand ∈ others, operand.CompilesIn n) :
    (nest op a others).CompilesIn (n + others.length) := by
  induction others generalizing a n with
  | nil => exact ha
  | cons c others ih =>
      obtain ⟨hc, hothers⟩ := List.forall_mem_cons.mp hothers
      have hfold : (fold op a c []).CompilesIn (n + 1) := compilesIn_fold ha (by simpa using hc)
      have hnest := ih hfold fun operand hoperand => (hothers operand hoperand).mono (Nat.le_succ n)
      rw [List.length_cons, Nat.add_comm others.length, ← Nat.add_assoc]
      exact hnest

/-- A fold that compiles has operands that get by with a level less. -/
theorem compilesIn_operands_of_fold {compiler : Compiler} {program : Program}
    (h : (compiler.compile (fold op a b others)).1 = .ok program) :
    ∃ n, compiler.room = n + 1 ∧ ∀ operand ∈ a :: b :: others, operand.CompilesIn n := by
  have hall : ∀ operand ∈ Tree.operands (fold op a b others),
      0 < compiler.room ∧ operand.CompilesIn (compiler.room - 1) :=
    fun operand hoperand => compilesIn_operand h hoperand
  rw [operands_fold] at hall
  have hpos := (hall a List.mem_cons_self).1
  exact ⟨compiler.room - 1, by omega, fun operand hoperand => (hall operand hoperand).2⟩

/-- Take a fold of any operator and any number of operands. Nested to the left,
two operands at a time, it makes the same passes: the same results, stores and
events, from every store. So it does when it is cut anywhere and its first part
becomes the first operand of the rest. If the fold compiles, these trees do
where there is room for the folds that have been added. -/
theorem fold_nests (op : FoldOp) (a b : Expression) (others : List Expression) :
    (∀ store, PassesAs store (fold op a b others) (nest op (fold op a b []) others)) ∧
      (∀ early c late, others = early ++ c :: late → ∀ store,
        PassesAs store (fold op a b others) (fold op (fold op a b early) c late)) ∧
      ∀ compiler program, (Compiler.compile compiler (fold op a b others)).1 = .ok program →
        (nest op (fold op a b []) others).CompilesIn (compiler.room + others.length) ∧
          ∀ early c late, others = early ++ c :: late →
            (fold op (fold op a b early) c late).CompilesIn (compiler.room + 1) := by
  refine ⟨?_, ?_, ?_⟩
  · intro store
    exact passesAs_of_evaluates fun outcome => evaluates_nest.mpr
  · rintro early c late rfl store
    exact passesAs_of_evaluates fun outcome => evaluates_cut.mpr
  · intro compiler program hcompile
    obtain ⟨n, hroom, hall⟩ := compilesIn_operands_of_fold hcompile
    rw [hroom]
    have hmore : ∀ operand ∈ a :: b :: others, operand.CompilesIn (n + 1) :=
      fun operand hoperand => (hall operand hoperand).mono (Nat.le_succ n)
    simp only [List.forall_mem_cons] at hall hmore
    obtain ⟨ha, hb, hothers⟩ := hall
    refine ⟨compilesIn_nest ?_ hmore.2.2, ?_⟩
    · exact compilesIn_fold ha (by simpa using hb)
    · rintro early c late rfl
      rw [List.forall_mem_append] at hothers hmore
      apply compilesIn_fold _ hmore.2.2.2
      exact compilesIn_fold ha (List.forall_mem_cons.mpr ⟨hb, hothers.1⟩)

/-- Differences of a counter's readings and of a cell that the second operand
writes to, with just as much room as they need. -/
theorem fold_nests_counter :
    let counter : Expression := .external ⟨0⟩
    let writing : Expression := .store counter ⟨1⟩
    let others : List Expression := [.external ⟨1⟩, counter]
    let flat : Program :=
      .fold .sub (.read ⟨0⟩) [.set (.read ⟨0⟩) (some ⟨1⟩), .read ⟨1⟩, .read ⟨0⟩]
    let nested : Program :=
      .fold .sub (.fold .sub (.fold .sub (.read ⟨0⟩) [.set (.read ⟨0⟩) (some ⟨1⟩)]) [.read ⟨1⟩])
        [.read ⟨0⟩]
    let store : Store := ⟨#[.derived .counter 0, .slot none]⟩
    let tight : Compiler := { limits := { maxDepth := 2 } }
    let raised : Compiler := { limits := { maxDepth := 4 } }
    (tight.compile (fold .sub counter writing others)).1 = .ok flat ∧
      tight.room + others.length ≤ raised.room ∧
      (raised.compile (nest .sub (fold .sub counter writing []) others)).1 = .ok nested ∧
      nested.run store = flat.run store := by
  intro counter writing others flat nested store tight raised
  have hcompile : (tight.compile (fold .sub counter writing others)).1 = .ok flat := rfl
  have hroom : tight.room + others.length ≤ raised.room := by decide
  obtain ⟨hnest, -, -⟩ := fold_nests .sub counter writing others
  have hnested : (raised.compile (nest .sub (fold .sub counter writing []) others)).1 =
      .ok nested := rfl
  exact ⟨hcompile, hroom, hnested, hnest store _ _ _ _ hcompile hnested⟩

end Animation.Expression
