import Animation.Proofs.Expression.Positions

/-!
The branch that is not taken. Both branches of a choice are compiled, but a
pass evaluates one of them only, so the other one may be anything that
compiles. The same holds of a choice as a whole if no pass comes to it,
because it is itself in a branch that is not taken.
-/

namespace Animation.Expression

/-- A part of a tree that compiles has compiled by itself. -/
theorem exists_compile_part {tree part : Expression} {path : List Nat}
    (hpart : tree.part? path = some part) {compiler : Compiler} {program : Program}
    (hcompile : (compiler.compile tree).1 = .ok program) :
    ∃ inner program, (Compiler.compile inner part).1 = .ok program := by
  induction path generalizing tree compiler program with
  | nil =>
      cases Option.some.inj hpart
      exact ⟨compiler, program, hcompile⟩
  | cons i path ih =>
      obtain ⟨operand, hplace, hrest⟩ := part?_cons hpart
      obtain ⟨programs, hparts, -⟩ := parts_of_compile hcompile
      obtain ⟨_, _, -, hoperand⟩ := compiledIn_of_place hparts hplace
      exact ih hrest hoperand

/-- A choice that compiles has a condition and a first branch; without a second
branch, 0 stands for it. -/
theorem choice_of_compile {expr ifNode elseNode : Option Expression} {compiler : Compiler}
    {program : Program} (h : (compiler.compile (.cond expr ifNode elseNode)).1 = .ok program) :
    ∃ condition taken test positive negative, expr = some condition ∧ ifNode = some taken ∧
      program = .cond test positive negative ∧
      (compiler.deeper.compile condition).1 = .ok test ∧
      (compiler.deeper.compile taken).1 = .ok positive ∧
      (compiler.deeper.compile (elseNode.getD (.literal 0))).1 = .ok negative ∧
      compiler.depth < compiler.limits.maxDepth := by
  rw [Compiler.compile_node rfl] at h
  split at h
  · cases h
  · next hroom =>
      rw [UInt64.not_le] at hroom
      obtain ⟨programs, hwalk, rfl⟩ := Walk.map_eq_ok.mp h
      have hfilled := Walk.mapM_eq_ok.mp hwalk
      rcases hfilled with _ | ⟨hexpr, _ | ⟨hif, helse⟩⟩
      cases expr with
      | none => cases hexpr
      | some condition =>
          cases ifNode with
          | none => cases hif
          | some taken =>
              cases elseNode with
              | none =>
                  cases helse
                  exact ⟨_, _, _, _, _, rfl, rfl, rfl, hexpr, hif, rfl, hroom⟩
              | some elseNode =>
                  rcases helse with _ | ⟨hlast, _ | _⟩
                  exact ⟨_, _, _, _, _, rfl, rfl, rfl, hexpr, hif, hlast, hroom⟩

variable {condition : Expression} {store : Store} {test : Outcome Float}

theorem passesAs_true (htest : condition.Evaluates store test)
    (htrue : Number.isTrue test.value = true) (ifNode elseNode other : Option Expression) :
    PassesAs store (.cond (some condition) ifNode elseNode)
      (.cond (some condition) ifNode other) := by
  intro compiler again program changed hcompile hchanged
  obtain ⟨_, _, _, _, _, ⟨⟩, rfl, rfl, hfirst, hpositive, -⟩ := choice_of_compile hcompile
  obtain ⟨_, _, _, _, _, ⟨⟩, ⟨⟩, rfl, hagain, hbranch, -⟩ := choice_of_compile hchanged
  have hsame := (runs_of_compile hbranch).unique (runs_of_compile hpositive)
  simp only [Program.run_cond, (runs_of_compile hfirst _ _).mp htest,
    (runs_of_compile hagain _ _).mp htest, htrue, if_true, hsame]

theorem passesAs_false (htest : condition.Evaluates store test)
    (hfalse : Number.isTrue test.value = false) (ifNode elseNode other : Option Expression) :
    PassesAs store (.cond (some condition) ifNode elseNode)
      (.cond (some condition) other elseNode) := by
  intro compiler again program changed hcompile hchanged
  obtain ⟨_, _, _, _, _, ⟨⟩, rfl, rfl, hfirst, -, hnegative, -⟩ := choice_of_compile hcompile
  obtain ⟨_, _, _, _, _, ⟨⟩, rfl, rfl, hagain, -, hbranch, -⟩ := choice_of_compile hchanged
  have hsame := (runs_of_compile hbranch).unique (runs_of_compile hnegative)
  simp only [Program.run_cond, (runs_of_compile hfirst _ _).mp htest,
    (runs_of_compile hagain _ _).mp htest, hfalse, Bool.false_eq_true, if_false, hsame]

/-- Take any choice anywhere in a tree that compiles. If a pass comes to it and
its condition is true there, the second branch may be anything, present or
absent; if the condition is false, the first branch may be anything; and if the
pass does not come to it, the whole choice may be anything. As long as the tree
compiles again, the pass stays the same in all it does. -/
theorem untaken_branch_idle (tree : Expression) (path : List Nat)
    (expr ifNode elseNode : Option Expression)
    (hchoice : tree.part? path = some (.cond expr ifNode elseNode)) (compiler : Compiler)
    (program : Program) (hcompile : (compiler.compile tree).1 = .ok program) (store : Store) :
    ∃ condition, expr = some condition ∧
      (∀ found, tree.Arrives store path found →
        ∃ test, (∀ outcome, condition.Evaluates found outcome ↔ test = outcome) ∧
          (Number.isTrue test.value = true → ∀ other,
            PassesAs store tree (tree.replace path (.cond expr ifNode other))) ∧
          (Number.isTrue test.value = false → ∀ other,
            PassesAs store tree (tree.replace path (.cond expr other elseNode)))) ∧
      ((∀ found, ¬ tree.Arrives store path found) → ∀ other,
        PassesAs store tree (tree.replace path other)) := by
  obtain ⟨_, _, hpart⟩ := exists_compile_part hchoice hcompile
  obtain ⟨condition, _, testing, _, _, rfl, -, -, hcondition, -⟩ := choice_of_compile hpart
  have hruns := runs_of_compile hcondition
  refine ⟨condition, rfl, ?_, ?_⟩
  · intro found harrives
    have htest : condition.Evaluates found (testing.run found) := (hruns _ _).mpr rfl
    refine ⟨testing.run found, hruns found, ?_, ?_⟩
    · intro htrue other
      apply passesAs_replace hchoice
      intro again hagain
      rw [← harrives.unique hcompile hagain]
      exact passesAs_true htest htrue _ _ _
    · intro hfalse other
      apply passesAs_replace hchoice
      intro again hagain
      rw [← harrives.unique hcompile hagain]
      exact passesAs_false htest hfalse _ _ _
  · intro hnever other
    apply passesAs_replace hchoice
    intro found harrives
    exact absurd harrives (hnever found)

/-- The condition of a choice deep in a fold reads what the pass has stored
before, so the first branch is taken, and the second may call back or read. -/
theorem untaken_branch_idle_stored_condition :
    let host := Callback.record "told"
    let store : Store := ⟨#[.slot (some 0), .derived .counter 0]⟩
    let tree (elseNode : Option Expression) : Expression :=
      .block [.store (.literal 5) ⟨0⟩,
        .fold .and (.literal 0) (.choice (.external ⟨0⟩) (.literal 2) elseNode) []]
    let program (negative : Program) : Program :=
      .block [.set (.constant 5) (some ⟨0⟩),
        .fold .and (.constant 0) [.cond (.read ⟨0⟩) (.constant 2) negative]]
    (tree none).part? [1, 1] = some (.choice (.external ⟨0⟩) (.literal 2) none) ∧
      (Compiler.compile {} (tree none)).1 = .ok (program (.constant 0)) ∧
      (tree none).Arrives store [1, 1] (store.put ⟨0⟩ (some 5)) ∧
      Number.isTrue 5 = true ∧
      (program (.call [.read ⟨1⟩] (some host))).run store = (program (.constant 0)).run store := by
  intro host store tree program
  have hchoice : (tree none).part? [1, 1] = some (.choice (.external ⟨0⟩) (.literal 2) none) := rfl
  have hcompile : (Compiler.compile {} (tree none)).1 = .ok (program (.constant 0)) := rfl
  have hchanged : (Compiler.compile {} (tree (some (.call [.external ⟨1⟩] (some host))))).1 =
      .ok (program (.call [.read ⟨1⟩] (some host))) := rfl
  have htrue : Number.isTrue 5 = true := by decide
  have hfirst : EvaluatesAll [.store (.literal 5) ⟨0⟩] store _ := .cons (.set .literal) .nil
  have hinner : EvaluatesAll [.literal 0] (store.put ⟨0⟩ (some 5)) _ := .cons .literal .nil
  have harrives : (tree none).Arrives store [1, 1] (store.put ⟨0⟩ (some 5)) := by
    refine .inside (.inOrder (by decide) rfl hfirst) ?_
    exact .inside (.inOrder (by decide) rfl hinner) .here
  obtain ⟨condition, hcondition, hreached, -⟩ :=
    untaken_branch_idle (tree none) [1, 1] _ _ _ hchoice {} _ hcompile store
  cases hcondition
  obtain ⟨test, htest, hpositive, -⟩ := hreached _ harrives
  have hfive : test.value = 5 := by
    rw [(htest _).mp (.external rfl)]
    rfl
  rw [hfive] at hpositive
  exact ⟨hchoice, hcompile, harrives, htrue, hpositive htrue _ _ _ _ _ hcompile hchanged⟩

end Animation.Expression
