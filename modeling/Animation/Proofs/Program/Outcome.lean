import Animation.Proofs.Pass

/-!
What one pass of a program comes to, for each form of program: its value, the
store it leaves and its events, from the passes of the programs in it.
-/

namespace Animation.Program

theorem run_constant (value : Float) (store : Store) :
    (constant value).run store = ⟨value, store, []⟩ := rfl

theorem runAll_cons (program : Program) (rest : List Program) (store : Store) :
    runAll (program :: rest) store =
      let first := program.run store
      let others := runAll rest first.store
      ⟨first.value :: others.value, others.store, first.events ++ others.events⟩ := rfl

theorem length_runAll (programs : List Program) (store : Store) :
    (runAll programs store).value.length = programs.length := by
  induction programs generalizing store with
  | nil => rfl
  | cons program rest ih => simp only [runAll_cons, List.length_cons, ih]

/-- The pass of each of several programs is a stretch of theirs, and its value
is among their values at the same place. -/
theorem runAll_split {programs : List Program} {i : Nat} {program : Program}
    (h : programs[i]? = some program) (store : Store) :
    let first := runAll (programs.take i) store
    let inner := program.run first.store
    (runAll programs store).value[i]? = some inner.value ∧
      ∃ late, (runAll programs store).events = first.events ++ (inner.events ++ late) := by
  induction programs generalizing i store with
  | nil => cases h
  | cons head programs ih =>
      cases i with
      | zero =>
          cases h
          exact ⟨rfl, (runAll programs (program.run store).store).events, rfl⟩
      | succ i =>
          obtain ⟨hvalue, late, hevents⟩ := ih h (head.run store).store
          refine ⟨hvalue, late, ?_⟩
          simp only [runAll_cons, List.take_succ_cons, hevents, List.append_assoc]

theorem run_fold (op : FoldOp) (first : Program) (rest : List Program) (store : Store) :
    (fold op first rest).run store =
      let start := first.run store
      let values := runAll rest start.store
      ⟨values.value.foldl op.apply start.value, values.store, start.events ++ values.events⟩ := by
  change Outcome.mk _ _ (_ ++ (_ ++ [])) = _
  rw [List.append_nil]

theorem run_unary (op : UnaryOp) (v : Program) (store : Store) :
    (unary op v).run store =
      let operand := v.run store
      ⟨op.apply operand.value, operand.store, operand.events⟩ := by
  change Outcome.mk _ _ (_ ++ []) = _
  rw [List.append_nil]

theorem run_compare (op : Comparison) (left right : Program) (store : Store) :
    (compare op left right).run store =
      let first := left.run store
      let second := right.run first.store
      ⟨op.apply first.value second.value, second.store, first.events ++ second.events⟩ := by
  change Outcome.mk _ _ (_ ++ (_ ++ [])) = _
  rw [List.append_nil]

/-- The branch that is not taken has no part in the pass. -/
theorem run_cond (expr ifNode elseNode : Program) (store : Store) :
    (cond expr ifNode elseNode).run store =
      let test := expr.run store
      let branch := (if Number.isTrue test.value then ifNode else elseNode).run test.store
      ⟨branch.value, branch.store, test.events ++ branch.events⟩ := by
  simp only [apply_ite Program.run]
  rfl

theorem run_set (source : Program) (target : Ref) (store : Store) :
    (set source (some target)).run store =
      let operand := source.run store
      ⟨operand.value, operand.store.put target (some operand.value),
        operand.events ++ [.write target operand.value]⟩ := by
  change Outcome.mk _ _ (_ ++ ([_] ++ [])) = _
  rw [List.append_nil]

theorem run_set_none (source : Program) (store : Store) :
    (set source none).run store = source.run store := by
  change Outcome.mk _ _ (_ ++ ([] ++ [])) = _
  rw [List.append_nil, List.append_nil]

theorem run_block (nodes : List Program) (store : Store) :
    (block nodes).run store =
      let values := runAll nodes store
      ⟨values.value.getLastD 0, values.store, values.events⟩ := by
  change Outcome.mk _ _ (_ ++ []) = _
  rw [List.append_nil]

theorem run_call (args : List Program) (callback : Callback) (store : Store) :
    (call args (some callback)).run store =
      let values := runAll args store
      let writes := callback.writes values.value values.store
      ⟨0, values.store.putEach writes,
        values.events ++ .call callback values.value :: Event.ofWrites writes⟩ := by
  change Outcome.mk _ (Pass.invoke callback _ _).store
    (_ ++ ((Pass.invoke callback _ _).events ++ [])) = _
  rw [List.append_nil, Pass.invoke_apply]

theorem run_call_none (args : List Program) (store : Store) :
    (call args none).run store =
      let values := runAll args store
      ⟨0, values.store, values.events⟩ := by
  change Outcome.mk _ _ (_ ++ ([] ++ [])) = _
  rw [List.append_nil, List.append_nil]

end Animation.Program
