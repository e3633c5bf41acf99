import Animation.Proofs.Expression.Evaluation

/-!
Passes of nodes, seen from their operands. Every node but a choice has all of
its operands evaluated, from left to right, and then does something of its own
with their values. So whoever knows what the operands do knows what the node
does, and the families need not be told apart any more.
-/

namespace Animation

namespace Expression

/-- What a part of a tree does by itself, when its operands have these values.
Other numbers of values than the part has operands do not occur, and a choice
is left out. -/
def finish : Expression → List Float → Pass Float
  | .literal content, _ | .number content, _ => pure content
  | .external source, _ | .value (some source), _ => Pass.read source
  | .value none, _ => pure Number.nan
  | .binary op .., first :: rest => pure (rest.foldl op.apply first)
  | .unary op _, [v] => pure (op.apply v)
  | .compare op .., [left, right] => pure (op.apply left right)
  | .set _ (some target), [v] => do
    Pass.write target v
    pure v
  | .set _ none, [v] => pure v
  | .block _, values => pure (values.getLastD 0)
  | .call _ (some callback), args => do
    Pass.invoke callback args
    pure 0
  | .call _ none, _ => pure 0
  | _, _ => pure 0

/-- All operands first, and then what the node does by itself. -/
theorem run_assemble {filled : Place Expression → Program → Prop} {node : Expression}
    {programs : List Program} (h : List.Forall₂ filled node.places programs)
    (hkind : node.kind? ≠ some .cond) :
    (Compiler.assemble node programs).run = Program.runAll programs >>= node.finish := by
  cases node with
  | literal _ | external _ | number _ =>
      cases h
      simp [Compiler.assemble, Program.run, Program.runAll, finish]
  | value source =>
      cases h
      cases source <;> simp [Compiler.assemble, Program.run, Program.runAll, finish]
  | binary op a b others =>
      rcases h with _ | ⟨-, hrest⟩
      simp [Compiler.assemble, Program.run, Program.runAll, finish]
  | unary op v =>
      rcases h with _ | ⟨-, _ | _⟩
      simp [Compiler.assemble, Program.run, Program.runAll, finish]
  | compare op left right =>
      rcases h with _ | ⟨-, _ | ⟨-, _ | _⟩⟩
      simp [Compiler.assemble, Program.run, Program.runAll, finish]
  | cond expr ifNode elseNode => exact absurd rfl hkind
  | set source target =>
      rcases h with _ | ⟨-, _ | _⟩
      cases target <;> simp [Compiler.assemble, Program.run, Program.runAll, finish]
  | block nodes =>
      simp only [Compiler.assemble, Program.run]
      rfl
  | call args callback =>
      simp only [Compiler.assemble, Program.run]
      cases callback <;> rfl

/-- Places that have been filled hold operands. -/
theorem exists_operands {related : Expression → Program → Prop} {places : List (Place Expression)}
    {programs : List Program}
    (h : List.Forall₂ (fun place program => ∃ operand, .filled operand = place ∧
      related operand program) places programs) :
    ∃ operands, places = operands.map .filled ∧ List.Forall₂ related operands programs := by
  induction h with
  | nil => exact ⟨[], rfl, .nil⟩
  | cons hfirst _ ih =>
      obtain ⟨operand, rfl, hrelated⟩ := hfirst
      obtain ⟨operands, rfl, hrest⟩ := ih
      exact ⟨operand :: operands, rfl, .cons hrelated hrest⟩

theorem mem_operands_of_place {tree operand : Expression} {i : Nat}
    (h : tree.places[i]? = some (.filled operand)) : operand ∈ Tree.operands tree := by
  apply Tree.mem_operands.mpr
  exact List.mem_of_getElem? h

theorem operands_eq {tree : Expression} {operands : List Expression}
    (h : tree.places = operands.map .filled) : Tree.operands tree = operands := by
  change tree.places.filterMap Place.operand? = operands
  rw [h, List.filterMap_map]
  exact Place.filterMap_operand?_filled operands

theorem operands_fold (op : FoldOp) (a b : Expression) (others : List Expression) :
    Tree.operands (fold op a b others) = a :: b :: others :=
  operands_eq rfl

theorem operands_apply (op : UnaryOp) (v : Expression) : Tree.operands (apply op v) = [v] :=
  operands_eq rfl

/-- A node compiles exactly when there is room for it and its operands do, one
level further inside. Its program is put together from theirs. -/
theorem compile_eq_ok_iff {tree : Expression} {compiler : Compiler} {program : Program} :
    (compiler.compile tree).1 = .ok program ↔
      (tree.kind? = none ∨ compiler.depth < compiler.limits.maxDepth) ∧
        ∃ operands programs, tree.places = operands.map .filled ∧
          List.Forall₂ (fun operand program => (compiler.deeper.compile operand).1 = .ok program)
            operands programs ∧
          Compiler.assemble tree programs = program := by
  cases hkind : tree.kind? with
  | none =>
      rw [Compiler.compile_leaf hkind, places_leaf hkind]
      constructor
      · intro h
        exact ⟨Or.inl rfl, [], [], rfl, .nil, Except.ok.inj h⟩
      · rintro ⟨-, operands, programs, hplaces, hoperands, rfl⟩
        obtain rfl := List.map_eq_nil_iff.mp hplaces.symm
        cases hoperands
        rfl
  | some kind =>
      rw [Compiler.compile_node hkind]
      by_cases hfull : compiler.limits.maxDepth ≤ compiler.depth
      · rw [if_pos hfull]
        constructor
        · intro h
          cases h
        · rintro ⟨hnone | hroom, -⟩
          · cases hnone
          · exact absurd hfull (UInt64.not_le.mpr hroom)
      · rw [if_neg hfull, Walk.map_eq_ok]
        simp only [Walk.mapM_eq_ok]
        constructor
        · rintro ⟨programs, hfilled, hprogram⟩
          refine ⟨Or.inr (UInt64.not_le.mp hfull), ?_⟩
          have hheld : ∀ place program, compiler.deeper.fillOutcome kind place = .ok program →
              ∃ operand, .filled operand = place ∧
                (compiler.deeper.compile operand).1 = .ok program := by
            rintro (operand | field) result hresult
            · exact ⟨operand, rfl, hresult⟩
            · cases hresult
          obtain ⟨operands, hplaces, hoperands⟩ := exists_operands (hfilled.imp hheld)
          exact ⟨operands, programs, hplaces, hoperands, hprogram⟩
        · rintro ⟨-, operands, programs, hplaces, hoperands, hprogram⟩
          refine ⟨programs, ?_, hprogram⟩
          rw [hplaces, List.forall₂_map_left_iff]
          exact hoperands

/-- There is an operand in this place, and it compiles to this program. -/
def CompiledIn (place : Place Expression) (program : Program) : Prop :=
  ∃ operand compiler, .filled operand = place ∧ (Compiler.compile compiler operand).1 = .ok program

theorem CompiledIn.filledBy {place : Place Expression} {program : Program}
    (h : CompiledIn place program) : FilledBy place program := by
  obtain ⟨operand, compiler, hplace, hcompile⟩ := h
  exact ⟨operand, hplace, runs_of_compile hcompile⟩

/-- The program of a tree is put together from those of its operands. -/
theorem parts_of_compile {tree : Expression} {compiler : Compiler} {program : Program}
    (h : (compiler.compile tree).1 = .ok program) :
    ∃ programs, List.Forall₂ CompiledIn tree.places programs ∧
      Compiler.assemble tree programs = program := by
  obtain ⟨-, operands, programs, hplaces, hoperands, hprogram⟩ := compile_eq_ok_iff.mp h
  refine ⟨programs, ?_, hprogram⟩
  rw [hplaces, List.forall₂_map_left_iff]
  exact hoperands.imp fun operand _ hcompile => ⟨operand, compiler.deeper, rfl, hcompile⟩

/-- Two programs for one tree make the same passes. -/
theorem Runs.unique {tree : Expression} {program other : Program} (h : Runs tree program)
    (hother : Runs tree other) : program.run = other.run := by
  funext store
  exact (h store _).mp ((hother store _).mpr rfl)

end Expression

end Animation
