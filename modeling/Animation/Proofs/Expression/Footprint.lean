import Animation.Proofs.Compiler.Outcome
import Animation.Proofs.Program.Footprint

/-!
What a tree has to do with, found on the tree itself: its readings of cells,
the targets of its set nodes and the callbacks of its call nodes, wherever in
the tree they are. The program that a tree compiles to has to do with exactly
the same.
-/

namespace Animation.Expression

/-- What a part of a tree has to do with by itself, apart from its operands. -/
def ownUses : Expression → List Use
  | .external source => [.read source]
  | .value source => source.toList.map .read
  | .set _ target => target.toList.map .write
  | .call _ callback => callback.toList.map .call
  | _ => []

def Uses (tree : Expression) (use : Use) : Prop :=
  ∃ part, Tree.Contains tree part ∧ use ∈ part.ownUses

/-- The tree reads this cell, or one whose reading goes through it. -/
def Reads (store : Store) (tree : Expression) (cell : Ref) : Prop :=
  ∃ source, tree.Uses (.read source) ∧ store.Reaches source cell

/-- The cell is the target of a set node, or the callback of a call node stores
to it. -/
def Writes (tree : Expression) (cell : Ref) : Prop :=
  tree.Uses (.write cell) ∨ ∃ callback, tree.Uses (.call callback) ∧ callback.StoresTo cell

theorem uses_iff {tree : Expression} {use : Use} :
    tree.Uses use ↔ use ∈ tree.ownUses ∨ ∃ operand ∈ Tree.operands tree, operand.Uses use := by
  simp only [Uses, @Tree.contains_iff _ _ _ tree]
  constructor
  · rintro ⟨part, rfl | ⟨operand, hoperand, hrest⟩, huse⟩
    · exact .inl huse
    · exact .inr ⟨operand, hoperand, part, hrest, huse⟩
  · rintro (huse | ⟨operand, hoperand, part, hrest, huse⟩)
    · exact ⟨tree, .inl rfl, huse⟩
    · exact ⟨part, .inr ⟨operand, hoperand, hrest⟩, huse⟩

/-- Only set nodes have targets. -/
theorem kind?_of_write {part : Expression} {target : Ref} (h : .write target ∈ part.ownUses) :
    part.kind? = some .set := by
  cases part with
  | set source cell => rfl
  | _ => simp [ownUses] at h

/-- Only call nodes have callbacks. -/
theorem kind?_of_call {part : Expression} {callback : Callback}
    (h : .call callback ∈ part.ownUses) : part.kind? = some .call := by
  cases part with
  | call args host => rfl
  | _ => simp [ownUses] at h

end Animation.Expression

namespace Animation.Program

theorem mem_usesAll {programs : List Program} {use : Use} :
    use ∈ usesAll programs ↔ ∃ program ∈ programs, use ∈ program.uses := by
  induction programs with
  | nil => simp [usesAll]
  | cons program rest ih => simp [usesAll, ih]

end Animation.Program

namespace Animation.Compiler

open Program (mem_usesAll)

/-- A node's program has to do with what the node itself has to do with, and
with what the programs in its places have to do with. -/
theorem mem_uses_assemble {filled : Place Expression → Program → Prop} {node : Expression}
    {programs : List Program} (h : List.Forall₂ filled node.places programs) {use : Use} :
    use ∈ (assemble node programs).uses ↔
      use ∈ node.ownUses ∨ ∃ program ∈ programs, use ∈ program.uses := by
  cases node with
  | literal _ | number _ =>
      cases h
      simp [assemble, Program.uses, Expression.ownUses]
  | external source =>
      cases h
      simp [assemble, Program.uses, Expression.ownUses]
  | value source =>
      cases h
      cases source <;> simp [assemble, Program.uses, Expression.ownUses]
  | binary op a b others =>
      rcases h with _ | ⟨-, hrest⟩
      simp [assemble, Program.uses, Expression.ownUses, mem_usesAll]
  | unary op v =>
      rcases h with _ | ⟨-, _ | _⟩
      simp [assemble, Program.uses, Expression.ownUses]
  | compare op left right =>
      rcases h with _ | ⟨-, _ | ⟨-, _ | _⟩⟩
      simp [assemble, Program.uses, Expression.ownUses]
  | cond expr ifNode elseNode =>
      rcases h with _ | ⟨-, _ | ⟨-, hthird⟩⟩
      cases elseNode with
      | none =>
          cases hthird
          simp [assemble, Program.uses, Expression.ownUses]
      | some elseNode =>
          rcases hthird with _ | ⟨-, _ | _⟩
          simp [assemble, Program.uses, Expression.ownUses]
  | set source target =>
      rcases h with _ | ⟨-, _ | _⟩
      simp [assemble, Program.uses, Expression.ownUses, or_comm]
  | block nodes =>
      simp [assemble, Program.uses, Expression.ownUses, mem_usesAll]
  | call args callback =>
      simp [assemble, Program.uses, Expression.ownUses, mem_usesAll, or_comm]

/-- Whatever a tree has to do with, its program has to do with, and nothing
else. -/
theorem mem_uses_iff {tree : Expression} {compiler : Compiler} {program : Program}
    (h : (compiler.compile tree).1 = .ok program) {use : Use} :
    use ∈ program.uses ↔ tree.Uses use := by
  induction tree using Tree.operand_induction generalizing compiler program with
  | step node ih =>
      cases hkind : node.kind? with
      | none =>
          rw [compile_leaf hkind] at h
          cases h
          have hplaces : List.Forall₂ (fun _ _ => True) node.places ([] : List Program) := by
            rw [Expression.places_leaf hkind]
            exact .nil
          rw [mem_uses_assemble hplaces, Expression.uses_iff, Expression.operands_leaf hkind]
          simp
      | some kind =>
          rw [compile_node hkind] at h
          split at h
          · cases h
          · obtain ⟨programs, hwalk, rfl⟩ := Walk.map_eq_ok.mp h
            have hfilled := Walk.mapM_eq_ok.mp hwalk
            rw [mem_uses_assemble hfilled, Expression.uses_iff]
            apply or_congr_right
            have hpairs : List.Forall₂ (fun place program =>
                (∃ operand, .filled operand = place ∧ operand.Uses use) ↔ use ∈ program.uses)
                node.places programs := by
              refine (Walk.forall₂_mem hfilled).imp ?_
              rintro (operand | field) result ⟨hplace, hresult⟩
              · rw [ih operand (Tree.mem_operands.mpr hplace) hresult]
                simp
              · cases hresult
            rw [← Walk.exists_iff_of_forall₂ hpairs]
            constructor
            · rintro ⟨_, hplace, operand, rfl, huse⟩
              exact ⟨operand, Tree.mem_operands.mpr hplace, huse⟩
            · rintro ⟨operand, hoperand, huse⟩
              exact ⟨_, Tree.mem_operands.mp hoperand, operand, rfl, huse⟩

theorem reads_of_compile {tree : Expression} {compiler : Compiler} {program : Program}
    (h : (compiler.compile tree).1 = .ok program) (store : Store) :
    program.Reads store = tree.Reads store := by
  funext cell
  simp only [Program.Reads, Expression.Reads, mem_uses_iff h]

theorem writes_of_compile {tree : Expression} {compiler : Compiler} {program : Program}
    (h : (compiler.compile tree).1 = .ok program) : program.Writes = tree.Writes := by
  funext cell
  simp only [Program.Writes, Expression.Writes, mem_uses_iff h]

end Animation.Compiler
