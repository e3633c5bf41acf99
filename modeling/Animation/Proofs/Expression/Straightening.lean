import Animation.Proofs.Expression.Order

/-!
Trees with choices, straightened. Along one pass every choice to which the pass
comes takes one branch. With that branch in a block behind the condition there
is no choice left, and the pass is the same in all it does. So the order of
readings and calls, which a tree without choices tells by itself, is known for
every tree once the branches are.
-/

namespace Animation.Expression

mutual

/-- The second tree is the first with each choice to which an evaluation from
this store comes replaced by its condition and the branch that is taken. -/
inductive Straightens : Expression → Store → Expression → Prop
  | inOrder {node operands straights store} :
      node.kind? ≠ some .cond →
      node.places = operands.map .filled →
      StraightensAll operands store straights →
      Straightens node store (node.withPlaces (straights.map .filled))
  /-- Instead of a missing second branch there is its value, 0. -/
  | choice {expr ifNode elseNode store test first second} :
      Straightens expr store first →
      Evaluates expr store test →
      Straightens (if Number.isTrue test.value then ifNode else elseNode.getD (.literal 0))
        test.store second →
      Straightens (.cond (some expr) (some ifNode) elseNode) store (.block [first, second])

/-- Operands that are evaluated one after the other, each straightened. -/
inductive StraightensAll : List Expression → Store → List Expression → Prop
  | nil {store} : StraightensAll [] store []
  | cons {operand operands store first straight straights} :
      Straightens operand store straight →
      Evaluates operand store first →
      StraightensAll operands first.store straights →
      StraightensAll (operand :: operands) store (straight :: straights)

end

/-- The second tree has no choices, it compiles where the first does, and from
this store it makes the same pass. -/
def Follows (tree : Expression) (store : Store) (straight : Expression) : Prop :=
  ∀ compiler program, (Compiler.compile compiler tree).1 = .ok program →
    straight.Straight ∧
      ∃ again, (Compiler.compile compiler straight).1 = .ok again ∧
        again.run store = program.run store

theorem StraightensAll.alike {operands straights : List Expression} {store : Store}
    (h : StraightensAll operands store straights) :
    List.Forall₂ (Place.Alike fun _ _ => True) (operands.map .filled)
      (straights.map .filled) := by
  induction operands generalizing store straights with
  | nil =>
      cases h
      exact .nil
  | cons operand rest ih =>
      cases h with
      | cons _ _ hrest => exact .cons (.filled trivial) (ih hrest)

/-- Operands that follow others one by one do so together. -/
theorem StraightensAll.follow {compiler : Compiler} {operands straights : List Expression}
    {programs : List Program} {store : Store}
    (ih : ∀ operand ∈ operands, ∀ store straight, Straightens operand store straight →
      Follows operand store straight)
    (hoperands : List.Forall₂ (fun operand program => (compiler.compile operand).1 = .ok program)
      operands programs)
    (h : StraightensAll operands store straights) :
    (∀ straight ∈ straights, straight.Straight) ∧
      ∃ others, List.Forall₂ (fun straight other => (compiler.compile straight).1 = .ok other)
          straights others ∧
        Program.runAll others store = Program.runAll programs store := by
  induction hoperands generalizing store straights with
  | nil =>
      cases h
      exact ⟨by simp, [], .nil, rfl⟩
  | @cons operand program operands programs hcompile _ hrest =>
      cases h with
      | cons hfirst hevaluates hothers =>
          obtain ⟨hhead, htail⟩ := List.forall_mem_cons.mp ih
          obtain ⟨hstraight, again, hagain, hrun⟩ := hhead _ _ hfirst compiler program hcompile
          cases (runs_of_compile hcompile _ _).mp hevaluates
          obtain ⟨hstraights, others, hcompiled, hruns⟩ := hrest htail hothers
          refine ⟨List.forall_mem_cons.mpr ⟨hstraight, hstraights⟩, again :: others,
            .cons hagain hcompiled, ?_⟩
          simp only [Program.runAll_cons, hrun, hruns]

/-- A node that is not a choice is straightened when its operands are. -/
theorem follows_inOrder {node straight : Expression} {store : Store}
    (hkind : node.kind? ≠ some .cond) (ih : ∀ operand ∈ Tree.operands node, ∀ store straight,
      Straightens operand store straight → Follows operand store straight)
    (h : Straightens node store straight) : Follows node store straight := by
  intro compiler program hcompile
  cases h with
  | choice _ _ _ => exact absurd rfl hkind
  | @inOrder _ operands straights _ _ hplaces hall =>
      obtain ⟨hroom, _, programs, hagain, hoperands, rfl⟩ := compile_eq_ok_iff.mp hcompile
      obtain rfl := (List.map_injective_iff.mpr fun _ _ => Place.filled.inj)
        (hplaces.symm.trans hagain)
      rw [operands_eq hplaces] at ih
      obtain ⟨hstraights, others, hothers, hrun⟩ := hall.follow ih hoperands
      have halike := hall.alike
      rw [← hplaces] at halike
      obtain ⟨hsame, hfits⟩ := withPlaces_fits halike
      have hlength : node.places.length = others.length := by
        rw [halike.length_eq, List.length_map, hothers.length_eq]
      have hbefore : node.places.length = programs.length := by
        rw [hplaces, List.length_map, hoperands.length_eq]
      rw [← hsame] at hroom
      refine ⟨straight_iff.mpr ⟨hsame.symm ▸ hkind, ?_⟩, Compiler.assemble node others, ?_, ?_⟩
      · rwa [operands_eq hfits]
      · exact compile_eq_ok_iff.mpr
          ⟨hroom, straights, others, hfits, hothers, assemble_withPlaces _ _⟩
      · rw [run_assemble (Walk.forall₂_of_length_eq hlength) hkind,
          run_assemble (Walk.forall₂_of_length_eq hbefore) hkind, Pass.bind_apply,
          Pass.bind_apply, hrun]

/-- The branch of a choice that is taken is an operand, or it is 0. -/
theorem branch_cases {expr ifNode : Expression} {elseNode : Option Expression} (test : Bool) :
    (if test then ifNode else elseNode.getD (.literal 0)) ∈
        Tree.operands (.cond (some expr) (some ifNode) elseNode) ∨
      (if test then ifNode else elseNode.getD (.literal 0)) = .literal 0 := by
  cases test with
  | true => exact Or.inl (Tree.mem_operands.mpr (.tail _ (.head _)))
  | false =>
      cases elseNode with
      | none => exact Or.inr rfl
      | some elseNode => exact Or.inl (Tree.mem_operands.mpr (.tail _ (.tail _ (.head _))))

/-- In the block only the value of the branch counts, as it does in the choice. -/
theorem follows_choice {expr ifNode first second : Expression} {elseNode : Option Expression}
    {store : Store} {test : Outcome Float} (htest : Evaluates expr store test)
    (hfirst : Follows expr store first)
    (hsecond : Follows (if Number.isTrue test.value then ifNode else elseNode.getD (.literal 0))
      test.store second) :
    Follows (.cond (some expr) (some ifNode) elseNode) store (.block [first, second]) := by
  intro compiler program hcompile
  obtain ⟨_, _, testing, positive, negative, ⟨⟩, ⟨⟩, rfl, hexpr, hif, helse, hroom⟩ :=
    choice_of_compile hcompile
  let chosen := if Number.isTrue test.value then positive else negative
  have hbranch : (compiler.deeper.compile
      (if Number.isTrue test.value then ifNode else elseNode.getD (.literal 0))).1 =
        .ok chosen := by
    cases hvalue : Number.isTrue test.value <;> simp [chosen, hvalue, hif, helse]
  cases (runs_of_compile hexpr _ _).mp htest
  obtain ⟨hstraight, again, hagain, hrun⟩ := hfirst _ _ hexpr
  obtain ⟨hlater, other, hother, hrest⟩ := hsecond _ _ hbranch
  have hplaces : (block [first, second]).places = [first, second].map .filled := rfl
  refine ⟨straight_iff.mpr ⟨by simp [kind?], ?_⟩, .block [again, other], ?_, ?_⟩
  · rw [operands_eq hplaces]
    simp [hstraight, hlater]
  · exact compile_eq_ok_iff.mpr ⟨Or.inr hroom, [first, second],
      [again, other], hplaces, .cons hagain (.cons hother .nil), rfl⟩
  · simp only [Program.run_block, Program.run_cond, Program.runAll_cons, hrun, hrest]
    simp [Program.runAll, Pass.pure_apply, chosen]

/-- A straightened tree makes the pass of the tree it comes from. -/
theorem follows_of_straightens {tree straight : Expression} {store : Store}
    (h : Straightens tree store straight) : Follows tree store straight := by
  -- The induction is on the tree: a branch that is taken is an operand, or it is 0,
  -- which is a leaf and needs no induction.
  induction tree using Tree.operand_induction generalizing store straight with
  | step tree ih =>
      by_cases hkind : tree.kind? = some .cond
      · cases h with
        | inOrder hother _ _ => exact absurd hkind hother
        | @choice expr ifNode elseNode _ test first second hfirst htest hsecond =>
            apply follows_choice htest (ih expr (Tree.mem_operands.mpr (.head _)) hfirst)
            rcases branch_cases (Number.isTrue test.value) with hmember | hzero
            · exact ih _ hmember hsecond
            · rw [hzero] at hsecond ⊢
              refine follows_inOrder (by simp [kind?]) ?_ hsecond
              simp [@operands_leaf (.literal 0) rfl]
      · exact follows_inOrder hkind (fun operand hoperand _ _ => ih operand hoperand) h

theorem exists_straightensAll {operands : List Expression} {programs : List Program}
    (hruns : List.Forall₂ Runs operands programs)
    (ih : ∀ operand ∈ operands, ∀ store, ∃ straight, Straightens operand store straight)
    (store : Store) : ∃ straights, StraightensAll operands store straights := by
  induction hruns generalizing store with
  | nil => exact ⟨[], .nil⟩
  | cons hfirst _ hrest =>
      obtain ⟨hhead, htail⟩ := List.forall_mem_cons.mp ih
      obtain ⟨straight, hstraight⟩ := hhead store
      obtain ⟨straights, hstraights⟩ := hrest htail _
      exact ⟨straight :: straights, .cons hstraight ((hfirst store _).mpr rfl) hstraights⟩

/-- Every tree that compiles can be straightened, for every store. -/
theorem exists_straightens {tree : Expression} {compiler : Compiler} {program : Program}
    (h : (compiler.compile tree).1 = .ok program) (store : Store) :
    ∃ straight, Straightens tree store straight := by
  induction tree using Tree.operand_induction generalizing compiler program store with
  | step tree ih =>
      have hinner : ∀ operand ∈ Tree.operands tree, ∀ store,
          ∃ straight, Straightens operand store straight := by
        intro operand hoperand store
        obtain ⟨i, hplace⟩ := List.mem_iff_getElem?.mp (Tree.mem_operands.mp hoperand)
        obtain ⟨programs, hparts, -⟩ := parts_of_compile h
        obtain ⟨_, _, -, hcompile⟩ := compiledIn_of_place hparts hplace
        exact ih operand hoperand hcompile store
      by_cases hkind : tree.kind? = some .cond
      · cases tree with
        | cond expr ifNode elseNode =>
            obtain ⟨condition, taken, testing, _, _, rfl, rfl, -, htesting, -⟩ :=
              choice_of_compile h
            have htest : condition.Evaluates store (testing.run store) :=
              (runs_of_compile htesting _ _).mpr rfl
            obtain ⟨first, hfirst⟩ := hinner condition (Tree.mem_operands.mpr (.head _)) store
            suffices hbranch : ∃ second, Straightens
                (if Number.isTrue (testing.run store).value then taken
                  else elseNode.getD (.literal 0)) (testing.run store).store second by
              obtain ⟨second, hsecond⟩ := hbranch
              exact ⟨_, .choice hfirst htest hsecond⟩
            rcases branch_cases (Number.isTrue (testing.run store).value) with hmember | hzero
            · exact hinner _ hmember _
            · have hplaces : (literal 0).places = [].map .filled := rfl
              rw [hzero]
              exact ⟨_, .inOrder (by simp [kind?]) hplaces .nil⟩
        | _ => cases hkind
      · obtain ⟨-, operands, programs, hplaces, hoperands, -⟩ := compile_eq_ok_iff.mp h
        have hruns := hoperands.imp fun _ _ => runs_of_compile
        rw [operands_eq hplaces] at hinner
        obtain ⟨straights, hstraights⟩ := exists_straightensAll hruns hinner store
        exact ⟨_, .inOrder hkind hplaces hstraights⟩

/-- One pass makes the readings and calls of a tree in post-order, each once,
whatever the values are: no operator ends early and no operand is left out.
Where there are choices, they are those of the tree in which the condition and
the branch that is taken stand for each choice to which the pass comes. -/
theorem events_in_postorder (tree : Expression) (compiler : Compiler) (program : Program)
    (hcompile : (compiler.compile tree).1 = .ok program) (store : Store) :
    tree.occurrences.Nodup ∧
      (∀ path part, (path, part) ∈ tree.occurrences ↔ tree.part? path = some part) ∧
      (tree.Straight →
        (∀ path part, tree.part? path = some part → ∃ found, tree.Arrives store path found) ∧
          tree.InOrder store (program.run store).events) ∧
      (∃ straight, tree.Straightens store straight) ∧
      ∀ straight, tree.Straightens store straight →
        straight.Straight ∧
          ∃ again, (compiler.compile straight).1 = .ok again ∧
            again.run store = program.run store ∧
            straight.InOrder store (program.run store).events := by
  refine ⟨nodup_occurrences tree, fun _ _ => mem_occurrences, ?_,
    exists_straightens hcompile store, ?_⟩
  · intro hstraight
    exact ⟨fun path part hpart => arrives_of_straight hcompile hstraight store hpart,
      inOrder_run hcompile hstraight store⟩
  · intro straight hstraightens
    obtain ⟨hstraight, again, hagain, hrun⟩ :=
      follows_of_straightens hstraightens compiler program hcompile
    refine ⟨hstraight, again, hagain, hrun, ?_⟩
    rw [← hrun]
    exact inOrder_run hagain hstraight store

/-- The condition is decided by its first operand, and yet the nested calls are
made and the cell is read again; the missing branch adds nothing. -/
theorem events_in_postorder_decided_early :
    let cell : Ref := ⟨0⟩
    let inner := Callback.record "inner"
    let outer := Callback.record "outer"
    let nested : Expression := .call [.call [.external cell] (some inner), .literal 7] (some outer)
    let tree : Expression :=
      .choice (.fold .and (.literal 0) nested [.external cell]) (.external ⟨1⟩) none
    let program : Program :=
      .cond (.fold .and (.constant 0)
          [.call [.call [.read cell] (some inner), .constant 7] (some outer), .read cell])
        (.read ⟨1⟩) (.constant 0)
    let store : Store := ⟨#[.slot (some 5), .slot (some 1)]⟩
    (Compiler.compile {} tree).1 = .ok program ∧
      ∃ straight, tree.Straightens store straight ∧ straight.Straight ∧
        straight.InOrder store
          [.read cell, .call inner [5], .call outer [0, 7], .read cell] := by
  intro cell inner outer nested tree program store
  have hcompile : (Compiler.compile {} tree).1 = .ok program := rfl
  have hevents : (program.run store).events =
      [.read cell, .call inner [5], .call outer [0, 7], .read cell] := rfl
  obtain ⟨-, -, -, ⟨straight, hstraightens⟩, hall⟩ :=
    events_in_postorder tree {} program hcompile store
  obtain ⟨hstraight, _, -, -, horder⟩ := hall straight hstraightens
  rw [hevents] at horder
  exact ⟨hcompile, straight, hstraightens, hstraight, horder⟩

end Animation.Expression
