import Animation.Proofs.Expression.Branches
import Mathlib.Data.List.Nodup

/-!
The order in which a pass does what it does. Without choices the tree alone
tells which readings and which calls there are, and in which order: those of
its parts in post-order, from left to right, each once. No operator ends early
and nothing is evaluated again.
-/

namespace Animation

/-- Everything but a writing is a reading or a call. -/
def Event.isWrite : Event → Bool
  | .write _ _ => true
  | _ => false

theorem Event.filter_ofWrites (writes : List (Ref × Float)) :
    (Event.ofWrites writes).filter (!·.isWrite) = [] := by
  rw [List.filter_eq_nil_iff, Event.ofWrites, List.forall_mem_map]
  intro write _ hother
  cases hother

/-- What programs do one after the other, each from the store that those before
it leave. -/
theorem Program.events_runAll (programs : List Program) (store : Store) :
    (runAll programs store).events =
      (programs.mapIdx fun i program =>
        (program.run (runAll (programs.take i) store).store).events).flatten := by
  induction programs generalizing store with
  | nil => rfl
  | cons program rest ih =>
      simp only [runAll_cons, ih, List.mapIdx_cons, List.flatten_cons, List.take_zero,
        List.take_succ_cons]
      rfl

namespace Expression

/-- The parts that are in the place of this number, with their positions. -/
def occurrencesIn (inside : Expression → List (List Nat × Expression)) (i : Nat) :
    Place Expression → List (List Nat × Expression)
  | .filled operand => (inside operand).map fun (path, part) => (i :: path, part)
  | .missing _ => []

/-- Every part of the tree with its position, in post-order: everything in a
place before what is in the next one, and the operands before the node. -/
def occurrences (tree : Expression) : List (List Nat × Expression) :=
  (tree.places.attach.mapIdx fun
    | i, ⟨.filled operand, _⟩ => (occurrences operand).map fun (path, part) => (i :: path, part)
    | _, ⟨.missing _, _⟩ => []).flatten ++
    [([], tree)]
termination_by sizeOf tree
decreasing_by exact sizeOf_lt ‹_›

/-- A part that reads or calls by itself when it is evaluated. -/
def acts : Expression → Bool
  | .external _ | .value (some _) | .call _ (some _) => true
  | _ => false

/-- The event is the one of this occurrence in the tree, in an evaluation from
this store. A call is made with the values that its arguments have at the
store with which the evaluation comes to the call, one for each argument. -/
inductive Does (tree : Expression) (store : Store) : List Nat × Expression → Event → Prop
  | external {path source} : Does tree store (path, .external source) (.read source)
  | value {path source} : Does tree store (path, .value (some source)) (.read source)
  | call {path args callback found values} :
      Arrives tree store path found →
      EvaluatesAll args found values →
      values.value.length = args.length →
      Does tree store (path, .call args (some callback)) (.call callback values.value)

/-- The readings and calls among these events are those of the tree, in
post-order, one for each occurrence that acts. -/
def InOrder (tree : Expression) (store : Store) (events : List Event) : Prop :=
  List.Forall₂ (Does tree store) (tree.occurrences.filter (·.2.acts))
    (events.filter (!·.isWrite))

/-- There is no choice in the tree. -/
def Straight (tree : Expression) : Prop :=
  ∀ part, Tree.Contains tree part → part.kind? ≠ some .cond

/-! ### Occurrences -/

theorem mapIdx_attach {α β : Type} {items : List α} {visit : Nat → { item // item ∈ items } → β}
    (other : Nat → α → β) (h : ∀ i item, visit i item = other i item.1) :
    items.attach.mapIdx visit = items.mapIdx other := by
  apply List.ext_getElem
  · simp
  · simp [h]

theorem occurrences_eq (tree : Expression) :
    tree.occurrences =
      (tree.places.mapIdx (occurrencesIn occurrences)).flatten ++ [([], tree)] := by
  rw [occurrences, mapIdx_attach (occurrencesIn occurrences)]
  rintro i ⟨_ | _, _⟩ <;> rfl

theorem mem_occurrencesIn {inside : Expression → List (List Nat × Expression)} {i : Nat}
    {place : Place Expression} {path : List Nat} {part : Expression} :
    (path, part) ∈ occurrencesIn inside i place ↔
      ∃ operand rest, place = .filled operand ∧ path = i :: rest ∧
        (rest, part) ∈ inside operand := by
  cases place with
  | missing field => simp [occurrencesIn]
  | filled operand =>
      constructor
      · intro h
        obtain ⟨⟨rest, _⟩, hmember, ⟨⟩⟩ := List.mem_map.mp h
        exact ⟨operand, rest, rfl, rfl, hmember⟩
      · rintro ⟨_, rest, ⟨⟩, rfl, hmember⟩
        exact List.mem_map.mpr ⟨_, hmember, rfl⟩

/-- What occurs in a tree is what can be looked up in it. -/
theorem mem_occurrences {tree : Expression} {path : List Nat} {part : Expression} :
    (path, part) ∈ tree.occurrences ↔ tree.part? path = some part := by
  induction path generalizing tree with
  | nil =>
      rw [occurrences_eq]
      simp [part?, mem_occurrencesIn, List.mem_mapIdx, eq_comm]
  | cons i path ih =>
      simp only [occurrences_eq, List.mem_append, List.mem_flatten, List.mem_mapIdx]
      constructor
      · rintro (⟨_, ⟨j, hless, rfl⟩, hmember⟩ | hlast)
        · obtain ⟨operand, _, hplace, ⟨⟩, hinside⟩ := mem_occurrencesIn.mp hmember
          simp [part?, hless, hplace, Place.operand?, ih.mp hinside]
        · simp at hlast
      · intro hpart
        obtain ⟨operand, hplace, hrest⟩ := part?_cons hpart
        obtain ⟨hless, hget⟩ := List.getElem?_eq_some_iff.mp hplace
        have hmember : (i :: path, part) ∈ occurrencesIn occurrences i tree.places[i] :=
          mem_occurrencesIn.mpr ⟨operand, path, hget, rfl, ih.mpr hrest⟩
        exact Or.inl ⟨_, ⟨i, hless, rfl⟩, hmember⟩

theorem nodup_occurrences (tree : Expression) : tree.occurrences.Nodup := by
  induction tree using Tree.operand_induction with
  | step tree ih =>
      have hinside : (tree.places.mapIdx (occurrencesIn occurrences)).flatten.Nodup := by
        rw [List.nodup_flatten]
        constructor
        · intro listed hlisted
          obtain ⟨i, hless, rfl⟩ := List.mem_mapIdx.mp hlisted
          cases hplace : tree.places[i] with
          | missing field => exact List.nodup_nil
          | filled operand =>
              have hfilled : .filled operand ∈ tree.places := List.mem_of_getElem hplace
              refine (ih operand (Tree.mem_operands.mpr hfilled)).map ?_
              rintro ⟨_, _⟩ ⟨_, _⟩ ⟨⟩
              rfl
        · rw [List.pairwise_iff_getElem]
          intro i j hless hbound hij
          rintro ⟨path, part⟩ hfirst hsecond
          rw [List.getElem_mapIdx] at hfirst hsecond
          obtain ⟨_, _, -, rfl, -⟩ := mem_occurrencesIn.mp hfirst
          obtain ⟨_, _, -, hsame, -⟩ := mem_occurrencesIn.mp hsecond
          exact absurd (List.cons.inj hsame).1 (Nat.ne_of_lt hij)
      have hapart : ([], tree) ∉
          (tree.places.mapIdx (occurrencesIn occurrences)).flatten := by
        simp [List.mem_mapIdx, mem_occurrencesIn]
      rw [occurrences_eq, List.nodup_append']
      exact ⟨hinside, List.nodup_singleton _, List.disjoint_singleton.mpr hapart⟩

variable {tree : Expression} {store : Store}

theorem Does.inside {i : Nat} {operand : Expression} {middle : Store}
    (henters : Enters tree store i operand middle) {path : List Nat} {part : Expression}
    {event : Event} (h : Does operand middle (path, part) event) :
    Does tree store (i :: path, part) event := by
  cases h with
  | external => exact .external
  | value => exact .value
  | call harrives hargs hlength => exact .call (.inside henters harrives) hargs hlength

theorem EvaluatesAll.length_eq {operands : List Expression} {values : Outcome (List Float)}
    (h : EvaluatesAll operands store values) : values.value.length = operands.length := by
  induction operands generalizing store values with
  | nil =>
      cases h
      rfl
  | cons operand rest ih =>
      cases h with
      | cons _ hrest => simp only [List.length_cons, ih hrest]

/-- Every operand of a node that is not a choice is evaluated, with the store
that the operands before it leave. -/
theorem enters_place (hkind : tree.kind? ≠ some .cond) {programs : List Program}
    (hprograms : List.Forall₂ FilledBy tree.places programs) {i : Nat} {operand : Expression}
    (hplace : tree.places[i]? = some (.filled operand)) :
    Enters tree store i operand (Program.runAll (programs.take i) store).store := by
  obtain ⟨operands, hplaces, hruns⟩ := exists_operands hprograms
  have hget : operands[i]? = some operand := by
    simpa [hplaces] using hplace
  obtain ⟨hless, rfl⟩ := List.getElem?_eq_some_iff.mp hget
  have hsplit : tree.places = (operands.take i).map .filled ++
      .filled operands[i] :: (operands.drop (i + 1)).map .filled := by
    rw [hplaces, ← List.map_cons, ← List.map_append, List.getElem_cons_drop,
      List.take_append_drop]
  have hbefore := (evaluatesAll_iff (List.forall₂_take i hruns) store _).mpr rfl
  have henters := Enters.inOrder hkind hsplit hbefore
  rwa [List.length_take_of_le (Nat.le_of_lt hless)] at henters

/-- What a node does by itself, after its operands. -/
theorem does_finish (hkind : tree.kind? ≠ some .cond) {programs : List Program}
    (hprograms : List.Forall₂ FilledBy tree.places programs) :
    let values := Program.runAll programs store
    List.Forall₂ (Does tree store) ([([], tree)].filter (·.2.acts))
      ((tree.finish values.value values.store).events.filter (!·.isWrite)) := by
  intro values
  cases tree with
  | literal _ | number _ | block _ => exact .nil
  | external source => exact .cons .external .nil
  | value source =>
      cases source with
      | none => exact .nil
      | some source => exact .cons .value .nil
  | binary op a b others =>
      rcases hprograms with _ | ⟨-, hrest⟩
      exact .nil
  | unary op v =>
      rcases hprograms with _ | ⟨-, _ | _⟩
      exact .nil
  | compare op left right =>
      rcases hprograms with _ | ⟨-, _ | ⟨-, _ | _⟩⟩
      exact .nil
  | cond expr ifNode elseNode => exact absurd rfl hkind
  | set source target =>
      rcases hprograms with _ | ⟨-, _ | _⟩
      cases target <;> exact .nil
  | call args callback =>
      cases callback with
      | none => exact .nil
      | some host =>
          have hargs := (evaluatesAll_iff (filledBy_map hprograms) store values).mpr rfl
          have hcall : Does (.call args (some host)) store ([], .call args (some host))
              (.call host values.value) := .call .here hargs hargs.length_eq
          have hevents : (finish (.call args (some host)) values.value values.store).events =
              .call host values.value ::
                Event.ofWrites (host.writes values.value values.store) := by
            simp [finish, Pass.bind_apply, Pass.invoke_apply, Pass.pure_apply]
          have hfilter : (finish (.call args (some host)) values.value values.store).events.filter
              (!·.isWrite) = [.call host values.value] := by
            rw [hevents]
            exact congrArg (_ :: ·) (Event.filter_ofWrites _)
          rw [hfilter]
          exact .cons hcall .nil

theorem straight_iff :
    tree.Straight ↔
      tree.kind? ≠ some .cond ∧ ∀ operand ∈ Tree.operands tree, operand.Straight := by
  constructor
  · intro h
    refine ⟨h tree .refl, ?_⟩
    intro operand hoperand part hpart
    exact h part (.head hoperand hpart)
  · rintro ⟨hkind, hinner⟩ part hpart
    rcases Tree.contains_iff.mp hpart with rfl | ⟨operand, hoperand, hinside⟩
    · exact hkind
    · exact hinner operand hoperand part hinside

/-- A pass of a tree without choices does what is to be done in it in post-order. -/
theorem inOrder_run {compiler : Compiler} {program : Program}
    (h : (compiler.compile tree).1 = .ok program) (hstraight : tree.Straight) (store : Store) :
    tree.InOrder store (program.run store).events := by
  induction tree using Tree.operand_induction generalizing compiler program store with
  | step tree ih =>
      obtain ⟨hkind, hinner⟩ := straight_iff.mp hstraight
      obtain ⟨programs, hparts, rfl⟩ := parts_of_compile h
      have hprograms := hparts.imp fun _ _ => CompiledIn.filledBy
      rw [InOrder, occurrences_eq, run_assemble hprograms hkind, Pass.bind_apply,
        List.filter_append, List.filter_append, List.filter_flatten,
        Program.events_runAll, List.filter_flatten]
      -- What the operands do comes first, place by place, and the node after them.
      apply List.rel_append _ (does_finish hkind hprograms)
      apply List.rel_flatten
      rw [List.forall₂_iff_get]
      refine ⟨by simp [hparts.length_eq], ?_⟩
      intro i hless hbound
      simp only [List.length_map, List.length_mapIdx] at hless hbound
      obtain ⟨operand, inner, hplace, hcompile⟩ := hparts.get hless hbound
      have hget : tree.places[i]? = some (.filled operand) := by
        rw [List.getElem?_eq_getElem hless]
        exact congrArg some hplace.symm
      have hmember := mem_operands_of_place hget
      have henters := @enters_place _ store hkind _ hprograms _ _ hget
      have hinside := ih operand hmember hcompile (hinner operand hmember)
        (Program.runAll (programs.take i) store).store
      -- One step further out only the positions and the calls in `Does` change.
      simp only [List.get_eq_getElem, List.getElem_map, List.getElem_mapIdx]
      rw [← show _ = tree.places[i] from hplace, occurrencesIn, List.filter_map,
        List.forall₂_map_left_iff]
      exact hinside.imp fun _ _ hdoes => hdoes.inside henters

/-- Without choices, an evaluation comes to every position. -/
theorem arrives_of_straight {compiler : Compiler} {program : Program}
    (h : (compiler.compile tree).1 = .ok program) (hstraight : tree.Straight) (store : Store)
    {path : List Nat} {part : Expression} (hpart : tree.part? path = some part) :
    ∃ found, Arrives tree store path found := by
  induction path generalizing tree compiler program store with
  | nil => exact ⟨store, .here⟩
  | cons i path ih =>
      obtain ⟨hkind, hinner⟩ := straight_iff.mp hstraight
      obtain ⟨operand, hplace, hrest⟩ := part?_cons hpart
      obtain ⟨programs, hparts, -⟩ := parts_of_compile h
      obtain ⟨_, _, -, hoperand⟩ := compiledIn_of_place hparts hplace
      have henters := @enters_place _ store hkind _ (hparts.imp fun _ _ => CompiledIn.filledBy)
        _ _ hplace
      have hmember := mem_operands_of_place hplace
      obtain ⟨found, harrives⟩ := ih hoperand (hinner operand hmember) _ hrest
      exact ⟨found, .inside henters harrives⟩

end Expression

end Animation
