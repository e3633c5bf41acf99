import Animation.Proofs.Expression.Footprint
import Animation.Proofs.Expression.Order
import Animation.Proofs.Expression.Selection
import Animation.Proofs.Number.NotANumber
import Animation.Proofs.Program.Replay
import Animation.Proofs.Store.Traces

/-!
Values that are not set. Reading nothing gives NaN, and a pass goes on with it
like with any other value: nothing fails. From operand to node NaN goes up
through arithmetic, functions of one number, stores and ends of blocks, and
what is stored on its way is NaN as well. A node is spoiled in this way whatever
its other operands are and do.
-/

namespace Animation.Expression

/-- If the operand in this place is NaN, the node is. -/
inductive Spoils : Expression → Nat → Prop
  | arithmetic {op a b others i} : op ∈ FoldOp.arithmetic → Spoils (.binary op a b others) i
  | selection {op beats a b others} :
      FoldOp.Prefers op beats → Spoils (.binary op a b others) 0
  | unary {op v} : op ≠ .not → Spoils (.unary op v) 0
  | set {source target} : Spoils (.set source target) 0
  | block {nodes i} : i + 1 = nodes.length → Spoils (.block nodes) i

/-- Every node on the way to this position is spoiled by the operand that is
next on the way. -/
def SpoilsAlong (tree : Expression) (path : List Nat) : Prop :=
  ∀ before i after part, path = before ++ i :: after → tree.part? before = some part →
    part.Spoils i

/-- A slot that holds nothing, in a pass that writes nothing to it. -/
def Vacant (store : Store) (events : List Event) (cell : Ref) : Prop :=
  store.cells[cell.index]? = some (.slot none) ∧ ∀ value, .write cell value ∉ events

/-- In a pass from this store with these events, the leaf has no value. -/
inductive Unset (store : Store) (events : List Event) : Expression → Prop
  | external {source} : Vacant store events source → Unset store events (.external source)
  | value {source} : Vacant store events source → Unset store events (.value (some source))
  | noSource : Unset store events (.value none)

/-- The pass over the tree from this store comes to the position with `found`
and makes a pass over the part there, before and after which it does what else
there is to do. -/
structure Includes (tree : Expression) (store : Store) (whole : Outcome Float) (path : List Nat)
    (part : Expression) (found : Store) (inner : Outcome Float) : Prop where
  arrives : tree.Arrives store path found
  evaluates : part.Evaluates found inner
  stretch : ∃ early late, found = store.replay early ∧
    whole.events = early ++ (inner.events ++ late)

variable {tree operand part leaf : Expression} {compiler : Compiler} {program : Program}
  {store middle found : Store} {whole inner : Outcome Float} {path before : List Nat} {i : Nat}

/-! ### The pass of an operand -/

theorem Spoils.kind?_ne_cond (h : tree.Spoils i) : tree.kind? ≠ some .cond := by
  cases h <;> simp [kind?]

/-- What a node does by itself with the values of its operands, one of which is
NaN and spoils it. -/
theorem Spoils.isNaN_finish (h : tree.Spoils i) {values : List Float}
    (hlength : values.length = tree.places.length) {value : Float}
    (hvalue : values[i]? = some value) (hnan : value.isNaN = true) (store : Store) :
    (tree.finish values store).value.isNaN = true := by
  cases h with
  | arithmetic hop =>
      cases values with
      | nil => cases hvalue
      | cons first rest =>
          apply FoldOp.isNaN_foldl hop
          rcases List.mem_cons.mp (List.mem_of_getElem? hvalue) with rfl | hrest
          · exact .inl hnan
          · exact .inr ⟨value, hrest, hnan⟩
  | selection hprefers =>
      cases values with
      | nil => cases hvalue
      | cons first rest =>
          cases Option.some.inj hvalue
          change (rest.foldl _ value).isNaN = true
          rw [hprefers.foldl_nan hnan, hnan]
  | unary hop =>
      obtain ⟨first, rfl⟩ := List.length_eq_one_iff.mp hlength
      cases Option.some.inj hvalue
      exact UnaryOp.isNaN_apply hop hnan
  | @set source target =>
      obtain ⟨first, rfl⟩ := List.length_eq_one_iff.mp hlength
      cases Option.some.inj hvalue
      cases target <;> exact hnan
  | block hlast =>
      have hplace : i = values.length - 1 := by
        rw [hlength, places, List.length_map, ← hlast, Nat.add_sub_cancel]
      have hget : values.getLast? = some value := by
        rw [List.getLast?_eq_getElem?, ← hplace, hvalue]
      change (values.getLastD 0).isNaN = true
      rw [List.getLastD_eq_getLast?, hget]
      exact hnan

/-- Every node but a choice makes a pass over each of its operands, and ends
with what it does by itself with their values. -/
theorem exists_pass_of_operand (hcompile : (compiler.compile tree).1 = .ok program)
    (hkind : tree.kind? ≠ some .cond) (hplace : tree.places[i]? = some (.filled operand))
    (store : Store) :
    ∃ middle inner, tree.Includes store (program.run store) [i] operand middle inner ∧
      ∃ values after, values.length = tree.places.length ∧ values[i]? = some inner.value ∧
        (program.run store).value = (tree.finish values after).value := by
  obtain ⟨programs, hparts, rfl⟩ := parts_of_compile hcompile
  have hprograms := hparts.imp fun _ _ => CompiledIn.filledBy
  obtain ⟨inner, _, hget, hoperand⟩ := compiledIn_of_place hparts hplace
  obtain ⟨hvalue, late, hevents⟩ := Program.runAll_split hget store
  let values := Program.runAll programs store
  have hlength : values.value.length = tree.places.length :=
    (Program.length_runAll programs store).trans hparts.length_eq.symm
  have hwhole : ((Compiler.assemble tree programs).run store).events =
      values.events ++ (tree.finish values.value values.store).events := by
    rw [run_assemble hprograms hkind]
    rfl
  rw [hevents, List.append_assoc, List.append_assoc] at hwhole
  have henters : Enters tree store i operand _ := enters_place hkind hprograms hplace
  refine ⟨_, _, ⟨.inside henters .here, evaluates_of_compile hoperand _, _, _,
    Program.replays_runAll _ _, hwhole⟩, values.value, values.store, hlength, hvalue, ?_⟩
  rw [run_assemble hprograms hkind]
  rfl

/-! ### One step up, and all of them -/

/-- A pass over a tree with a leaf without value at this position, which spoils
every node above it. -/
structure Poisoned (tree : Expression) (path : List Nat) (store : Store)
    (whole : Outcome Float) : Prop where
  runs : ∃ compiler program, (Compiler.compile compiler tree).1 = .ok program ∧
    program.run store = whole
  unset : ∃ leaf, tree.part? path = some leaf ∧ leaf.Unset store whole.events
  spoils : tree.SpoilsAlong path

theorem part?_cons_of_place (hplace : tree.places[i]? = some (.filled operand))
    (path : List Nat) : tree.part? (i :: path) = operand.part? path := by
  rw [part?, hplace]
  rfl

theorem spoilsAlong_nil : tree.SpoilsAlong [] := by
  intro before i after part hpath
  simp at hpath

theorem spoilsAlong_cons (hplace : tree.places[i]? = some (.filled operand)) :
    tree.SpoilsAlong (i :: path) ↔ tree.Spoils i ∧ operand.SpoilsAlong path := by
  constructor
  · intro h
    refine ⟨h [] i path tree rfl rfl, ?_⟩
    rintro before j after part rfl hpart
    rw [← part?_cons_of_place hplace] at hpart
    exact h (i :: before) j after part rfl hpart
  · rintro ⟨hroot, hbelow⟩ before j after part hpath hpart
    cases before with
    | nil =>
        cases hpath
        cases Option.some.inj hpart
        exact hroot
    | cons k before =>
        cases hpath
        rw [part?_cons_of_place hplace] at hpart
        exact hbelow before j after part rfl hpart

/-- What no set node has as its target and no callback stores to is left
vacant by every pass. -/
theorem vacant_of_not_writes (hcompile : (compiler.compile tree).1 = .ok program) {cell : Ref}
    (hcell : store.cells[cell.index]? = some (.slot none)) (hwrites : ¬ tree.Writes cell) :
    Vacant store (program.run store).events cell := by
  refine ⟨hcell, fun value hvalue => hwrites ?_⟩
  rw [← Compiler.writes_of_compile hcompile]
  exact Program.writes_of_mem_events hvalue

theorem Vacant.within {early late events : List Event} {cell : Ref}
    (h : Vacant store (early ++ (events ++ late)) cell) :
    Vacant (store.replay early) events cell := by
  obtain ⟨hcell, hwrites⟩ := h
  have hearly : Event.offered cell early = [] := by
    apply List.eq_nil_iff_forall_not_mem.mpr
    intro value hvalue
    exact hwrites value (List.mem_append_left _ (Event.mem_offered.mp hvalue))
  refine ⟨?_, fun value hvalue => hwrites value ?_⟩
  · rw [Store.getElem?_replay_slot hcell, hearly]
    rfl
  · exact List.mem_append_right _ (List.mem_append_left _ hvalue)

theorem Unset.within {early late events : List Event}
    (h : leaf.Unset store (early ++ (events ++ late))) :
    leaf.Unset (store.replay early) events := by
  cases h with
  | external hvacant => exact .external hvacant.within
  | value hvacant => exact .value hvacant.within
  | noSource => exact .noSource

theorem Unset.isNaN (h : leaf.Unset store whole.events) (hevaluates : leaf.Evaluates store whole) :
    whole.value.isNaN = true := by
  have hreading : ∀ {source reading after}, Vacant store whole.events source →
      store.read source = (reading, after) → (reading.getD Number.nan).isNaN = true := by
    intro source reading after hvacant hread
    rw [Store.read_slot hvacant.1] at hread
    cases hread
    exact Number.isNaN_nan
  cases h with
  | external hvacant =>
      cases hevaluates with
      | external hread => exact hreading hvacant hread
  | value hvacant =>
      cases hevaluates with
      | value hread => exact hreading hvacant hread
  | noSource =>
      cases hevaluates
      exact Number.isNaN_nan

/-- Below the root there is a poisoned pass again, and the root is NaN if that
one is. -/
theorem Poisoned.step (h : Poisoned tree (i :: path) store whole) :
    ∃ operand middle inner, tree.places[i]? = some (.filled operand) ∧
      tree.Includes store whole [i] operand middle inner ∧ Poisoned operand path middle inner ∧
      (inner.value.isNaN = true → whole.value.isNaN = true) := by
  obtain ⟨⟨compiler, program, hcompile, rfl⟩, ⟨leaf, hleaf, hunset⟩, hspoils⟩ := h
  obtain ⟨operand, hplace, hrest⟩ := part?_cons hleaf
  obtain ⟨hroot, hbelow⟩ := (spoilsAlong_cons hplace).mp hspoils
  obtain ⟨middle, inner, hincludes, values, after, hlength, hvalue, hresult⟩ :=
    exists_pass_of_operand hcompile hroot.kind?_ne_cond hplace store
  obtain ⟨programs, hparts, -⟩ := parts_of_compile hcompile
  obtain ⟨again, _, -, hoperand⟩ := compiledIn_of_place hparts hplace
  refine ⟨operand, middle, inner, hplace, hincludes, ⟨?_, ⟨leaf, hrest, ?_⟩, hbelow⟩, ?_⟩
  · exact ⟨_, again, hoperand, (runs_of_compile hoperand _ _).mp hincludes.evaluates⟩
  · -- What happens before the operand's turn is part of the pass, so it has not set the leaf.
    obtain ⟨early, late, rfl, hevents⟩ := hincludes.stretch
    rw [hevents] at hunset
    exact hunset.within
  · intro hnan
    rw [hresult]
    exact hroot.isNaN_finish hlength hvalue hnan _

theorem Poisoned.isNaN (h : Poisoned tree path store whole) : whole.value.isNaN = true := by
  induction path generalizing tree store whole with
  | nil =>
      obtain ⟨⟨compiler, program, hcompile, rfl⟩, ⟨leaf, hleaf, hunset⟩, -⟩ := h
      cases Option.some.inj hleaf
      exact hunset.isNaN (evaluates_of_compile hcompile store)
  | cons i path ih =>
      obtain ⟨_, _, _, -, -, hinner, hup⟩ := h.step
      exact hup (ih hinner)

theorem Includes.trans (hplace : tree.places[i]? = some (.filled operand))
    (hupper : tree.Includes store whole [i] operand middle inner)
    {last : Outcome Float} (hlower : operand.Includes middle inner before part found last) :
    tree.Includes store whole (i :: before) part found last := by
  obtain ⟨early, late, rfl, hwhole⟩ := hupper.stretch
  obtain ⟨more, less, rfl, hinner⟩ := hlower.stretch
  refine ⟨?_, hlower.evaluates, early ++ more, less ++ late, ?_, ?_⟩
  · cases hupper.arrives with
    | inside henters hhere =>
        cases hhere
        cases Option.some.inj (henters.place.symm.trans hplace)
        exact .inside henters hlower.arrives
  · rw [Store.replay_append]
  · simp [hwhole, hinner]

/-- On the way to the leaf every part of the tree has a poisoned pass. -/
theorem Poisoned.exists_inner {after : List Nat} (h : Poisoned tree (before ++ after) store whole)
    (hpart : tree.part? before = some part) :
    ∃ found inner, tree.Includes store whole before part found inner ∧
      Poisoned part after found inner := by
  induction before generalizing tree store whole with
  | nil =>
      cases Option.some.inj hpart
      obtain ⟨compiler, program, hcompile, rfl⟩ := h.runs
      refine ⟨store, _, ⟨.here, evaluates_of_compile hcompile store, [], [], rfl, ?_⟩, h⟩
      rw [List.nil_append, List.append_nil]
  | cons i before ih =>
      obtain ⟨operand, middle, inner, hplace, hincludes, hpoisoned, -⟩ := h.step
      rw [part?_cons_of_place hplace] at hpart
      obtain ⟨found, last, hlower, hlast⟩ := ih hpoisoned hpart
      exact ⟨found, last, hincludes.trans hplace hlower, hlast⟩

/-- A set stores its own value, and a slot holds it afterwards. -/
theorem Includes.stores {source : Expression} {target : Ref}
    (h : tree.Includes store whole before (.set (some source) (some target)) found inner)
    (hcompile : (compiler.compile (.set (some source) (some target))).1 = .ok program) :
    ∃ early, inner.events = early ++ [.write target inner.value] ∧
      (store.isSlot target = true → inner.store.read target = (some inner.value, inner.store)) := by
  have hrun := (runs_of_compile hcompile _ _).mp h.evaluates
  obtain ⟨operand, hevents⟩ : ∃ early, inner.events = early ++ [.write target inner.value] := by
    cases h.evaluates with
    | set hsource => exact ⟨_, rfl⟩
  refine ⟨operand, hevents, fun hslot => ?_⟩
  obtain ⟨early, late, rfl, -⟩ := h.stretch
  have hreplay : inner.store = store.replay (early ++ operand ++ [.write target inner.value]) := by
    rw [List.append_assoc, ← hevents, Store.replay_append, ← hrun]
    exact Program.replays_run program _
  rw [hreplay]
  exact Store.read_replay_write hslot _ _

/-- Let a pass over a tree that compiles come upon a value that is not set,
written by nothing in the pass, or upon a value node without a source. If it
spoils every node above it, from the lowest to the root, the pass gives NaN,
and every set on the way has stored NaN in its target, if that is a slot. What
the other operands are, and what they do, does not matter. -/
theorem unset_value_poisons (tree : Expression) (compiler : Compiler) (program : Program)
    (hcompile : (compiler.compile tree).1 = .ok program) (store : Store) (path : List Nat)
    (leaf : Expression) (hleaf : tree.part? path = some leaf)
    (hunset : leaf.Unset store (program.run store).events) (hspoils : tree.SpoilsAlong path) :
    (program.run store).value.isNaN = true ∧
      ∀ before after source target, path = before ++ after →
        tree.part? before = some (.set (some source) (some target)) →
        ∃ found inner,
          tree.Includes store (program.run store) before (.set (some source) (some target))
            found inner ∧
          inner.value.isNaN = true ∧
          (∃ early, inner.events = early ++ [.write target inner.value]) ∧
          (store.isSlot target = true →
            inner.store.read target = (some inner.value, inner.store)) := by
  have hpoisoned : Poisoned tree path store (program.run store) :=
    ⟨⟨compiler, program, hcompile, rfl⟩, ⟨leaf, hleaf, hunset⟩, hspoils⟩
  refine ⟨hpoisoned.isNaN, ?_⟩
  rintro before after source target rfl hpart
  obtain ⟨found, inner, hincludes, hinner⟩ := hpoisoned.exists_inner hpart
  obtain ⟨_, _, hset, -⟩ := hinner.runs
  obtain ⟨early, hevents, hread⟩ := hincludes.stores hset
  exact ⟨found, inner, hincludes, hinner.isNaN, ⟨early, hevents⟩, hread⟩

/-- A callback stores to the factor beside the value that is not set, and the
greatest number is taken of NaN and 5. -/
theorem unset_value_poisons_stored_maximum :
    let host := Callback.store "told" ⟨2⟩
    let product : Expression := .fold .multiply (.external ⟨2⟩) (.external ⟨0⟩) []
    let stored : Expression := .store (.fold .max product (.literal 5) []) ⟨1⟩
    let tree : Expression := .block [.call [.literal 7] (some host), stored]
    let program : Program :=
      .block [.call [.constant 7] (some host),
        .set (.fold .max (.fold .multiply (.read ⟨2⟩) [.read ⟨0⟩]) [.constant 5]) (some ⟨1⟩)]
    let store : Store := ⟨#[.slot none, .slot (some 3), .slot none]⟩
    (Compiler.compile {} tree).1 = .ok program ∧
      tree.part? [1, 0, 0, 1] = some (.external ⟨0⟩) ∧
      (external ⟨0⟩).Unset store (program.run store).events ∧ tree.SpoilsAlong [1, 0, 0, 1] ∧
      (program.run store).value.isNaN = true ∧
      ∃ found inner, tree.Includes store (program.run store) [1] stored found inner ∧
        inner.value.isNaN = true ∧ inner.store.read ⟨1⟩ = (some inner.value, inner.store) := by
  intro host product stored tree program store
  have hcompile : (Compiler.compile {} tree).1 = .ok program := rfl
  have hpart : tree.part? [1, 0, 0, 1] = some (.external ⟨0⟩) := rfl
  have hwrites : ¬ tree.Writes ⟨0⟩ := by
    rw [← Compiler.writes_of_compile hcompile]
    rintro (htarget | ⟨callback, hcallback, args, _, value, hwrite⟩)
    · simp [program, Program.uses, Program.usesAll] at htarget
    · obtain rfl : callback = host := by
        simpa [program, Program.uses, Program.usesAll] using hcallback
      simp [host, Callback.store] at hwrite
  have hunset : (external ⟨0⟩).Unset store (program.run store).events :=
    .external (vacant_of_not_writes hcompile rfl hwrites)
  have hspoils : tree.SpoilsAlong [1, 0, 0, 1] := by
    refine (spoilsAlong_cons rfl).mpr ⟨.block rfl, ?_⟩
    refine (spoilsAlong_cons rfl).mpr ⟨.set, ?_⟩
    refine (spoilsAlong_cons rfl).mpr ⟨.selection .max, ?_⟩
    exact (spoilsAlong_cons rfl).mpr ⟨.arithmetic (by decide), spoilsAlong_nil⟩
  obtain ⟨hvalue, hsets⟩ :=
    unset_value_poisons tree {} program hcompile store _ _ hpart hunset hspoils
  obtain ⟨found, inner, hincludes, hinner, -, hread⟩ := hsets [1] [0, 0, 1] _ _ rfl rfl
  exact ⟨hcompile, hpart, hunset, hspoils, hvalue, found, inner, hincludes, hinner, hread rfl⟩

end Animation.Expression
