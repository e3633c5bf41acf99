import Animation.Proofs.Expression.Footprint
import Animation.Proofs.Store.Traces
import Animation.Proofs.World
import Animation.Scene.Act

/-!
What a pass leaves alone, said in terms of the tree that its program has been
compiled from. Slots change only if they are targets in the tree, or if one of
its callbacks stores to them. Derived cells never change as targets; they count
answers, and only where the tree reads them. Everything else that a host has is
as before, but for the count of the player itself.

A tree that has no targets and no callbacks and reads slots only leaves
everything alone, and therefore has the same result in every pass.
-/

namespace Animation

/-- The store `after` is what a pass of the tree may make of `before`. -/
structure Expression.Disturbs (tree : Expression) (before after : Store) : Prop where
  size : after.cells.size = before.cells.size
  slot : ∀ cell content, before.cells[cell.index]? = some (.slot content) →
    ∃ held, after.cells[cell.index]? = some (.slot held) ∧ (¬ tree.Writes cell → held = content)
  derived : ∀ cell derivation answered,
    before.cells[cell.index]? = some (.derived derivation answered) →
    ∃ more, after.cells[cell.index]? = some (.derived derivation (answered + more)) ∧
      (¬ tree.Reads before cell → more = 0)
  /-- Cells outside of the footprint are not touched at all. -/
  apart : ∀ cell, ¬ tree.Writes cell → ¬ tree.Reads before cell →
    after.cells[cell.index]? = before.cells[cell.index]?

namespace Expression

variable {tree : Expression} {compiler : Compiler} {program : Program} {store : Store}

theorem disturbs_run (h : (compiler.compile tree).1 = .ok program) (store : Store) :
    tree.Disturbs store (program.run store).store := by
  have hwrites : ∀ cell, ¬ tree.Writes cell →
      ∀ value, .write cell value ∉ (program.run store).events := by
    intro cell hcell value hvalue
    rw [← Compiler.writes_of_compile h] at hcell
    exact hcell (Program.writes_of_mem_events hvalue)
  have hreads : ∀ cell, ¬ tree.Reads store cell →
      ∀ source, .read source ∈ (program.run store).events → ¬ store.Reaches source cell := by
    rintro cell hcell source hsource hreaches
    rw [← Compiler.reads_of_compile h] at hcell
    obtain ⟨origin, horigin, hrest⟩ := Program.reads_of_mem_events store hsource
    exact hcell ⟨origin, horigin, hrest.trans hreaches⟩
  rw [Program.replays_run program store]
  constructor
  · exact (World.kept_size.replay _ store).symm
  · intro cell content hcell
    refine ⟨_, Store.getElem?_replay_slot hcell _, fun hcell' => ?_⟩
    have hnone : Event.offered cell (program.run store).events = [] :=
      List.eq_nil_iff_forall_not_mem.mpr fun value hvalue =>
        hwrites cell hcell' value (Event.mem_offered.mp hvalue)
    rw [hnone]
    rfl
  · intro cell derivation answered hcell
    obtain ⟨more, hmore, hidle⟩ := Store.getElem?_replay_derived hcell _
    exact ⟨more, hmore, fun hcell' => hidle (hreads cell hcell')⟩
  · intro cell hwrite hread
    exact Store.getElem?_replay_of_apart (hwrites cell hwrite) (hreads cell hread)

/-! ### Trees that only look at slots -/

/-- The tree has no set nodes and no call nodes, and every cell it reads is a
slot. -/
structure Idle (tree : Expression) (store : Store) : Prop where
  kinds : ∀ part, Tree.Contains tree part → part.kind? ≠ some .set ∧ part.kind? ≠ some .call
  slots : ∀ source, tree.Uses (.read source) → store.isSlot source = true

theorem Idle.not_write (h : tree.Idle store) (target : Ref) : ¬ tree.Uses (.write target) := by
  rintro ⟨part, hpart, huse⟩
  exact (h.kinds part hpart).1 (kind?_of_write huse)

theorem Idle.not_call (h : tree.Idle store) (callback : Callback) :
    ¬ tree.Uses (.call callback) := by
  rintro ⟨part, hpart, huse⟩
  exact (h.kinds part hpart).2 (kind?_of_call huse)

/-- Such a tree does nothing but read slots. -/
theorem Idle.event (h : tree.Idle store) (hcompile : (compiler.compile tree).1 = .ok program)
    {event : Event} (hevent : event ∈ (program.run store).events) :
    ∃ source, event = .read source ∧ store.isSlot source = true := by
  cases event with
  | read source =>
      obtain ⟨origin, horigin, hreaches⟩ := Program.reads_of_mem_events store hevent
      have hslot := h.slots origin ((Compiler.mem_uses_iff hcompile).mp horigin)
      obtain ⟨content, hcontent⟩ := Store.isSlot_iff.mp hslot
      cases (Store.reaches_slot hcontent).mp hreaches
      exact ⟨_, rfl, hslot⟩
  | write target value =>
      have hwrites := Program.writes_of_mem_events hevent
      rw [Compiler.writes_of_compile hcompile] at hwrites
      rcases hwrites with htarget | ⟨callback, hcallback, -⟩
      · exact absurd htarget (h.not_write target)
      · exact absurd hcallback (h.not_call callback)
  | call callback args =>
      have hcallback := (Compiler.mem_uses_iff hcompile).mp (Program.call_mem_uses hevent)
      exact absurd hcallback (h.not_call callback)

theorem Idle.store_run (h : tree.Idle store) (hcompile : (compiler.compile tree).1 = .ok program) :
    (program.run store).store = store := by
  rw [Program.replays_run program store]
  apply Store.replay_eq_self
  intro event hevent
  obtain ⟨source, rfl, hslot⟩ := h.event hcompile hevent
  obtain ⟨content, hcontent⟩ := Store.isSlot_iff.mp hslot
  exact congrArg Prod.snd (Store.read_slot hcontent)

/-- It has the same pass again and again. -/
theorem Idle.runTimes (h : tree.Idle store) (hcompile : (compiler.compile tree).1 = .ok program)
    (count : Nat) :
    program.runTimes count store =
      ⟨List.replicate count (program.run store).value, store,
        (List.replicate count (program.run store).events).flatten⟩ := by
  induction count with
  | zero => rfl
  | succ count ih =>
      simp only [Program.runTimes, Pass.bind_apply, Pass.map_apply, h.store_run hcompile, ih]
      rfl

end Expression

namespace Scene

theorem act_tick {scene : Scene} {index : Nat} {player : Player}
    (hplayer : scene.players[index]? = some player) (hquiet : scene.snapshots = false) :
    let outcome := player.program.run scene.world.store
    scene.act (.tick (some index)) =
      (.evaluated (.one outcome.value) (Event.invocations outcome.events) none,
        { scene with
          world := { scene.world with store := outcome.store }
          players := scene.players.setIfInBounds index
            { player with passes := player.passes + 1 } }) := by
  simp only [act, perform, playerIndex, Option.getD_some, hplayer, World.perform_tick, conclude,
    hquiet]
  rfl

theorem act_play {scene : Scene} {index : Nat} {player : Player}
    (hplayer : scene.players[index]? = some player) (hquiet : scene.snapshots = false)
    (count : Nat) :
    let outcome := player.program.runTimes count scene.world.store
    scene.act (.play count (some index)) =
      (.evaluated (.many outcome.value) (Event.invocations outcome.events) none,
        { scene with
          world := { scene.world with store := outcome.store }
          players := scene.players.setIfInBounds index
            { player with passes := player.passes + count } }) := by
  simp only [act, perform, playerIndex, Option.getD_some, hplayer, World.perform, Player.play,
    Pass.bind_apply, Pass.pure_apply, List.append_nil, conclude, hquiet]
  rfl

/-- Take a player of a program that a tree has compiled to, and let it make one
pass with no snapshot after it. The cells are disturbed as the tree has it, one
pass is counted, and all else in the scene is the same: names, handles, kept
documents, the compiler and every other player. If the tree looks at slots and
does no more, any number of passes have all the same result, call nothing and
leave the whole world as it is. -/
theorem tick_disturbs (tree : Expression) (compiler : Compiler) (program : Program)
    (hcompile : (compiler.compile tree).1 = .ok program) (scene : Scene) (index passes : Nat)
    (hplayer : scene.players[index]? = some { program, passes })
    (hquiet : scene.snapshots = false) :
    let after := (scene.act (.tick (some index))).2
    tree.Disturbs scene.world.store after.world.store ∧
      after = { scene with
        world := { scene.world with store := after.world.store }, players := after.players } ∧
      after.players[index]? = some { program, passes := passes + 1 } ∧
      (∀ other, other ≠ index → after.players[other]? = scene.players[other]?) ∧
      (tree.Idle scene.world.store → ∃ value, ∀ count,
        scene.act (.play count (some index)) =
          (.evaluated (.many (List.replicate count value)) [] none,
            { scene with
              players := scene.players.setIfInBounds index
                { program, passes := passes + count } })) := by
  intro after
  have hafter : after = { scene with
      world := { scene.world with store := (program.run scene.world.store).store }
      players := scene.players.setIfInBounds index { program, passes := passes + 1 } } :=
    congrArg Prod.snd (act_tick hplayer hquiet)
  have hindex : index < scene.players.size := (Array.getElem?_eq_some_iff.mp hplayer).1
  rw [hafter]
  refine ⟨Expression.disturbs_run hcompile _, rfl, ?_, ?_, ?_⟩
  · simp [hindex]
  · intro other hother
    exact Array.getElem?_setIfInBounds_ne (Ne.symm hother)
  · intro hidle
    refine ⟨(program.run scene.world.store).value, fun count => ?_⟩
    have hcalls : Event.invocations
        (List.replicate count (program.run scene.world.store).events).flatten = [] := by
      apply List.filterMap_eq_nil_iff.mpr
      intro event hevent
      obtain ⟨events, hevents, hevent⟩ := List.mem_flatten.mp hevent
      rw [List.eq_of_mem_replicate hevents] at hevent
      obtain ⟨source, rfl, -⟩ := hidle.event hcompile hevent
      rfl
    rw [act_play hplayer hquiet]
    simp only [hidle.runTimes hcompile, hcalls]

/-- A pass that offers a number to a counter, which takes none, and then sets a
slot to the double of its own content. -/
theorem tick_disturbs_derived_target :
    let tree : Expression :=
      .block [.store (.literal 5) ⟨1⟩, .store (.external ⟨2⟩) ⟨0⟩]
    let program : Program :=
      .block [.set (.constant 5) (some ⟨1⟩), .set (.read ⟨2⟩) (some ⟨0⟩)]
    let store : Store :=
      ⟨#[.slot (some 7), .derived .counter 4, .derived (.scaled ⟨0⟩ 2) 0, .slot none]⟩
    let bystander : Player := { program := .read ⟨1⟩, passes := 9 }
    let scene : Scene :=
      { world := { store }, players := #[bystander, { program, passes := 2 }], snapshots := false }
    let after := (scene.act (.tick (some 1))).2
    (Compiler.compile {} tree).1 = .ok program ∧
      scene.players[1]? = some { program, passes := 2 } ∧
      tree.Disturbs store after.world.store ∧ after.players[0]? = some bystander ∧
      after.players[1]? = some { program, passes := 3 } ∧
      after.world.store.cells[1]? = some (.derived .counter 4) ∧
      after.world.store.cells[3]? = some (.slot none) := by
  intro tree program store bystander scene after
  have hcompile : (Compiler.compile {} tree).1 = .ok program := rfl
  have hplayer : scene.players[1]? = some { program, passes := 2 } := rfl
  obtain ⟨hdisturbs, -, hcount, hothers, -⟩ :=
    tick_disturbs tree {} program hcompile scene 1 2 hplayer rfl
  have hreads : ∀ cell, tree.Reads store cell → cell = ⟨2⟩ ∨ cell = ⟨0⟩ := by
    intro cell hcell
    rw [← Compiler.reads_of_compile hcompile] at hcell
    obtain ⟨source, hsource, hreaches⟩ := hcell
    have hdouble : source = ⟨2⟩ := by
      simpa [program, Program.uses, Program.usesAll] using hsource
    subst hdouble
    have hcell : store.cells[2]? = some (.derived (.scaled ⟨0⟩ 2) 0) := rfl
    rcases (Store.reaches_derived hcell).mp hreaches with rfl | ⟨input, hinput, -, hrest⟩
    · exact .inl rfl
    · cases List.mem_singleton.mp hinput
      have hslot : store.cells[0]? = some (.slot (some 7)) := rfl
      exact .inr ((Store.reaches_slot hslot).mp hrest)
  have hwrites : ∀ cell, tree.Writes cell → cell = ⟨1⟩ ∨ cell = ⟨0⟩ := by
    intro cell hcell
    rw [← Compiler.writes_of_compile hcompile] at hcell
    rcases hcell with htarget | ⟨callback, hcallback, -⟩
    · simpa [program, Program.uses, Program.usesAll] using htarget
    · simp [program, Program.uses, Program.usesAll] at hcallback
  refine ⟨hcompile, hplayer, hdisturbs, hothers 0 (by decide), hcount, ?_, ?_⟩
  · obtain ⟨more, hmore, hidle⟩ := hdisturbs.derived ⟨1⟩ .counter 4 rfl
    have hnone : more = 0 := hidle fun hread => by
      rcases hreads _ hread with h | h <;> cases h
    rw [hnone] at hmore
    exact hmore
  · apply hdisturbs.apart ⟨3⟩
    · intro hwrite
      rcases hwrites _ hwrite with h | h <;> cases h
    · intro hread
      rcases hreads _ hread with h | h <;> cases h

end Scene

end Animation
