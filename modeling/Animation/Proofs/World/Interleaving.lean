import Animation.Proofs.Program.Footprint
import Animation.Proofs.World
import Mathlib.Logic.Function.Basic

/-!
Players that have nothing to do with each other may take turns in any order.
One player spares another if it writes to nothing that the other one reads or
writes, and if whatever both of them read does not answer by how often it has
been read. Then a tick of one of them changes nothing that a tick of the other
depends on, and their events may change places; so the worlds after two orders
of ticks are the same, and so is what each player has done.
-/

namespace Animation

/-- It makes no difference how often such a cell has answered, so reading it
has no effect of its own. -/
def Derivation.Steady (derivation : Derivation) : Prop :=
  ∀ n m, derivation.rule n = derivation.rule m

/-- The cells are the same but for a count that makes no difference. -/
inductive Cell.Indistinct : Cell → Cell → Prop
  | same {cell} : Indistinct cell cell
  | steady {derivation n m} :
      derivation.Steady → Indistinct (.derived derivation n) (.derived derivation m)

theorem Cell.Indistinct.trans {first second third : Cell} (hfirst : first.Indistinct second)
    (hsecond : second.Indistinct third) : first.Indistinct third := by
  cases hfirst with
  | same => exact hsecond
  | steady hsteady =>
      cases hsecond with
      | same => exact .steady hsteady
      | steady => exact .steady hsteady

namespace Store

/-- Reading the cell has no effect of its own; its inputs are cells apart. -/
def Steady (store : Store) (cell : Ref) : Prop :=
  ∀ derivation, store.plan cell.index = some derivation → derivation.Steady

theorem lasting_indistinct : Lasting Cell.Indistinct where
  slot := by
    intro content cell
    constructor
    · rintro ⟨⟩
      rfl
    · rintro rfl
      exact .same
  derived := by
    rintro derivation answered _ (_ | hsteady)
    · exact ⟨answered, rfl, rfl, .same⟩
    · exact ⟨_, rfl, hsteady _ _, .steady hsteady⟩

/-- Only answers of a cell that are not steady make a difference to it. -/
theorem indistinct_aged {store : Store} {cell : Ref} {asked : List Nat}
    (h : cell.index ∈ asked → store.Steady cell) :
    Option.Rel Cell.Indistinct store.cells[cell.index]? (store.aged asked).cells[cell.index]? := by
  rw [getElem?_aged]
  cases hcell : store.cells[cell.index]? with
  | none => exact .none
  | some found =>
      by_cases hasked : cell.index ∈ asked
      · cases found with
        | slot content => exact .some .same
        | derived derivation answered =>
            exact .some (.steady (h hasked derivation (plan_eq_some.mpr ⟨answered, hcell⟩)))
      · rw [List.count_eq_zero.mpr hasked, Option.map_some, Cell.aged_zero]
        exact .some .same

end Store

namespace Program

/-- The program may make passes without the other one taking notice. -/
structure Spares (store : Store) (program other : Program) : Prop where
  reads : ∀ cell, program.Writes cell → ¬ other.Reads store cell
  writes : ∀ cell, program.Writes cell → ¬ other.Writes cell
  shared : ∀ cell, program.Reads store cell → other.Reads store cell → store.Steady cell

variable {store before after last : Store} {program other : Program}

theorem reads_congr (h : store.plan = before.plan) (program : Program) :
    program.Reads store = program.Reads before := by
  funext cell
  simp only [Reads, Store.reaches_congr h]

theorem Spares.congr (hspares : program.Spares store other) (h : store.plan = before.plan) :
    program.Spares before other := by
  obtain ⟨hreads, hwrites, hshared⟩ := hspares
  simp only [reads_congr h, Store.Steady, h] at hreads hshared
  exact ⟨hreads, hwrites, hshared⟩

theorem footprint_congr (h : store.plan = before.plan) (program : Program) :
    program.footprint store = program.footprint before := by
  simp only [footprint, reads_congr h]

/-- To the program, the second store is no other than the first. -/
abbrev Unmoved (program : Program) (store after : Store) : Prop :=
  store.AgreeUpTo Cell.Indistinct (program.Reads store) after

theorem unmoved_of_cells
    (h : ∀ cell, other.Reads store cell →
      Option.Rel Cell.Indistinct store.cells[cell.index]? after.cells[cell.index]?) :
    other.Unmoved store after where
  same := h
  inputs _ derivation answered hreads hcell _ hinput holder :=
    reads_of_looksAt hreads ⟨derivation, answered, hcell, hinput, holder⟩

theorem Unmoved.refl (program : Program) (store : Store) : program.Unmoved store store := by
  apply unmoved_of_cells
  intro cell _
  cases store.cells[cell.index]? with
  | none => exact .none
  | some found => exact .some .same

theorem Unmoved.trans (hplan : store.plan = after.plan) (hfirst : program.Unmoved store after)
    (hsecond : program.Unmoved after last) : program.Unmoved store last := by
  apply unmoved_of_cells
  intro cell hreads
  have hearly := hfirst.same cell hreads
  have hlate := hsecond.same cell (reads_congr hplan program ▸ hreads)
  generalize store.cells[cell.index]? = slot, after.cells[cell.index]? = middle,
    last.cells[cell.index]? = final at hearly hlate
  cases hearly with
  | none => exact hlate
  | some hearly =>
      cases hlate with
      | some hlate => exact .some (hearly.trans hlate)

theorem unmoved_happen (h : program.Spares store other) {event : Event}
    (hevent : Event.Alike (program.footprint store) event event) :
    other.Unmoved store (store.happen event) := by
  apply unmoved_of_cells
  intro cell hreads
  have hsame := (Unmoved.refl other store).same cell hreads
  cases hevent with
  | call _ => exact hsame
  | @write target _ value htarget =>
      have hne : target ≠ cell := by
        rintro rfl
        exact h.reads _ htarget.2 hreads
      rw [Store.happen, Store.getElem?_put_of_ne (Store.index_ne_of_ne hne)]
      exact hsame
  | @read source _ hsource =>
      obtain ⟨-, origin, horigin, hreaches⟩ := hsource
      rw [Store.happen, Store.read_aged]
      apply Store.indistinct_aged
      intro hasked
      exact h.shared cell
        ⟨origin, horigin, hreaches.trans (Store.reaches_of_mem_answering hasked)⟩ hreads

theorem unmoved_replay (h : program.Spares store other) {events : List Event}
    (hevents : ∀ event ∈ events, Event.Alike (program.footprint store) event event) :
    other.Unmoved store (store.replay events) := by
  induction events generalizing store with
  | nil => exact .refl other store
  | cons first rest ih =>
      obtain ⟨hfirst, hrest⟩ := List.forall_mem_cons.mp hevents
      have hplan := (Store.plan_happen first store).symm
      exact .trans hplan (unmoved_happen h hfirst)
        (ih (h.congr hplan) (footprint_congr hplan program ▸ hrest))

/-- A pass before it is nothing to the pass of a program that is spared. -/
theorem Spares.run (h : program.Spares store other) (hplain : other.Plain) :
    let after := (program.run store).store
    (other.run after).value = (other.run store).value ∧
      (other.run after).events = (other.run store).events := by
  intro after
  have hunmoved : other.Unmoved store after := by
    simp only [after, replays_run program store]
    exact unmoved_replay h fun event => event_in_footprint store store
  obtain ⟨hvalue, hevents, -⟩ := hplain.run Store.lasting_indistinct hunmoved
  exact ⟨hvalue.symm, hevents.symm⟩

/-- Passes of programs that spare each other leave the same store in either
order. -/
theorem Spares.run_comm (h : program.Spares store other) (hother : other.Spares store program)
    (hplain : program.Plain) (hplain' : other.Plain) :
    (other.run (program.run store).store).store = (program.run (other.run store).store).store := by
  have hapart : ∀ event ∈ (program.run store).events, ∀ late ∈ (other.run store).events,
      event.Apart late := by
    intro event hevent late hlate
    have hearly := event_in_footprint store store hevent
    have hlater := event_in_footprint store store hlate
    cases hearly with
    | read _ | call _ => trivial
    | write htarget =>
        cases hlater with
        | read _ | call _ => trivial
        | write hcell =>
            rintro rfl
            exact h.writes _ htarget.2 hcell.2
  rw [replays_run other, replays_run program (other.run store).store, (h.run hplain').2,
    (hother.run hplain).2, replays_run program store, replays_run other store]
  exact Store.replay_comm hapart store

theorem kept_plan : Kept fun before after => before.plan = after.plan where
  refl _ := rfl
  trans := Eq.trans
  read ref store := (Store.plan_read ref store).symm
  put ref value store := (Store.plan_put ref (some value) store).symm

theorem plan_run (program : Program) (store : Store) :
    store.plan = (program.run store).store.plan :=
  kept_plan.keeps (replays_run program) store

end Program

/-! ### Taking turns -/

/-- What a tick of one of several roots has come to. -/
structure Tick (ι : Type) where
  root : ι
  value : Float
  events : List Event

variable {ι : Type} [DecidableEq ι]

/-- The ticks of one root. -/
def Tick.own (root : ι) (ticks : List (Tick ι)) : List (Tick ι) :=
  ticks.filter (·.root = root)

/-- Has the roots tick in this order, and gives the roots and the world after
it. -/
def World.ticks : List ι → (ι → Player) → World → List (Tick ι) × (ι → Player) × World
  | [], roots, world => ([], roots, world)
  | root :: rest, roots, world =>
    let ((value, player), events, middle) := world.perform (roots root).tick
    let (later, after) := ticks rest (Function.update roots root player) middle
    (⟨root, value, events⟩ :: later, after)

/-- Callbacks of the roots look at no cells, and every root spares all others. -/
structure Independent (roots : ι → Player) (store : Store) : Prop where
  plain : ∀ root, (roots root).program.Plain
  spares : ∀ root other, root ≠ other → (roots root).program.Spares store (roots other).program

theorem Independent.tick {roots : ι → Player} {store : Store} (h : Independent roots store)
    (root : ι) :
    let player := roots root
    Independent (Function.update roots root { player with passes := player.passes + 1 })
      (player.program.run store).store := by
  intro player
  have hprogram : ∀ other,
      (Function.update roots root { player with passes := player.passes + 1 } other).program =
        (roots other).program := by
    intro other
    by_cases hother : other = root
    · subst hother
      simp only [Function.update_self, player]
    · rw [Function.update_of_ne hother]
  constructor
  · intro other
    rw [hprogram]
    exact h.plain other
  · intro first second hne
    rw [hprogram, hprogram]
    exact (h.spares first second hne).congr (player.program.plan_run store)

namespace World

variable {roots : ι → Player} {world : World}

theorem ticks_cons (root : ι) (rest : List ι) (roots : ι → Player) (world : World) :
    world.ticks (root :: rest) roots =
      let player := roots root
      let outcome := player.program.run world.store
      let later := ticks rest
        (Function.update roots root { player with passes := player.passes + 1 })
        { world with store := outcome.store }
      (⟨root, outcome.value, outcome.events⟩ :: later.1, later.2) := by
  simp only [ticks, perform_tick]

/-- Two ticks of different roots may change places. -/
theorem ticks_swap (h : Independent roots world.store) {first second : ι} (hne : first ≠ second)
    (rest : List ι) :
    ∃ (early late : Tick ι) (after : List (Tick ι) × (ι → Player) × World),
      early.root = first ∧ late.root = second ∧
      world.ticks (first :: second :: rest) roots = (early :: late :: after.1, after.2) ∧
      world.ticks (second :: first :: rest) roots = (late :: early :: after.1, after.2) := by
  have hsecond := (h.spares first second hne).run (h.plain second)
  have hfirst := (h.spares second first hne.symm).run (h.plain first)
  have hstore := (h.spares first second hne).run_comm (h.spares second first hne.symm)
    (h.plain first) (h.plain second)
  simp only [ticks_cons, Function.update_of_ne hne, Function.update_of_ne hne.symm, hsecond,
    hfirst, hstore, Function.update_comm hne]
  exact ⟨_, _, _, rfl, rfl, rfl, rfl⟩

/-- Take roots that have nothing to do with each other, and any two orders in
which each of them has the same number of ticks. The world is the same after
both, with all that is in its cells, and each root has had the same results
and has done the same, calls included. -/
theorem interleavings_agree (roots : ι → Player) (world : World)
    (h : Independent roots world.store) {schedule other : List ι} (hperm : schedule.Perm other) :
    (world.ticks schedule roots).2 = (world.ticks other roots).2 ∧
      ∀ root, Tick.own root (world.ticks schedule roots).1 =
        Tick.own root (world.ticks other roots).1 := by
  induction hperm generalizing roots world with
  | nil => exact ⟨rfl, fun _ => rfl⟩
  | cons first _ ih =>
      obtain ⟨hafter, hown⟩ := ih _ { world with store := _ } (h.tick first)
      rw [ticks_cons, ticks_cons]
      refine ⟨hafter, fun root => ?_⟩
      have hlater := hown root
      simp only [Tick.own, List.filter_cons] at hlater ⊢
      rw [hlater]
  | swap first second rest =>
      by_cases hne : second = first
      · subst hne
        exact ⟨rfl, fun _ => rfl⟩
      · obtain ⟨early, late, after, hearly, hlate, hone, htwo⟩ := ticks_swap h hne rest
        rw [hone, htwo]
        refine ⟨rfl, fun root => ?_⟩
        simp only [Tick.own, List.filter_cons, hearly, hlate]
        by_cases hroot : second = root
        · have hother : first ≠ root := fun heq => hne (hroot.trans heq.symm)
          simp only [hroot, hother, decide_true, decide_false]
          rfl
        · simp only [hroot, decide_false]
          rfl
  | trans _ _ ihfirst ihsecond =>
      obtain ⟨hafter, hown⟩ := ihfirst roots world h
      obtain ⟨hfinal, hlast⟩ := ihsecond roots world h
      exact ⟨hafter.trans hfinal, fun root => (hown root).trans (hlast root)⟩

/-- Both roots read the double of a slot. One of them sets a slot of its own,
and the other calls a callback that stores to a third one. -/
theorem interleavings_agree_shared_double :
    let store : Store :=
      ⟨#[.slot (some 3), .slot none, .slot none, .derived (.scaled ⟨0⟩ 2) 0]⟩
    let roots : Bool → Player
      | true => { program := .set (.read ⟨3⟩) (some ⟨1⟩) }
      | false => { program := .call [.read ⟨3⟩] (some (.store "log" ⟨2⟩)) }
    let world : World := { store }
    let schedule := [true, false, true]
    let other := [false, true, true]
    Independent roots store ∧ schedule.Perm other ∧
      (world.ticks schedule roots).2 = (world.ticks other roots).2 ∧
      ∀ root, Tick.own root (world.ticks schedule roots).1 =
        Tick.own root (world.ticks other roots).1 := by
  intro store roots world schedule other
  have hreads : ∀ root cell, (roots root).program.Reads store cell →
      cell = ⟨3⟩ ∨ cell = ⟨0⟩ := by
    rintro root cell ⟨source, hsource, hreaches⟩
    have hthird : source = ⟨3⟩ := by
      cases root <;> simpa [roots, Program.uses, Program.usesAll] using hsource
    subst hthird
    have hdouble : store.cells[3]? = some (.derived (.scaled ⟨0⟩ 2) 0) := rfl
    rw [Store.reaches_derived hdouble] at hreaches
    rcases hreaches with rfl | ⟨input, hinput, -, hrest⟩
    · exact .inl rfl
    · cases List.mem_singleton.mp hinput
      have hslot : store.cells[0]? = some (.slot (some 3)) := rfl
      exact .inr ((Store.reaches_slot hslot).mp hrest)
  have hwrites : ∀ root cell, (roots root).program.Writes cell →
      cell = if root then ⟨1⟩ else ⟨2⟩ := by
    rintro (_ | _) cell (htarget | ⟨callback, hcallback, args, store, value, hwrite⟩)
    · simp [roots, Program.uses, Program.usesAll] at htarget
    · simp [roots, Program.uses, Program.usesAll] at hcallback
      subst hcallback
      simp [Callback.store] at hwrite
      simp [hwrite]
    · simpa [roots, Program.uses] using htarget
    · simp [roots, Program.uses] at hcallback
  have hindependent : Independent roots store := by
    constructor
    · intro root callback hcallback
      cases root with
      | true => simp [roots, Program.uses] at hcallback
      | false =>
          simp [roots, Program.uses, Program.usesAll] at hcallback
          subst hcallback
          exact fun _ _ _ => rfl
    · intro root other hne
      constructor
      · intro cell hwrite hread
        have htarget := hwrites root cell hwrite
        subst htarget
        rcases hreads other _ hread with h | h <;> cases root <;> cases h
      · intro cell hwrite hwrite'
        have htarget := (hwrites root cell hwrite).symm.trans (hwrites other cell hwrite')
        cases root <;> cases other <;> first | exact hne rfl | cases htarget
      · intro cell hread _ derivation hderivation
        rcases hreads root cell hread with rfl | rfl
        · cases hderivation
          exact fun _ _ => rfl
        · cases hderivation
  have hperm : schedule.Perm other := List.Perm.swap false true [true]
  obtain ⟨hafter, hown⟩ := interleavings_agree roots world hindependent hperm
  exact ⟨hindependent, hperm, hafter, hown⟩

end World

end Animation
