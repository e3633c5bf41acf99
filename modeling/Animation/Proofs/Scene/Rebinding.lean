import Animation.Proofs.Scene.Closed
import Animation.Proofs.Scene.Refusal

/-!
Names are looked up when a tree is compiled and not again. A host that gives
names another meaning, by whatever means, makes cells and changes the table of
names, but it does not touch the cells that are there. Players that it has had
before, and handles, do not reach any others; so they go on as if nothing had
happened. What they write shows under a name's new meaning only where a
reading of it goes through the cell that is written to.
-/

namespace Animation

/-- What gives a name another meaning. -/
inductive Rebinding where
  | declare (name : String) (content : Option Float)
  | derive (name : String) (derivation : Derivation)
  /-- Binds a name to any cell, also one that has a name already. -/
  | bind (name : String) (cell : Ref)
  | bindCallback (name : String) (callback : Callback)
  /-- Loads a document, which may fail. -/
  | load (document : Document)

namespace World

def rebind (world : World) : Rebinding → World
  | .declare name content => (world.declare name content).2
  | .derive name derivation => (world.derive name derivation).2
  | .bind name cell => { world with names := world.names.insertValue name cell }
  | .bindCallback name callback =>
    { world with names := world.names.insertCallback name callback }
  | .load document => (document.compile world).2

/-- Cells that are there stay as they are, whatever happens to the names. -/
theorem untouched_rebind (world : World) (change : Rebinding) {i : Nat}
    (hi : i < world.store.cells.size) :
    (world.rebind change).store.cells[i]? = world.store.cells[i]? := by
  cases change with
  | declare name content =>
      simp [rebind, declare, Store.allocate, Array.getElem?_push, Nat.ne_of_lt hi]
  | derive name derivation =>
      simp [rebind, derive, Store.derive, Array.getElem?_push, Nat.ne_of_lt hi]
  | bind name cell | bindCallback name callback => rfl
  | load document =>
      simp only [rebind, Document.compile_snd]
      split
      · exact (document.declares world).untouched i hi
      · rfl

theorem grows_rebind (world : World) (change : Rebinding) :
    world.store.cells.size ≤ (world.rebind change).store.cells.size := by
  cases change with
  | declare name content => simp [rebind, declare, Store.allocate]
  | derive name derivation => simp [rebind, derive, Store.derive]
  | bind name cell | bindCallback name callback => exact Nat.le_refl _
  | load document => exact (follows_compile document world).grows

end World

namespace Scene

/-- What a host does with players and handles that it has, or to names. -/
inductive Turn where
  | tick (player : Nat)
  | peek (handle : Nat)
  | put (handle : Nat) (content : Option Float)
  | rebind (change : Rebinding)

def Turn.isUse : Turn → Bool
  | .rebind _ => false
  | _ => true

/-- What the host learns from a turn: all that a pass does, or a reading. -/
inductive Finding where
  | pass (value : Float) (events : List Event)
  | reading (content : Option Float)

/-- A turn with the players and handles of the scene `held`, in a world that
may have gone on since. -/
def turn (held : Scene) : Turn → World → List Finding × World
  | .tick player, world =>
    match held.players[player]? with
    | none => ([], world)
    | some player =>
      let ((value, _), events, after) := world.perform player.tick
      ([.pass value events], after)
  | .peek handle, world =>
    match held.handles[handle]? with
    | none => ([], world)
    | some ref =>
      let (reading, store) := world.store.read ref
      ([.reading reading], { world with store })
  | .put handle content, world =>
    match held.handles[handle]? with
    | none => ([], world)
    | some ref => ([], { world with store := world.store.put ref content })
  | .rebind change, world => ([], world.rebind change)

/-- All findings of several turns, and the world after them. -/
def turns (held : Scene) : List Turn → World → List Finding × World
  | [], world => ([], world)
  | turn :: rest, world =>
    let (found, middle) := held.turn turn world
    let (others, after) := turns held rest middle
    (found ++ others, after)

/-! ### With and without rebindings -/

/-- The worlds have the cells of the scene `held` in common. -/
structure Alongside (held : Scene) (world other : World) : Prop where
  common : world.store.Agree (fun ref => ref.index < held.world.store.cells.size) other.store
  size : held.world.store.cells.size ≤ world.store.cells.size

variable {held : Scene} {world other : World}

theorem Alongside.rebind (h : held.Alongside world other) (change : Rebinding) :
    held.Alongside (world.rebind change) other where
  common := by
    apply Store.agree_below
    intro i hi
    rw [world.untouched_rebind change (Nat.lt_of_lt_of_le hi h.size)]
    exact h.common.same ⟨i⟩ hi
  size := Nat.le_trans h.size (world.grows_rebind change)

/-- A turn that is no rebinding finds the same in both worlds. -/
theorem Alongside.use (hheld : held.Closed) (h : held.Alongside world other) {turn : Turn}
    (huse : turn.isUse = true) :
    (held.turn turn world).1 = (held.turn turn other).1 ∧
      held.Alongside (held.turn turn world).2 (held.turn turn other).2 := by
  cases turn with
  | rebind change => cases huse
  | tick player =>
      cases hplayer : held.players[player]? with
      | none =>
          simp only [Scene.turn, hplayer]
          exact ⟨trivial, h⟩
      | some root =>
          have hwithin := hheld.players root (Array.mem_of_getElem? hplayer)
          obtain ⟨hvalue, hevents, hafter⟩ := hwithin.run h.common
          have hsize := World.kept_size.keeps (Program.replays_run root.program) world.store
          simp only [Scene.turn, hplayer, World.perform_tick, hvalue, hevents]
          exact ⟨trivial, hafter, hsize ▸ h.size⟩
  | peek handle =>
      cases href : held.handles[handle]? with
      | none =>
          simp only [Scene.turn, href]
          exact ⟨trivial, h⟩
      | some ref =>
          have hbound := hheld.handles ref (Array.mem_of_getElem? href)
          obtain ⟨hreading, hafter⟩ := h.common.read hbound
          simp only [Scene.turn, href, hreading]
          exact ⟨trivial, hafter, (Store.size_read ref world.store).symm ▸ h.size⟩
  | put handle content =>
      cases href : held.handles[handle]? with
      | none =>
          simp only [Scene.turn, href]
          exact ⟨trivial, h⟩
      | some ref =>
          simp only [Scene.turn, href]
          exact ⟨trivial, h.common.put ref content,
            (Store.size_put ref content world.store).symm ▸ h.size⟩

theorem Alongside.turns (hheld : held.Closed) (all : List Turn) (h : held.Alongside world other) :
    (held.turns all world).1 = (held.turns (all.filter Turn.isUse) other).1 := by
  induction all generalizing world other with
  | nil => rfl
  | cons turn rest ih =>
      cases huse : turn.isUse with
      | true =>
          obtain ⟨hfound, hafter⟩ := h.use hheld huse
          simp only [List.filter_cons, huse, if_true, Scene.turns, hfound, ih hafter]
      | false =>
          cases turn with
          | rebind change =>
              simp only [List.filter_cons, Turn.isUse, Bool.false_eq_true, if_false, Scene.turns,
                Scene.turn, List.nil_append]
              exact ih (h.rebind change)
          | tick _ | peek _ | put _ _ => cases huse

/-! ### What shows under the new meaning of a name -/

theorem kept_looksAt :
    Kept fun before after => ∀ ref input, after.LooksAt ref input → before.LooksAt ref input where
  refl _ _ _ h := h
  trans hfirst hsecond ref input h := hfirst ref input (hsecond ref input h)
  read cell store ref input := by
    rintro ⟨derivation, answered, hcell, hinput⟩
    obtain ⟨earlier, hearlier⟩ :=
      (Store.derived_read cell store ref.index derivation).mp ⟨answered, hcell⟩
    exact ⟨derivation, earlier, hearlier, hinput⟩
  put _ _ _ _ _ := fun ⟨derivation, answered, hcell, hinput⟩ =>
    ⟨derivation, answered, Store.derived_put hcell, hinput⟩

/-- No event makes a reading go through other cells than it did before. -/
theorem reaches_of_replay {events : List Event} {store : Store} {ref input : Ref}
    (h : (store.replay events).Reaches ref input) : store.Reaches ref input :=
  Relation.ReflTransGen.mono (kept_looksAt.replay events store) _ _ h

/-- Take any scene that a host can get to, and any turns with the players and
handles that it has by then, between which names get other meanings. The
results and all events of the passes, and all that is read by the handles, are
the same without the rebindings. And at any time a write of one of these
players to a cell does not show under a name whose reading does not go through
this cell. -/
theorem rebinding_unseen (scene : Scene) (hscene : scene.Reachable) (all : List Turn) :
    (scene.turns all scene.world).1 = (scene.turns (all.filter Turn.isUse) scene.world).1 ∧
      let world := (scene.turns all scene.world).2
      ∀ root ∈ scene.players, ∀ before old value after,
        (world.perform root.tick).2.1 = before ++ .write old value :: after →
        ∀ name fresh, world.names.value name = .ok fresh → ¬ world.store.Reaches fresh old →
          ((world.midway (before ++ [.write old value])).read name).1 =
            ((world.midway before).read name).1 := by
  have hstart : scene.Alongside scene.world scene.world :=
    ⟨Store.agree_below fun _ _ => rfl, Nat.le_refl _⟩
  refine ⟨hstart.turns hscene.closed all, ?_⟩
  intro world root _ before old value after _ name fresh hfresh hreaches
  have hapart : ¬ (world.store.replay before).Reaches fresh old := fun h =>
    hreaches (reaches_of_replay h)
  have hread : ∀ events, ((world.midway events).read name).1 =
      .ok ((world.store.replay events).read fresh).1 := fun events => World.read_of_value hfresh
  rw [hread, hread, Store.replay_append]
  exact congrArg Except.ok (Store.read_put_of_not_reaches hapart (some value))

/-- A name declared once more while a root writes to its old value. -/
theorem rebinding_unseen_declared_again :
    let write : Expression := .set (some (.literal 5)) (some ⟨0⟩)
    let declared := (({} : Scene).act (.declare "x" (some 1))).2
    let scene := (declared.act (.compile write .fresh)).2
    let all : List Turn := [.tick 0, .rebind (.declare "x" (some 7)), .tick 0, .peek 0]
    let world := (scene.turns all scene.world).2
    let root : Player := { program := .set (.constant 5) (some ⟨0⟩) }
    scene.Reachable ∧ root ∈ scene.players ∧
      (world.perform root.tick).2.1 = [] ++ .write ⟨0⟩ 5 :: [] ∧
      world.names.value "x" = .ok ⟨1⟩ ∧ ¬ world.store.Reaches ⟨1⟩ ⟨0⟩ ∧
      (scene.turns all scene.world).1 = (scene.turns [.tick 0, .tick 0, .peek 0] scene.world).1 ∧
      ((world.midway ([] ++ [.write ⟨0⟩ 5])).read "x").1 = ((world.midway []).read "x").1 := by
  intro write declared scene all world root
  have hwrite : write.Within declared.world.store.cells.size :=
    .set (.some .literal) (.some ⟨rfl, by decide⟩)
  have hscene : scene.Reachable := by
    have hdeclared : declared.Reachable := .act (.start true) trivial
    exact hdeclared.act hwrite
  have hroot : root ∈ scene.players := Array.mem_of_getElem? (i := 0) rfl
  have hevents : (world.perform root.tick).2.1 = [] ++ .write ⟨0⟩ 5 :: [] := by
    dsimp only [world, all, scene, declared, write, root]
    rfl
  have hname : world.names.value "x" = .ok ⟨1⟩ := by
    dsimp only [world, all, scene, declared, write]
    rfl
  have hreaches : ¬ world.store.Reaches ⟨1⟩ ⟨0⟩ := by
    have hslot : world.store.cells[1]? = some (.slot (some 7)) := by
      dsimp only [world, all, scene, declared, write]
      rfl
    rw [Store.reaches_slot hslot]
    decide
  obtain ⟨hfindings, hreadings⟩ := rebinding_unseen scene hscene all
  exact ⟨hscene, hroot, hevents, hname, hreaches, hfindings,
    hreadings root hroot [] ⟨0⟩ 5 [] hevents "x" ⟨1⟩ hname hreaches⟩

/-- A name may well come to stand for another cell and yet show what is written
to its old one: here it is bound to the double of what it stood for. -/
theorem write_shows_through_double :
    let run := Record.run
      [.declare "x" none, .compile (.set (some (.literal 5)) (some ⟨0⟩)) .fresh,
        .derive "x" (.scaled ⟨0⟩ 2), .read "x", .tick none, .read "x"]
      { scene := { snapshots := false } }
    run.1 = [.handle 0, .root 0, .done, .reading none, .evaluated (.one 5) [] none,
      .reading (some (5 * 2))] ∧
      run.2.scene.handles = #[⟨0⟩] ∧ run.2.scene.world.names.value "x" = .ok ⟨1⟩ :=
  ⟨rfl, rfl, rfl⟩

end Scene

end Animation
