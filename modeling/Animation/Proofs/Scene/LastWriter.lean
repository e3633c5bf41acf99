import Animation.Proofs.Scene.Loading
import Animation.Proofs.Scene.Refusal

/-!
What a slot reads is what was stored into it last, no matter by whom. Hosts
store by handles and under names, players by the passes of their programs, and
callbacks while they are being called; declaring a value, be it by hand or in
a document, stores its initial content. All these are deeds. A run has the
deeds of its moves one after the other, and at any time, also in the middle of
a pass, the deeds so far say what is in each slot.
-/

namespace Animation

/-- What may concern the content of a cell. -/
inductive Deed where
  | make (cell : Ref) (initial : Option Float)
  | put (cell : Ref) (content : Option Float)
  | event (event : Event)

namespace Deed

/-- What the deed stores into this cell, if it is about this cell at all. -/
def stored? (ref : Ref) : Deed → Option (Option Float)
  | .make cell content | .put cell content => if cell = ref then some content else none
  | .event (.write target value) => if target = ref then some (some value) else none
  | .event _ => none

/-- What these deeds, oldest first, have stored into the cell last. -/
def lastStored (ref : Ref) (deeds : List Deed) : Option (Option Float) :=
  deeds.reverse.findSome? (stored? ref)

theorem lastStored_append (ref : Ref) (earlier later : List Deed) :
    lastStored ref (earlier ++ later) = (lastStored ref later).or (lastStored ref earlier) := by
  simp only [lastStored, List.reverse_append, List.findSome?_append]

theorem lastStored_singleton (ref : Ref) (deed : Deed) :
    lastStored ref [deed] = deed.stored? ref := by
  simp [lastStored]

theorem lastStored_eq_none {ref : Ref} {deeds : List Deed} :
    lastStored ref deeds = none ↔ ∀ deed ∈ deeds, deed.stored? ref = none := by
  simp [lastStored]

/-- Deeds that agree about a cell need no order. -/
theorem lastStored_of_all {ref : Ref} {deeds : List Deed} {content : Option Float}
    (hall : ∀ deed ∈ deeds, ∀ stored, deed.stored? ref = some stored → stored = content)
    {deed : Deed} (hdeed : deed ∈ deeds) (hstored : deed.stored? ref = some content) :
    lastStored ref deeds = some content := by
  cases hlast : lastStored ref deeds with
  | none => cases (lastStored_eq_none.mp hlast deed hdeed).symm.trans hstored
  | some stored =>
      obtain ⟨last, hmember, hlast⟩ := List.exists_of_findSome?_eq_some hlast
      rw [hall last (List.mem_reverse.mp hmember) stored hlast]

end Deed

namespace Store

/-- The store `after` comes from `before` by these deeds. Slots stay slots,
and what is in them has been stored by the last deed that was about them. -/
structure Brings (deeds : List Deed) (before after : Store) : Prop where
  keeps : ∀ ref, before.isSlot ref = true → after.isSlot ref = true
  stored : ∀ ref content, after.cells[ref.index]? = some (.slot content) →
    Deed.lastStored ref deeds = some content ∨
      Deed.lastStored ref deeds = none ∧ before.cells[ref.index]? = some (.slot content)

/-- Where nothing is stored, nothing happens to slots. -/
theorem brings_unchanged {deeds : List Deed} {before after : Store}
    (hdeeds : ∀ ref, Deed.lastStored ref deeds = none)
    (h : ∀ (i : Nat) (content : Option Float), after.cells[i]? = some (.slot content) ↔
      before.cells[i]? = some (.slot content)) : Brings deeds before after where
  keeps ref := by
    rw [isSlot_iff, isSlot_iff]
    exact fun ⟨content, hslot⟩ => ⟨content, (h ref.index content).mpr hslot⟩
  stored ref content hslot := .inr ⟨hdeeds ref, (h ref.index content).mp hslot⟩

theorem Brings.refl (store : Store) : Brings [] store store :=
  brings_unchanged (fun _ => rfl) fun _ _ => .rfl

theorem Brings.append {first second : List Deed} {before middle after : Store}
    (hfirst : Brings first before middle) (hsecond : Brings second middle after) :
    Brings (first ++ second) before after where
  keeps ref h := hsecond.keeps ref (hfirst.keeps ref h)
  stored ref content hslot := by
    rw [Deed.lastStored_append]
    rcases hsecond.stored ref content hslot with hlast | ⟨hnone, hmiddle⟩
    · left
      rw [hlast, Option.some_or]
    · rw [hnone, Option.none_or]
      exact hfirst.stored ref content hmiddle

theorem brings_read (ref : Ref) (store : Store) : Brings [] store (store.read ref).2 :=
  brings_unchanged (fun _ => rfl) (slot_read ref store)

theorem brings_readAll (refs : List Ref) (store : Store) :
    Brings [] store (store.readAll refs).2 := by
  apply brings_unchanged (fun _ => rfl)
  intro i content
  rw [← unread_eq_slot, readAll, unread_readEach fun ref store => unread_read ref store i,
    unread_eq_slot]

/-- A deed that stores into one cell, and what this does. -/
theorem brings_put {deed : Deed} {cell : Ref} {content : Option Float}
    (hdeed : ∀ ref, deed.stored? ref = if cell = ref then some content else none)
    (store : Store) : Brings [deed] store (store.put cell content) where
  keeps ref := by
    rw [isSlot_iff, isSlot_iff, getElem?_put]
    rintro ⟨held, hheld⟩
    split
    · exact ⟨content, rfl⟩
    · exact ⟨held, hheld⟩
  stored ref held hslot := by
    rw [Deed.lastStored_singleton, hdeed]
    by_cases hcell : cell = ref
    · -- What is a slot now was one before and has taken the content.
      subst hcell
      rw [getElem?_put] at hslot
      split at hslot
      · cases hslot
        exact .inl (if_pos rfl)
      · next hnot => exact absurd ⟨rfl, isSlot_iff.mpr ⟨held, hslot⟩⟩ hnot
    · right
      rw [getElem?_put_of_ne (index_ne_of_ne hcell)] at hslot
      exact ⟨if_neg hcell, hslot⟩

theorem brings_event (event : Event) (store : Store) :
    Brings [.event event] store (store.happen event) := by
  cases event with
  | read source => exact brings_unchanged (fun _ => rfl) (slot_read source store)
  | write target value => exact brings_put (fun _ => rfl) store
  | call callback args => exact brings_unchanged (fun _ => rfl) fun _ _ => .rfl

theorem brings_replay (events : List Event) (store : Store) :
    Brings (events.map .event) store (store.replay events) := by
  induction events generalizing store with
  | nil => exact .refl store
  | cons event rest ih => exact (brings_event event store).append (ih _)

theorem brings_allocate (content : Option Float) (store : Store) :
    Brings [.make store.next content] store (store.allocate content).2 where
  keeps ref := by
    rw [isSlot_iff, isSlot_iff]
    rintro ⟨held, hheld⟩
    have hindex := Nat.ne_of_lt (lt_size_of_getElem? hheld)
    exact ⟨held, by simpa [allocate, Array.getElem?_push, hindex] using hheld⟩
  stored ref held hslot := by
    rw [Deed.lastStored_singleton]
    by_cases hnext : store.next = ref
    · subst hnext
      cases Array.getElem?_push_size.symm.trans hslot
      exact .inl (if_pos rfl)
    · right
      have hindex : ref.index ≠ store.cells.size := (index_ne_of_ne hnext).symm
      simp only [allocate, Array.getElem?_push, hindex, if_false] at hslot
      exact ⟨if_neg hnext, hslot⟩

theorem brings_derive (derivation : Derivation) (store : Store) :
    Brings [] store (store.derive derivation).2 := by
  apply brings_unchanged (fun _ => rfl)
  intro i content
  by_cases hindex : i = store.cells.size
  · subst hindex
    simp [derive]
  · simp [derive, Array.getElem?_push, hindex]

end Store

theorem World.brings_perform {α : Type} {pass : Pass α} (hpass : pass.Replays) (world : World) :
    Store.Brings ((world.perform pass).2.1.map .event) world.store
      (world.perform pass).2.2.store := by
  rw [perform_midway hpass]
  exact Store.brings_replay _ _

theorem World.brings_read (name : String) (world : World) :
    Store.Brings [] world.store (world.read name).2.store := by
  unfold read
  split
  · exact .refl _
  · next ref _ => exact Store.brings_read ref world.store

/-- The deeds of declaring those values of a document that are not bound; none
if the document does not compile, since then no name gets bound. -/
def World.declarations (document : Document) (world : World) : List Deed :=
  document.values.toList.filterMap fun (name, content) =>
    if world.names.containsValue name then none
    else (document.compile world).2.names.values[name]?.map (.make · content)

theorem World.mem_declarations {document : Document} {world : World} {deed : Deed} :
    deed ∈ world.declarations document ↔ ∃ name content cell,
      (name, content) ∈ document.values.toList ∧ ¬ world.names.Binds name ∧
        (document.compile world).2.names.value name = .ok cell ∧ deed = .make cell content := by
  simp only [declarations, List.mem_filterMap, Prod.exists, ← Names.containsValue_iff,
    Names.value_eq_ok]
  refine exists₂_congr fun name content => ?_
  by_cases hbound : world.names.containsValue name = true
  · simp [hbound]
  · simp [hbound, eq_comm]

/-- Every new cell is one that a name of the document has got. -/
theorem World.brings_compile (document : Document) (world : World) :
    Store.Brings (world.declarations document) world.store (document.compile world).2.store := by
  cases hcompile : (document.compile world).1 with
  | error fault =>
      have hworld := atomic_compile document world fault hcompile
      rw [hworld]
      apply Store.brings_unchanged _ fun _ _ => .rfl
      intro ref
      rw [Deed.lastStored_eq_none]
      intro deed hdeed
      obtain ⟨name, _, cell, -, hnew, hcell, -⟩ := mem_declarations.mp hdeed
      exact absurd (Names.binds_of_value (hworld ▸ hcell)) hnew
  | ok program =>
      have hworld : (document.compile world).2 = document.declareValues world := by
        rw [Document.compile_snd, hcompile]
      have hdeclares := document.declares world
      rw [← hworld] at hdeclares
      constructor
      · intro ref hslot
        obtain ⟨held, hheld⟩ := Store.isSlot_iff.mp hslot
        rw [← hdeclares.untouched _ (Store.lt_size_of_getElem? hheld)] at hheld
        exact Store.isSlot_iff.mpr ⟨held, hheld⟩
      · intro ref content hslot
        by_cases hold : ref.index < world.store.cells.size
        · right
          rw [hdeclares.untouched _ hold] at hslot
          refine ⟨Deed.lastStored_eq_none.mpr fun deed hdeed => ?_, hslot⟩
          obtain ⟨name, _, cell, -, hnew, hcell, rfl⟩ := mem_declarations.mp hdeed
          obtain ⟨hindex, -⟩ := hdeclares.fresh name cell hnew hcell
          apply if_neg
          rintro rfl
          omega
        · left
          obtain ⟨name, hnew, hcell⟩ := hdeclares.covers ref.index (Nat.le_of_not_lt hold)
            (Store.lt_size_of_getElem? hslot)
          obtain ⟨-, initial, hentry, hinitial⟩ := hdeclares.fresh name ref hnew hcell
          cases hinitial.symm.trans hslot
          refine Deed.lastStored_of_all ?_
            (mem_declarations.mpr ⟨name, content, ref, hentry, hnew, hcell, rfl⟩) (if_pos rfl)
          intro deed hdeed stored hstored
          obtain ⟨other, declared, cell, hother, hnew', hcell', rfl⟩ := mem_declarations.mp hdeed
          by_cases hsame : cell = ref
          · subst hsame
            cases hdeclares.apart name other _ hnew hnew' hcell hcell'
            rw [Std.TreeMap.mem_toList_iff_getElem?_eq_some] at hentry hother
            cases hentry.symm.trans hother
            exact (Option.some.inj ((if_pos rfl).symm.trans hstored)).symm
          · cases (if_neg hsame).symm.trans hstored

namespace Scene

/-- What a host can do: an action, or loading a document that it has. -/
inductive Move where
  | act (action : Action)
  | load (document : Document)

def move (scene : Scene) : Move → Scene
  | .act action => (scene.act action).2
  | .load document => (scene.load document).2

/-- The events of a pass of the player that an action names. -/
def passDeeds {α : Type} (pass : Player → Pass α) (player : Option Nat) (scene : Scene) :
    List Deed :=
  match scene.players[scene.playerIndex player]? with
  | none => []
  | some found => (scene.world.perform (pass found)).2.1.map .event

/-- What a move stores, and where. -/
def deeds (scene : Scene) : Move → List Deed
  | .act (.declare _ content) => [.make scene.world.store.next content]
  | .act (.put handle content) =>
    match scene.handles[handle]? with
    | none => []
    | some ref => [.put ref content]
  | .act (.assign name value) =>
    match scene.world.names.value name with
    | .error _ => []
    | .ok ref => [.put ref (some value)]
  | .act (.invoke name args) =>
    match scene.world.names.callback name with
    | .error _ => []
    | .ok callback => (scene.world.perform (Pass.invoke callback args)).2.1.map .event
  | .act (.tick player) => scene.passDeeds Player.tick player
  | .act (.play count player) => scene.passDeeds (fun found => found.play count) player
  | .act (.restart player) => scene.passDeeds Player.restart player
  | .act (.load text) =>
    match Document.ofText? text with
    | none => []
    | some document => scene.world.declarations document
  | .act (.compileKept name) =>
    match scene.documents[name]? with
    | none => []
    | some document => scene.world.declarations document
  | .load document => scene.world.declarations document
  | _ => []

/-- All deeds of several moves, and the scene after them. -/
def history : List Move → Scene → List Deed × Scene
  | [], scene => ([], scene)
  | move :: rest, scene =>
    let (later, final) := history rest (scene.move move)
    (scene.deeds move ++ later, final)

/-- The scene `after` comes from `before` by these deeds, and its handles are of
slots if those of `before` are. -/
structure Brings (deeds : List Deed) (before after : Scene) : Prop where
  store : Store.Brings deeds before.world.store after.world.store
  handles : ∀ ref ∈ after.handles, ref ∈ before.handles ∨ after.world.store.isSlot ref = true

/-- A scene that differs in its cells and perhaps in more, but not in its
handles. -/
theorem Brings.of_store {deeds : List Deed} {before after : Scene}
    (h : Store.Brings deeds before.world.store after.world.store)
    (hhandles : after.handles = before.handles) : Brings deeds before after :=
  ⟨h, fun _ href => .inl (hhandles ▸ href)⟩

theorem Brings.refl (scene : Scene) : Brings [] scene scene :=
  .of_store (.refl _) rfl

theorem Brings.append {first second : List Deed} {before middle after : Scene}
    (hfirst : Brings first before middle) (hsecond : Brings second middle after) :
    Brings (first ++ second) before after where
  store := hfirst.store.append hsecond.store
  handles ref href := by
    rcases hsecond.handles ref href with hmiddle | hslot
    · exact (hfirst.handles ref hmiddle).imp_right (hsecond.store.keeps ref)
    · exact .inr hslot

/-- What a host looks at afterwards adds nothing to the deeds. -/
theorem Brings.look {deeds : List Deed} {before middle after : Scene}
    (h : Brings deeds before middle) (hlook : Brings [] middle after) :
    Brings deeds before after := by
  simpa only [List.append_nil] using h.append hlook

theorem brings_conclude (result : Result) (events : List Event) (scene : Scene) :
    Brings [] scene (conclude result events scene).2 := by
  unfold conclude
  split
  · exact .of_store (Store.brings_readAll _ _) rfl
  · exact .refl scene

theorem brings_peekHandle (handle : Nat) (scene : Scene) :
    Brings [] scene (peekHandle handle scene).2 := by
  unfold peekHandle
  split
  · exact .refl scene
  · next ref _ => exact .of_store (Store.brings_read ref _) rfl

theorem brings_perform {α : Type} {pass : Player → Pass (α × Player)}
    (hpass : ∀ player, (pass player).Replays) (result : α → Result) (player : Option Nat)
    (scene : Scene) :
    Brings (scene.passDeeds pass player) scene (perform pass result player scene).2 := by
  cases hplayer : scene.players[scene.playerIndex player]? with
  | none =>
      simp only [perform, passDeeds, hplayer]
      exact .refl scene
  | some found =>
      simp only [perform, passDeeds, hplayer]
      refine Brings.look (.of_store ?_ ?_) (brings_conclude _ _ _)
      · exact World.brings_perform (hpass found) scene.world
      · rfl

theorem brings_load (document : Document) (scene : Scene) :
    Brings (scene.world.declarations document) scene (scene.load document).2 := by
  apply Brings.of_store
  · rw [world_load]
    exact World.brings_compile document scene.world
  · cases hcompile : (document.compile scene.world).1 with
    | ok program => rw [load_of_ok hcompile]
    | error fault => rw [load_of_error hcompile]

/-- Whatever a host does, the deeds say what has become of the slots. -/
theorem brings_act (action : Action) (scene : Scene) :
    Brings (scene.deeds (.act action)) scene (scene.act action).2 := by
  cases action with
  | declare name content =>
      have hstore := Store.brings_allocate content scene.world.store
      refine ⟨hstore, ?_⟩
      intro ref href
      rcases Array.mem_push.mp href with hold | rfl
      · exact .inl hold
      · exact .inr (by simp [act, World.declare, Store.allocate, Store.isSlot, Store.next])
  | derive name derivation =>
      exact .of_store (Store.brings_derive derivation scene.world.store) rfl
  | share name other =>
      have hshare : Brings [] scene { scene with world := (scene.world.share name other).2 } :=
        .of_store (by rw [World.store_share]; exact .refl _) rfl
      exact orRefuse_snd hshare fun _ _ => hshare
  | bindCallback name callback => exact .of_store (.refl _) rfl
  | invoke name args =>
      cases hcallback : scene.world.names.callback name with
      | error fault =>
          simp only [act, deeds, hcallback]
          exact .refl scene
      | ok callback =>
          simp only [act, deeds, hcallback, orRefuse]
          refine Brings.look (.of_store ?_ ?_) (brings_conclude _ _ _)
          · exact World.brings_perform (Pass.replays_invoke callback args) scene.world
          · rfl
  | put handle content =>
      cases hhandle : scene.handles[handle]? with
      | none =>
          simp only [act, deeds, hhandle]
          exact .refl scene
      | some ref =>
          simp only [act, deeds, hhandle]
          refine Brings.look (.of_store ?_ ?_) (brings_peekHandle _ _)
          · exact Store.brings_put (fun _ => rfl) scene.world.store
          · rfl
  | peek handle => exact brings_peekHandle handle scene
  | assign name value =>
      cases hvalue : scene.world.names.value name with
      | error fault =>
          simp only [act, deeds, attempt, World.assign, hvalue]
          exact .refl scene
      | ok ref =>
          simp only [act, deeds, attempt, World.assign, hvalue]
          exact .of_store (Store.brings_put (fun _ => rfl) scene.world.store) rfl
  | read name =>
      have hread : Brings [] scene { scene with world := (scene.world.read name).2 } :=
        .of_store (World.brings_read name scene.world) rfl
      exact orRefuse_snd hread fun _ _ => hread
  | containsValue name => exact .refl scene
  | findCallback name | describe name => exact orRefuse_snd (.refl scene) fun _ _ => .refl scene
  | snapshot => exact .of_store (Store.brings_readAll _ _) rfl
  | load text =>
      cases htext : Document.ofText? text with
      | none =>
          simp only [act, deeds, htext]
          exact .refl scene
      | some document =>
          simp only [act, deeds, htext]
          exact brings_load document scene
  | compileKept name =>
      cases hkept : scene.documents[name]? with
      | none =>
          simp only [act, deeds, hkept]
          exact .refl scene
      | some document =>
          simp only [act, deeds, hkept]
          exact brings_load document scene
  | keep name text =>
      simp only [act]
      split
      · exact .refl scene
      · exact .of_store (.refl _) rfl
  | useCompiler limits => exact .of_store (.refl _) rfl
  | compile expression route =>
      cases route with
      | fresh => exact orRefuse_snd (.refl scene) fun _ _ => .of_store (.refl _) rfl
      | reused =>
          simp only [act, Compiler.compile_snd]
          exact orRefuse_snd (.refl scene) fun _ _ => .of_store (.refl _) rfl
  | constant value => exact .of_store (.refl _) rfl
  | tick player => exact brings_perform Player.replays_tick _ player scene
  | play count player =>
      exact brings_perform (fun found => Player.replays_play found count) _ player scene
  | passes player =>
      simp only [act]
      split
      · exact .refl scene
      · exact .refl scene
  | restart player => exact brings_perform Player.replays_restart _ player scene

theorem brings_move (move : Move) (scene : Scene) :
    Brings (scene.deeds move) scene (scene.move move) := by
  cases move with
  | act action => exact brings_act action scene
  | load document => exact brings_load document scene

theorem brings_history (moves : List Move) (scene : Scene) :
    Brings (scene.history moves).1 scene (scene.history moves).2 := by
  induction moves generalizing scene with
  | nil => exact .refl scene
  | cons move rest ih => exact (brings_move move scene).append (ih _)

/-! ### All ways to read a slot -/

/-- The cell reads this content, by whatever way it is read. -/
structure Shows (scene : Scene) (ref : Ref) (content : Option Float) : Prop where
  store : scene.world.store.read ref = (content, scene.world.store)
  names : ∀ name, scene.world.names.value name = .ok ref →
    (scene.world.read name).1 = .ok content
  snapshot : ∀ entry ∈ scene.world.snapshot.1, scene.world.names.value entry.1 = .ok ref →
    entry.2 = content
  handles : ∀ handle : Nat, scene.handles[handle]? = some ref →
    (scene.peekHandle handle).1 = .reading content
  programs : ((Program.read ref).run scene.world.store).value = content.getD Number.nan

/-- Readings that are taken before it do not change what a slot reads. -/
theorem readAll_slot {bound : List (String × Ref)} {store : Store} {entry : String × Option Float}
    (hentry : entry ∈ (bound.map (·.1)).zip (store.readAll (bound.map (·.2))).1) :
    ∃ cell, (entry.1, cell) ∈ bound ∧
      ∀ content, store.cells[cell.index]? = some (.slot content) → entry.2 = content := by
  induction bound generalizing store with
  | nil => cases hentry
  | cons first rest ih =>
      obtain ⟨name, cell⟩ := first
      have hsplit : entry ∈ (name, (store.read cell).1) ::
          (rest.map (·.1)).zip ((store.read cell).2.readAll (rest.map (·.2))).1 := hentry
      rcases List.mem_cons.mp hsplit with rfl | hlater
      · refine ⟨cell, List.mem_cons_self, fun content hslot => ?_⟩
        rw [Store.read_slot hslot]
      · obtain ⟨other, hother, hreading⟩ := ih hlater
        refine ⟨other, List.mem_cons_of_mem _ hother, fun content hslot => ?_⟩
        exact hreading content ((Store.slot_read cell store _ _).mpr hslot)

theorem shows_of_slot {scene : Scene} {ref : Ref} {content : Option Float}
    (hslot : scene.world.store.cells[ref.index]? = some (.slot content)) :
    scene.Shows ref content where
  store := Store.read_slot hslot
  names name hname := by rw [World.read_of_value hname, Store.read_slot hslot]
  snapshot entry hentry hname := by
    obtain ⟨cell, hcell, hreading⟩ := readAll_slot hentry
    rw [Std.TreeMap.mem_toList_iff_getElem?_eq_some, ← Names.value_eq_ok] at hcell
    cases hcell.symm.trans hname
    exact hreading content hslot
  handles handle hhandle := by simp only [peekHandle, hhandle, Store.read_slot hslot]
  programs := by simp only [Program.run, Pass.read, Store.read_slot hslot]

/-- Where everything began with no cells, the deeds say what each slot reads. -/
theorem Brings.shows {deeds : List Deed} {start scene : Scene} (h : Brings deeds start scene)
    (hstart : start.world.store = .empty) {ref : Ref}
    (hslot : scene.world.store.isSlot ref = true) :
    ∃ content, Deed.lastStored ref deeds = some content ∧ scene.Shows ref content := by
  obtain ⟨content, hcontent⟩ := Store.isSlot_iff.mp hslot
  rcases h.store.stored ref content hcontent with hlast | ⟨-, hold⟩
  · exact ⟨content, hlast, shows_of_slot hcontent⟩
  · rw [hstart] at hold
    cases hold

/-- Take any moves of a host, from nothing on. Every slot reads what was
stored into it last, by all names and handles that stand for it, in snapshots
and in programs; so it does in the middle of a pass, where the events so far
count as well. Handles are of slots. A move that stores nothing into a slot
leaves its reading, and an action that fails leaves everything. -/
theorem last_writer_wins (snapshots : Bool) (moves : List Move) :
    let deeds := (({ snapshots } : Scene).history moves).1
    let scene := (({ snapshots } : Scene).history moves).2
    (∀ ref, scene.world.store.isSlot ref = true →
      ∃ content, Deed.lastStored ref deeds = some content ∧ scene.Shows ref content) ∧
    (∀ ref ∈ scene.handles, scene.world.store.isSlot ref = true) ∧
    (∀ root ∈ scene.players,
      (scene.world.perform root.tick).2.2 =
          scene.world.midway (scene.world.perform root.tick).2.1 ∧
        ∀ before after, (scene.world.perform root.tick).2.1 = before ++ after →
          let now : Scene := { scene with world := scene.world.midway before }
          ∀ ref, now.world.store.isSlot ref = true → ∃ content,
            Deed.lastStored ref (deeds ++ before.map .event) = some content ∧
              now.Shows ref content) ∧
    (∀ move ref, scene.world.store.isSlot ref = true →
      (∀ deed ∈ scene.deeds move, deed.stored? ref = none) →
      ∃ content, scene.Shows ref content ∧ (scene.move move).Shows ref content) ∧
    ∀ action, (scene.act action).1.isFailure = true → (scene.act action).2 = scene := by
  intro deeds scene
  have hbrings : Brings deeds { snapshots } scene := brings_history moves _
  refine ⟨fun ref => hbrings.shows rfl, ?_, ?_, ?_, excused_act scene⟩
  · intro ref href
    rcases hbrings.handles ref href with hstart | hslot
    · exact absurd hstart (Array.not_mem_empty ref)
    · exact hslot
  · intro root _
    refine ⟨World.perform_midway (Player.replays_tick root) scene.world, ?_⟩
    intro before after _ now ref hslot
    have hnow : Brings (before.map .event) scene now :=
      .of_store (Store.brings_replay before scene.world.store) rfl
    exact (hbrings.append hnow).shows rfl hslot
  · intro move ref hslot hother
    have hmove := (brings_move move scene).store
    obtain ⟨content, hafter⟩ := Store.isSlot_iff.mp (hmove.keeps ref hslot)
    have hnone := Deed.lastStored_eq_none.mpr hother
    rcases hmove.stored ref content hafter with hlast | ⟨-, hbefore⟩
    · cases hnone.symm.trans hlast
    · exact ⟨content, shows_of_slot hbefore, shows_of_slot hafter⟩

/-- A slot of two names that is assigned to, cleared, and set by a player. -/
theorem last_writer_wins_set_after_clear :
    let moves : List Move :=
      [.act (.declare "x" (some 1)), .act (.share "y" "x"), .act (.assign "y" 3),
        .act (.compile (.set (some (.literal 5)) (some ⟨0⟩)) .fresh), .act (.put 0 none),
        .act (.tick none)]
    let deeds := (({} : Scene).history moves).1
    let scene := (({} : Scene).history moves).2
    scene.world.store.isSlot ⟨0⟩ = true ∧ Deed.lastStored ⟨0⟩ deeds = some (some 5) ∧
      scene.world.names.value "y" = .ok ⟨0⟩ ∧ scene.Shows ⟨0⟩ (some 5) := by
  intro moves deeds scene
  have hslot : scene.world.store.isSlot ⟨0⟩ = true := by
    dsimp only [scene, moves]
    rfl
  have hlast : Deed.lastStored ⟨0⟩ deeds = some (some 5) := by
    dsimp only [deeds, moves]
    rfl
  have hname : scene.world.names.value "y" = .ok ⟨0⟩ := by
    dsimp only [scene, moves]
    rfl
  obtain ⟨content, hcontent, hshows⟩ := (last_writer_wins true moves).1 ⟨0⟩ hslot
  cases hlast.symm.trans hcontent
  exact ⟨hslot, hlast, hname, hshows⟩

end Scene

end Animation
