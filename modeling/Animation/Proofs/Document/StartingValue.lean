import Animation.Player
import Animation.Proofs.Closed
import Animation.Proofs.Document.Loading
import Animation.Proofs.World.Likeness

/-!
A declared value can get its starting value in three ways: in the document, by
a host that declares the name first, and by a host that assigns to the name
before the first pass. The cells of the three worlds are not the same ones,
since each way makes them in an order of its own. But cells that are new in
two of these worlds and have the same name hold the same, no matter where they
are, and all other cells are the same. This is kept by every pass and every
snapshot, so no host can tell the three ways apart.
-/

namespace Animation

/-! ### What a host sees -/

/-- The calls among these events, with all that there is to the callbacks. -/
def Event.calls (events : List Event) : List (Callback × List Float) :=
  events.filterMap fun
    | .call callback args => some (callback, args)
    | _ => none

theorem Event.calls_eq {like : Likeness}
    (hcalls : ∀ {callback twin}, like.calls callback twin → callback = twin)
    {events twins : List Event} (h : List.Forall₂ (Event.Alike like) events twins) :
    calls events = calls twins := by
  induction h with
  | nil => rfl
  | cons hevent _ ih =>
      cases hevent with
      | read _ | write _ => exact ih
      | call hcallback =>
          cases hcalls hcallback
          exact congrArg (_ :: ·) ih

/-- What a host sees of a pass: its result, the calls that it makes, and the
readings of all names afterwards if the host takes a snapshot. -/
structure Sight where
  value : Float
  calls : List (Callback × List Float)
  readings : Option (List (String × Option Float))

namespace World

def survey (snapshots : Bool) (world : World) :
    Option (List (String × Option Float)) × World :=
  if snapshots then (some world.snapshot.1, world.snapshot.2) else (none, world)

/-- Has the player make passes, and looks at each of them. -/
def watch (snapshots : Bool) : Nat → Player → World → List Sight
  | 0, _, _ => []
  | count + 1, player, world =>
    let ((value, player), events, world) := world.perform player.tick
    let (readings, world) := world.survey snapshots
    ⟨value, Event.calls events, readings⟩ :: watch snapshots count player world

theorem watch_succ (snapshots : Bool) (count : Nat) (player : Player) (world : World) :
    watch snapshots (count + 1) player world =
      let (value, events, after) := world.perform player.program.run
      let (readings, final) := after.survey snapshots
      ⟨value, Event.calls events, readings⟩ ::
        watch snapshots count { player with passes := player.passes + 1 } final := by
  simp only [watch, perform_tick]
  rfl

variable {like : Likeness} {stores : Store → Store → Prop} {world other : World}

theorem Alike.survey (hpreserves : like.Preserves stores) (h : world.Alike like stores other)
    (snapshots : Bool) :
    (world.survey snapshots).1 = (other.survey snapshots).1 ∧
      (world.survey snapshots).2.Alike like stores (other.survey snapshots).2 := by
  cases snapshots with
  | false => exact ⟨rfl, h⟩
  | true =>
      obtain ⟨hreadings, hafter⟩ := h.snapshot hpreserves
      exact ⟨congrArg some hreadings, hafter⟩

/-- In worlds that are alike, programs that are alike look the same for as
long as one likes, if no callback is mistaken for another. -/
theorem Alike.watch (hpreserves : like.Preserves stores)
    (hcalls : ∀ {callback twin}, like.calls callback twin → callback = twin)
    {program twin : Program} (hprogram : Program.Alike like program twin)
    (h : world.Alike like stores other) (snapshots : Bool) (count passes : Nat) :
    world.watch snapshots count { program, passes } =
      other.watch snapshots count { program := twin, passes } := by
  induction count generalizing world other passes with
  | zero => rfl
  | succ count ih =>
      obtain ⟨hvalue, hevents, hafter⟩ := h.perform (hprogram.run hpreserves)
      obtain ⟨hreadings, hfinal⟩ := hafter.survey hpreserves snapshots
      have hsame : Event.calls (world.perform program.run).2.1 =
          Event.calls (other.perform twin.run).2.1 := Event.calls_eq hcalls hevents
      rw [watch_succ, watch_succ]
      simp only [hvalue, hsame, hreadings]
      rw [ih hfinal]

end World

namespace Document

/-! ### Worlds with the same values besides -/

theorem Loaded.slot_of_new {document : Document} {before after : World}
    (h : document.Loaded before after) {name : String} {cell : Ref}
    (hnew : ¬ before.names.Binds name) (hcell : after.names.value name = .ok cell) :
    ∃ content, document.values[name]? = some content ∧
      before.store.cells.size ≤ cell.index ∧
      after.store.cells[cell.index]? = some (.slot content) ∧
      ∀ other, after.names.value other = .ok cell → other = name := by
  have hdeclared : name ∈ document.values :=
    ((h.binds name).mp (Names.binds_of_value hcell)).resolve_left hnew
  obtain ⟨content, hcontent⟩ :=
    Option.isSome_iff_exists.mp (Std.TreeMap.mem_iff_isSome_getElem?.mp hdeclared)
  obtain ⟨found, hfound, hindex, hslot, hread, honly⟩ := h.fresh name content hnew hcontent
  cases hfound.symm.trans hcell
  obtain ⟨held, hheld⟩ := Store.isSlot_iff.mp hslot
  rw [Store.read_slot hheld] at hread
  cases congrArg Prod.fst hread
  exact ⟨content, hcontent, hindex, hheld, honly⟩

theorem Loaded.read {document : Document} {before after : World}
    (h : document.Loaded before after) {name : String} {content : Option Float}
    (hnew : ¬ before.names.Binds name) (hcontent : document.values[name]? = some content) :
    (after.read name).1 = .ok content := by
  obtain ⟨cell, hcell, -, -, hread, -⟩ := h.fresh name content hnew hcontent
  simp only [World.read, hcell, hread]

section

variable (before first second : World)

/-- The cells of two worlds that have the same name, which was not bound
before. -/
def Twins (cell twin : Ref) : Prop :=
  ∃ name, ¬ before.names.Binds name ∧
    first.names.value name = .ok cell ∧ second.names.value name = .ok twin

/-- Older cells stand for themselves and newer ones for those of the same
name. -/
def Counterparts (cell twin : Ref) : Prop :=
  (cell = twin ∧ cell.index < before.store.cells.size) ∨ Twins before first second cell twin

def pairing : Likeness where
  reads := Counterparts before first second
  writes := Counterparts before first second
  calls callback twin := callback = twin ∧ callback.Within before.store.cells.size

/-- The older cells are the same, and the newer ones are slots that hold the
same. -/
structure Paired (store other : Store) : Prop where
  old : store.Agree (fun ref => ref.index < before.store.cells.size) other
  new : ∀ cell twin, Twins before first second cell twin → ∃ content,
    store.cells[cell.index]? = some (.slot content) ∧
      other.cells[twin.index]? = some (.slot content)

end

variable {document : Document} {before first second : World}

theorem preserves_pairing (hfirst : document.Loaded before first)
    (hsecond : document.Loaded before second) :
    (pairing before first second).Preserves (Paired before first second) where
  read := by
    rintro source twin store other (⟨rfl, hold⟩ | hnew) hstores
    · obtain ⟨hreading, hafter⟩ := hstores.old.read hold
      refine ⟨hreading, hafter, ?_⟩
      intro cell twin htwins
      obtain ⟨content, hcell, htwin⟩ := hstores.new cell twin htwins
      exact ⟨content, (Store.slot_read source store _ _).mpr hcell,
        (Store.slot_read source other _ _).mpr htwin⟩
    · obtain ⟨content, hcell, htwin⟩ := hstores.new source twin hnew
      rw [Store.read_slot hcell, Store.read_slot htwin]
      exact ⟨rfl, hstores⟩
  put := by
    rintro target twin store other (⟨rfl, hold⟩ | ⟨name, hname, htarget, htwin⟩) hstores content
    · refine ⟨hstores.old.put target content, ?_⟩
      rintro cell twin ⟨name, hname, hcell, htwin⟩
      obtain ⟨_, -, hcellNew, -, -⟩ := hfirst.slot_of_new hname hcell
      obtain ⟨_, -, htwinNew, -, -⟩ := hsecond.slot_of_new hname htwin
      obtain ⟨held, hheld, hheld'⟩ := hstores.new cell twin ⟨name, hname, hcell, htwin⟩
      exact ⟨held, by rw [Store.getElem?_put_of_ne (by omega), hheld],
        by rw [Store.getElem?_put_of_ne (by omega), hheld']⟩
    · obtain ⟨_, -, htargetNew, -, hone⟩ := hfirst.slot_of_new hname htarget
      obtain ⟨_, -, htwinNew, -, htwo⟩ := hsecond.slot_of_new hname htwin
      refine ⟨hstores.old.put_unknown (Nat.not_lt.mpr htargetNew) (Nat.not_lt.mpr htwinNew) _, ?_⟩
      rintro ⟨i⟩ ⟨k⟩ ⟨other, hother, hcell, htwin'⟩
      obtain ⟨held, hheld, hheld'⟩ := hstores.new _ _ ⟨other, hother, hcell, htwin'⟩
      by_cases hsame : other = name
      · -- The cells of one name are the two that are written to.
        subst hsame
        cases hcell.symm.trans htarget
        cases htwin'.symm.trans htwin
        refine ⟨content, ?_, ?_⟩
        · rw [Store.getElem?_put, if_pos ⟨rfl, Store.isSlot_iff.mpr ⟨held, hheld⟩⟩]
        · rw [Store.getElem?_put, if_pos ⟨rfl, Store.isSlot_iff.mpr ⟨held, hheld'⟩⟩]
      · refine ⟨held, ?_, ?_⟩
        · rw [Store.getElem?_put_of_ne, hheld]
          rintro rfl
          exact hsame (hone other hcell)
        · rw [Store.getElem?_put_of_ne, hheld']
          rintro rfl
          exact hsame (htwo other htwin')
  call := by
    rintro callback _ store other ⟨rfl, hwithin⟩ hstores args
    have hwrites := hwithin.alike args store other fun i hi => hstores.old.same ⟨i⟩ hi
    rw [← hwrites, List.forall₂_same]
    intro write hwrite
    exact ⟨.inl ⟨rfl, hwithin.targets args store write hwrite⟩, rfl⟩

/-- Two worlds that have the values of one document besides what was there
before are alike. -/
theorem alike_pairing (hclosed : before.Closed) (hfirst : document.Loaded before first)
    (hsecond : document.Loaded before second) :
    first.Alike (pairing before first second) (Paired before first second) second where
  names := by
    constructor
    · intro name
      by_cases hold : before.names.Binds name
      · obtain ⟨cell, hcell⟩ := Names.binds_iff.mp hold
        rw [hfirst.names.values name cell hcell, hsecond.names.values name cell hcell]
        have hindex := hclosed.sound name cell hcell
        exact .ok ⟨.inl ⟨rfl, hindex⟩, .inl ⟨rfl, hindex⟩⟩
      · have hiff : first.names.Binds name ↔ second.names.Binds name :=
          (hfirst.binds name).trans (hsecond.binds name).symm
        cases hcell : first.names.value name with
        | ok cell =>
            obtain ⟨twin, htwin⟩ := Names.binds_iff.mp (hiff.mp (Names.binds_of_value hcell))
            have htwins : Twins before first second cell twin := ⟨name, hold, hcell, htwin⟩
            rw [htwin]
            exact .ok ⟨.inr htwins, .inr htwins⟩
        | error fault =>
            obtain ⟨hunbound, rfl⟩ := Names.value_eq_error.mp hcell
            rw [Names.value_eq_error.mpr ⟨hunbound ∘ hiff.mpr, rfl⟩]
            exact .error
    · intro name
      rw [hfirst.names.callback, hsecond.names.callback]
      cases hcallback : before.names.callback name with
      | ok callback => exact .ok ⟨rfl, hclosed.callbacks name callback hcallback⟩
      | error fault => exact .error
  store := by
    constructor
    · apply Store.agree_below
      intro i hi
      rw [hfirst.untouched i hi, hsecond.untouched i hi]
    · rintro cell twin ⟨name, hnew, hcell, htwin⟩
      obtain ⟨content, hcontent, -, hslot, -⟩ := hfirst.slot_of_new hnew hcell
      obtain ⟨content', hcontent', -, hslot', -⟩ := hsecond.slot_of_new hnew htwin
      cases hcontent.symm.trans hcontent'
      exact ⟨content, hslot, hslot'⟩

/-- Such worlds look the same to a host that has the document's program run in
them. -/
theorem watch_eq (hclosed : before.Closed) (hfirst : document.Loaded before first)
    (hsecond : document.Loaded before second) {program : Program}
    (hprogram : document.program first.names = .ok program) :
    ∃ twin, document.program second.names = .ok twin ∧ ∀ snapshots count,
      first.watch snapshots count { program } =
        second.watch snapshots count { program := twin } := by
  have halike := alike_pairing hclosed hfirst hsecond
  have hprograms := alike_program halike.names document
  rw [hprogram] at hprograms
  generalize houtcome : document.program second.names = outcome at hprograms
  cases hprograms with
  | @ok _ twin htwin =>
      refine ⟨twin, rfl, fun snapshots count => ?_⟩
      exact halike.watch (preserves_pairing hfirst hsecond) And.left htwin snapshots count 0

/-! ### The three ways -/

/-- The document with another starting value for a name. -/
def starting (name : String) (value : Float) (document : Document) : Document :=
  { document with values := document.values.insert name (some value) }

section

variable {name : String} {value : Float} {world : World}

theorem getElem?_starting (other : String) :
    (document.starting name value).values[other]? =
      if name = other then some (some value) else document.values[other]? := by
  simp [starting, Std.TreeMap.getElem?_insert]

theorem mem_starting {other : String} :
    other ∈ (document.starting name value).values ↔ name = other ∨ other ∈ document.values := by
  simp [starting]

/-- Declaring a name and then the document's values comes to the same as
declaring the values of the document that has this starting value. -/
theorem loaded_declare (hsound : world.Sound) (hnew : ¬ world.names.Binds name) :
    (document.starting name value).Loaded world
      (document.declareValues (world.declare name (some value)).2) := by
  have hsingle : Declares [(name, some value)] world (world.declare name (some value)).2 := by
    have hdeclared := Declares.single name (some value) world
    rwa [declareNew, if_neg (hnew ∘ Names.containsValue_iff.mp)] at hdeclared
  have hboth := hsingle.append (document.declares _)
  refine ⟨hboth.names, hboth.untouched, ?_, ?_⟩
  · intro other
    rw [mem_starting, binds_declareValues, hsingle.binds]
    simp [or_assoc, eq_comm]
  · intro other content hother hcontent
    rw [getElem?_starting] at hcontent
    by_cases heq : name = other
    · subst heq
      cases hcontent.symm.trans (if_pos rfl)
      have hvalue : (world.declare name (some value)).2.names.value name =
          .ok world.store.next := by
        rw [World.declare, Names.value_insertValue, if_pos rfl]
        rfl
      obtain ⟨hindex, _, hentry, hslot⟩ := hsingle.fresh name _ hnew hvalue
      cases List.mem_singleton.mp hentry
      have hcell := (document.declares _).names.values name _ hvalue
      rw [← (document.declares _).untouched _ (Store.lt_size_of_getElem? hslot)] at hslot
      refine ⟨_, hcell, hindex, Store.isSlot_iff.mpr ⟨_, hslot⟩, Store.read_slot hslot, ?_⟩
      intro other hother
      exact (hboth.apart_of_sound hsound hnew hcell hother).symm
    · rw [if_neg heq] at hcontent
      have hother' : ¬ (world.declare name (some value)).2.names.Binds other := by
        rw [hsingle.binds]
        rintro (hbound | ⟨_, hentry⟩)
        · exact hother hbound
        · cases List.mem_singleton.mp hentry
          exact heq rfl
      obtain ⟨cell, hcell, hindex, hrest⟩ :=
        (loaded_declareValues (World.sound_declare hsound name (some value)) document).fresh
          other content hother' hcontent
      exact ⟨cell, hcell, Nat.le_trans hsingle.grows hindex, hrest⟩

/-- So does assigning to the name in a world that has the values. -/
theorem Loaded.assign {after : World} (h : document.Loaded world after) (value : Float)
    (hdeclared : name ∈ document.values) (hnew : ¬ world.names.Binds name) :
    (after.assign name value).1 = .ok true ∧
      (document.starting name value).Loaded world (after.assign name value).2 := by
  obtain ⟨target, htarget⟩ := Names.binds_iff.mp ((h.binds name).mpr (.inr hdeclared))
  obtain ⟨_, -, hindex, hslot, honly⟩ := h.slot_of_new hnew htarget
  have htaken : after.store.isSlot target = true := Store.isSlot_iff.mpr ⟨_, hslot⟩
  have hassign : after.assign name value =
      (.ok true, { after with store := after.store.put target (some value) }) := by
    simp only [World.assign, htarget, Store.write, htaken]
  rw [hassign]
  refine ⟨rfl, h.names, ?_, ?_, ?_⟩
  · intro i hi
    rw [Store.getElem?_put_of_ne (by omega), h.untouched i hi]
  · intro other
    rw [mem_starting, h.binds]
    constructor
    · exact Or.imp_right .inr
    · rintro (hbound | rfl | hother)
      · exact .inl hbound
      · exact .inr hdeclared
      · exact .inr hother
  · intro other content hother hcontent
    rw [getElem?_starting] at hcontent
    by_cases heq : name = other
    · subst heq
      cases hcontent.symm.trans (if_pos rfl)
      have hput : (after.store.put target (some value)).cells[target.index]? =
          some (.slot (some value)) := by
        rw [Store.getElem?_put, if_pos ⟨rfl, htaken⟩]
      exact ⟨target, htarget, hindex, Store.isSlot_iff.mpr ⟨_, hput⟩, Store.read_slot hput, honly⟩
    · rw [if_neg heq] at hcontent
      obtain ⟨cell, hcell, hnewer, _, _, honly'⟩ := h.fresh other content hother hcontent
      obtain ⟨_, hcontent', -, hheld, -⟩ := h.slot_of_new hother hcell
      cases hcontent.symm.trans hcontent'
      have hne : target.index ≠ cell.index := by
        obtain ⟨i⟩ := target
        obtain ⟨k⟩ := cell
        rintro rfl
        exact heq (honly' name htarget)
      rw [← Store.getElem?_put_of_ne hne (some value)] at hheld
      exact ⟨cell, hcell, hnewer, Store.isSlot_iff.mpr ⟨_, hheld⟩, Store.read_slot hheld, honly'⟩

/-- In a closed world, as is every one that a host can get to, replacing a
starting value in the document, declaring the name with this value beforehand,
and assigning the value before the first pass come to the same: all three
compile, the name reads the value, and over any number of passes the results,
the calls and the readings of all names are the same. -/
theorem starting_value_routes (document : Document) (world : World) (hclosed : world.Closed)
    (name : String) (hdeclared : name ∈ document.values) (hnew : ¬ world.names.Binds name)
    (program : Program) (hcompile : (document.compile world).1 = .ok program) (value : Float) :
    let replaced := (document.starting name value).compile world
    let declared := document.compile (world.declare name (some value)).2
    let assigned := (document.compile world).2.assign name value
    ∃ first second,
      replaced.1 = .ok first ∧ declared.1 = .ok second ∧ assigned.1 = .ok true ∧
        (∀ after ∈ [replaced.2, declared.2, assigned.2],
          (after.read name).1 = .ok (some value)) ∧
        ∀ snapshots count,
          replaced.2.watch snapshots count { program := first } =
              assigned.2.watch snapshots count { program } ∧
            declared.2.watch snapshots count { program := second } =
              assigned.2.watch snapshots count { program } := by
  intro replaced declared assigned
  have hbase : (document.compile world).2 = document.declareValues world := by
    rw [compile_snd, hcompile]
  have hassigned : assigned = (document.declareValues world).assign name value :=
    congrArg (World.assign name value) hbase
  obtain ⟨htaken, hthird⟩ : assigned.1 = .ok true ∧
      (document.starting name value).Loaded world assigned.2 := by
    rw [hassigned]
    exact (document.loaded_declareValues hclosed.sound).assign value hdeclared hnew
  have hfirst := loaded_declareValues hclosed.sound (document.starting name value)
  have hsecond : (document.starting name value).Loaded world (document.declareValues _) :=
    loaded_declare hclosed.sound hnew
  have hprogram : document.program assigned.2.names = .ok program := by
    rw [hassigned, World.names_assign, ← compile_fst, hcompile]
  obtain ⟨first, hcompiles, hsame⟩ := watch_eq hclosed hthird hfirst hprogram
  obtain ⟨second, hcompiles', hsame'⟩ := watch_eq hclosed hthird hsecond hprogram
  have hreplaced : replaced = (.ok first, (document.starting name value).declareValues world) :=
    compile_eq_ok hcompiles
  have hdeclares : declared = (.ok second, document.declareValues _) := compile_eq_ok hcompiles'
  refine ⟨first, second, ?_, ?_, htaken, ?_, ?_⟩
  · rw [hreplaced]
  · rw [hdeclares]
  · have hstart : (document.starting name value).values[name]? = some (some value) := by
      rw [getElem?_starting, if_pos rfl]
    rw [hreplaced, hdeclares]
    simp only [List.forall_mem_cons, List.not_mem_nil, false_imp_iff, implies_true, and_true]
    exact ⟨hfirst.read hnew hstart, hsecond.read hnew hstart, hthird.read hnew hstart⟩
  · intro snapshots count
    rw [hreplaced, hdeclares]
    exact ⟨(hsame snapshots count).symm, (hsame' snapshots count).symm⟩

/-- A running total of a counter, which is told to the host in each pass. -/
theorem starting_value_routes_total :
    let counting := ((({} : World).derive "n" .counter).2.declare "last" none).2
    let world : World :=
      { counting with names := counting.names.insertCallback "tell" (.store "tell" ⟨1⟩) }
    let document : Document :=
      { values := Std.TreeMap.ofList [("total", some (1 : Float)), ("unused", none)]
        root := .node
          { kind := some "block"
            nodes :=
              [.node
                { kind := some "set"
                  source := some (.node
                    { kind := some "add", a := some (.ref "total"), b := some (.ref "n") })
                  target := some "total" },
               .node { kind := some "call", args := [.ref "total"], callback := some "tell" }] } }
    let program : Program :=
      .block [.set (.fold .add (.read ⟨2⟩) [.read ⟨0⟩]) (some ⟨2⟩),
        .call [.read ⟨2⟩] (some (.store "tell" ⟨1⟩))]
    let replaced := (document.starting "total" 5).compile world
    let declared := document.compile (world.declare "total" (some 5)).2
    let assigned := (document.compile world).2.assign "total" 5
    world.Closed ∧ "total" ∈ document.values ∧ ¬ world.names.Binds "total" ∧
      (document.compile world).1 = .ok program ∧
      ∃ first second,
        replaced.1 = .ok first ∧ declared.1 = .ok second ∧ assigned.1 = .ok true ∧
          (∀ after ∈ [replaced.2, declared.2, assigned.2],
            (after.read "total").1 = .ok (some 5)) ∧
          ∀ snapshots count,
            replaced.2.watch snapshots count { program := first } =
                assigned.2.watch snapshots count { program } ∧
              declared.2.watch snapshots count { program := second } =
                assigned.2.watch snapshots count { program } := by
  intro counting world document program replaced declared assigned
  have hclosed : world.Closed := by
    apply World.closed_insertCallback
    · exact World.closed_declare (World.closed_derive World.closed_empty _ _) _ _
    · exact Callback.within_store "tell" (by decide)
  have hdeclared : "total" ∈ document.values := by decide
  have hnew : ¬ world.names.Binds "total" := by
    rw [← Names.containsValue_iff]
    decide
  have hcompile : (document.compile world).1 = .ok program := by
    dsimp only [document, world, counting, program]
    rfl
  exact ⟨hclosed, hdeclared, hnew, hcompile,
    starting_value_routes document world hclosed "total" hdeclared hnew program hcompile 5⟩

end

end Document

end Animation
