import Animation.Proofs.Player
import Animation.Proofs.Scene.Rebinding

/-!
How many passes a player has made. A host that takes notes of the players it
gets and of the results it gets from them can tell from its notes, whatever
else it does in between: the count of a player is the number of results at its
place since it was put there. Notes about other players do not matter to it,
and its program is the same throughout.

A program that is taken out of its player goes on with one more pass when it is
run, the pass that the player would have made.
-/

namespace Animation.Scene

/-- What a host does with its players, and between. -/
inductive Operation where
  | act (action : Action)
  | load (document : Document)
  | rebind (change : Rebinding)
  /-- Sets or clears any cell, also one without a name and a handle. -/
  | write (cell : Ref) (content : Option Float)
  /-- Takes the program out of a player and puts it into a new one. -/
  | rewrap (place : Nat)

def operate (scene : Scene) : Operation → Reply × Scene
  | .act action => scene.act action
  | .load document => scene.load document
  | .rebind change => (.done, { scene with world := scene.world.rebind change })
  | .write cell content =>
    let store := scene.world.store.put cell content
    (.done, { scene with world := { scene.world with store } })
  | .rewrap place =>
    match scene.players[place]? with
    | none => (.noPlayer, scene)
    | some player =>
      (.root place,
        { scene with players := scene.players.setIfInBounds place { program := player.program } })

/-! ### Notes -/

inductive Note where
  /-- There is a new player at this place. -/
  | begun (place : Nat)
  /-- The player at this place has had these results. -/
  | passed (place : Nat) (results : List Float)

namespace Note

def place : Note → Nat
  | .begun place | .passed place _ => place

/-- Replies that give the place of a player are about a new one. -/
def ofReply : Reply → List Note
  | .root place => [.begun place]
  | _ => []

/-- Counts the results at one place, beginning anew with each new player. -/
def count (place soFar : Nat) : Note → Nat
  | .begun other => if other = place then 0 else soFar
  | .passed other results => if other = place then soFar + results.length else soFar

end Note

/-- What the host notes when it gets this reply. A program that is run by itself
has one result that is not noted, for there is no player to have it. -/
def notes (scene : Scene) : Operation → Reply → List Note
  | .act (.tick player), .evaluated (.one value) _ _ =>
    [.passed (scene.playerIndex player) [value]]
  | .act (.play _ player), .evaluated (.many values) _ _ =>
    [.passed (scene.playerIndex player) values]
  | .act (.restart player), .evaluated _ _ _ => [.begun (scene.playerIndex player)]
  | _, reply => Note.ofReply reply

/-- All notes of several operations, and the scene after them. -/
def operateEach : List Operation → Scene → List Note × Scene
  | [], scene => ([], scene)
  | operation :: rest, scene =>
    let (reply, middle) := scene.operate operation
    let (later, after) := operateEach rest middle
    (scene.notes operation reply ++ later, after)

/-! ### What happens to the players -/

/-- Players before and after an operation with these notes. -/
inductive Alters (players : Array Player) : List Note → Array Player → Prop
  | unchanged : Alters players [] players
  | added {program : Program} :
      Alters players [.begun players.size] (players.push { program })
  | passed {place : Nat} {player : Player} {results : List Float} :
      players[place]? = some player →
      Alters players [.passed place results]
        (players.setIfInBounds place
          { player with passes := player.passes + results.length })
  | renewed {place : Nat} {player : Player} :
      players[place]? = some player →
      Alters players [.begun place] (players.setIfInBounds place { program := player.program })

/-- The outcome leaves the players as they are, or adds one and says so. -/
def Admits (players : Array Player) (outcome : Reply × Scene) : Prop :=
  Alters players (Note.ofReply outcome.1) outcome.2.players

variable {scene : Scene}

section

variable {players : Array Player} (hplayers : scene.players = players)
include hplayers

theorem admits_scene {reply : Reply} (hreply : Note.ofReply reply = []) :
    Admits players (reply, scene) := by
  unfold Admits
  rw [hreply, hplayers]
  exact .unchanged

theorem admits_addPlayer (program : Program) : Admits players (addPlayer program scene) := by
  subst hplayers
  exact .added

theorem admits_conclude (result : Result) (events : List Event) :
    Admits players (conclude result events scene) := by
  unfold conclude
  split
  · exact admits_scene hplayers rfl
  · exact admits_scene hplayers rfl

theorem admits_peekHandle (handle : Nat) : Admits players (peekHandle handle scene) := by
  unfold peekHandle
  split
  · exact admits_scene hplayers rfl
  · exact admits_scene hplayers rfl

theorem admits_orRefuse {α : Type} {outcome : Except Fault α} {next : α → Reply × Scene}
    (hnext : ∀ value, Admits players (next value)) :
    Admits players (scene.orRefuse outcome next) := by
  cases outcome with
  | ok value => exact hnext value
  | error fault => exact admits_scene hplayers rfl

theorem admits_attempt {α : Type} {operation : World → Except Fault α × World}
    {next : α → Scene → Reply × Scene}
    (hnext : ∀ value world, Admits players (next value { scene with world })) :
    Admits players (scene.attempt operation next) := by
  have hentered : { scene with world := (operation scene.world).2 }.players = players := hplayers
  exact admits_orRefuse hentered fun value => hnext value _

theorem admits_load (document : Document) : Admits players (scene.load document) :=
  admits_attempt hplayers fun _ _ => admits_addPlayer hplayers _

end

/-- Where there is a player, it has a pass, and what the pass makes of it takes
its place. It is for the notes to say so. -/
theorem alters_perform {α : Type} {pass : Player → Pass (α × Player)} {result : α → Result}
    {player : Option Nat} (noted : Reply → List Note) (hnone : noted .noPlayer = [])
    (hsome : ∀ found store invocations readings,
      scene.players[scene.playerIndex player]? = some found →
      let outcome := (pass found store).value
      Alters scene.players (noted (.evaluated (result outcome.1) invocations readings))
        (scene.players.setIfInBounds (scene.playerIndex player) outcome.2)) :
    let outcome := perform pass result player scene
    Alters scene.players (noted outcome.1) outcome.2.players := by
  cases hplayer : scene.players[scene.playerIndex player]? with
  | none =>
      simp only [perform, hplayer, hnone]
      exact .unchanged
  | some found =>
      simp only [perform, hplayer, conclude]
      split
      · exact hsome found _ _ _ hplayer
      · exact hsome found _ _ _ hplayer

/-- Ticks, plays and restarts are of a player that is there; of all else, only
what makes a new player has to do with players. -/
theorem alters_act (action : Action) (scene : Scene) :
    Alters scene.players (scene.notes (.act action) (scene.act action).1)
      (scene.act action).2.players := by
  cases action with
  | tick player =>
      exact alters_perform (scene.notes (.act (.tick player))) rfl
        fun found store invocations readings hfound => .passed hfound
  | play count player =>
      apply alters_perform (scene.notes (.act (.play count player))) rfl
      intro found store invocations readings hfound
      have hlength := found.length_play count store
      have hpassed : Alters scene.players [.passed _ (found.play count store).value.1] _ :=
        .passed hfound
      rw [hlength] at hpassed
      exact hpassed
  | restart player =>
      exact alters_perform (scene.notes (.act (.restart player))) rfl
        fun found store invocations readings hfound => .renewed hfound
  | share name other | assign name value | read name =>
      exact admits_attempt rfl fun _ _ => admits_scene rfl rfl
  | invoke name args =>
      apply admits_orRefuse rfl
      intro callback
      apply admits_conclude
      rfl
  | findCallback name | describe name => exact admits_orRefuse rfl fun _ => admits_scene rfl rfl
  | put handle content =>
      simp only [act]
      split
      · exact .unchanged
      · apply admits_peekHandle
        rfl
  | peek handle => exact admits_peekHandle rfl handle
  | load text | compileKept text =>
      simp only [act]
      split
      · exact .unchanged
      · exact admits_load rfl _
  | keep name text | passes player =>
      simp only [act]
      split
      · exact .unchanged
      · exact .unchanged
  | compile expression route =>
      cases route with
      | fresh => exact admits_orRefuse rfl fun _ => admits_addPlayer rfl _
      | reused =>
          apply admits_orRefuse (by rfl)
          intro program
          apply admits_addPlayer
          rfl
  | constant value => exact admits_addPlayer rfl _
  | declare _ _ | derive _ _ | bindCallback _ _ | containsValue _ | snapshot | useCompiler _ =>
      exact .unchanged

/-- All that an operation does to the players is in the notes. -/
theorem alters_operate (operation : Operation) (scene : Scene) :
    Alters scene.players (scene.notes operation (scene.operate operation).1)
      (scene.operate operation).2.players := by
  cases operation with
  | act action => exact alters_act action scene
  | load document => exact admits_load rfl document
  | rebind change | write cell content => exact .unchanged
  | rewrap place =>
      simp only [operate]
      split
      · exact .unchanged
      · next player hplayer => exact .renewed hplayer

/-! ### Counts -/

/-- The count of the player at this place; 0 if there is none. -/
def passesAt (players : Array Player) (place : Nat) : Nat :=
  (players[place]?.map Player.passes).getD 0

variable {players after : Array Player} {notes : List Note} {place : Nat}

theorem passesAt_setIfInBounds {other : Nat} {player next : Player}
    (hother : players[other]? = some player) (place : Nat) :
    passesAt (players.setIfInBounds other next) place =
      if other = place then next.passes else passesAt players place := by
  unfold passesAt
  by_cases heq : other = place
  · subst heq
    simp [(Array.getElem?_eq_some_iff.mp hother).1]
  · simp [heq, Array.getElem?_setIfInBounds_ne heq]

/-- Notes are enough to keep a count up to date. -/
theorem Alters.passesAt (h : Alters players notes after) (place : Nat) :
    passesAt after place = notes.foldl (Note.count place) (passesAt players place) := by
  cases h with
  | unchanged => rfl
  | added =>
      by_cases heq : place = players.size
      · simp [Scene.passesAt, Note.count, heq]
      · simp [Scene.passesAt, Note.count, Array.getElem?_push, heq, Ne.symm heq]
  | passed hplayer =>
      rw [passesAt_setIfInBounds hplayer]
      simp only [List.foldl_cons, List.foldl_nil, Note.count]
      split
      · next heq =>
          subst heq
          simp [Scene.passesAt, hplayer]
      · rfl
  | renewed hplayer =>
      rw [passesAt_setIfInBounds hplayer]
      rfl

/-- A player of which there are no notes is as it was. -/
theorem Alters.untouched (h : Alters players notes after)
    (hnotes : ∀ note ∈ notes, note.place ≠ place) : after[place]? = players[place]? := by
  cases h with
  | unchanged => rfl
  | added =>
      have hplace : players.size ≠ place := hnotes _ List.mem_cons_self
      simp [Array.getElem?_push, hplace.symm]
  | passed | renewed =>
      exact Array.getElem?_setIfInBounds_ne (hnotes _ List.mem_cons_self)

theorem exists_setIfInBounds {other : Nat} {player next : Player}
    (hother : players[other]? = some player) (hnext : next.program = player.program)
    {old : Player} (hold : players[place]? = some old) :
    ∃ later, (players.setIfInBounds other next)[place]? = some later ∧
      later.program = old.program := by
  by_cases heq : other = place
  · subst heq
    cases hother.symm.trans hold
    have hinside := (Array.getElem?_eq_some_iff.mp hother).1
    exact ⟨next, by simp [hinside], hnext⟩
  · exact ⟨old, by rwa [Array.getElem?_setIfInBounds_ne heq], rfl⟩

/-- Players come and go, but their programs stay. -/
theorem Alters.program (h : Alters players notes after) {player : Player}
    (hplayer : players[place]? = some player) :
    ∃ later, after[place]? = some later ∧ later.program = player.program := by
  cases h with
  | unchanged => exact ⟨player, hplayer, rfl⟩
  | added =>
      have hplace := Nat.ne_of_lt (Array.getElem?_eq_some_iff.mp hplayer).1
      exact ⟨player, by rw [Array.getElem?_push, if_neg hplace, hplayer], rfl⟩
  | passed hother | renewed hother =>
      apply exists_setIfInBounds hother _ hplayer
      rfl

/-! ### Runs -/

theorem passesAt_operateEach (operations : List Operation) (scene : Scene) (place : Nat) :
    passesAt (scene.operateEach operations).2.players place =
      (scene.operateEach operations).1.foldl (Note.count place) (passesAt scene.players place) := by
  induction operations generalizing scene with
  | nil => rfl
  | cons operation rest ih =>
      simp only [operateEach]
      rw [ih, List.foldl_append, (alters_operate operation scene).passesAt]

theorem untouched_operateEach (operations : List Operation) (scene : Scene) {place : Nat}
    (hnotes : ∀ note ∈ (scene.operateEach operations).1, note.place ≠ place) :
    (scene.operateEach operations).2.players[place]? = scene.players[place]? := by
  induction operations generalizing scene with
  | nil => rfl
  | cons operation rest ih =>
      simp only [operateEach, List.forall_mem_append] at hnotes ⊢
      rw [ih _ hnotes.2, (alters_operate operation scene).untouched hnotes.1]

theorem program_operateEach (operations : List Operation) (scene : Scene) {place : Nat}
    {player : Player} (hplayer : scene.players[place]? = some player) :
    ∃ later, (scene.operateEach operations).2.players[place]? = some later ∧
      later.program = player.program := by
  induction operations generalizing scene player with
  | nil => exact ⟨player, hplayer, rfl⟩
  | cons operation rest ih =>
      obtain ⟨middle, hmiddle, hsame⟩ := (alters_operate operation scene).program hplayer
      obtain ⟨later, hlater, hprogram⟩ := ih _ hmiddle
      exact ⟨later, hlater, hprogram.trans hsame⟩

/-- The host gets the result and the invocations of a pass from the store as it
is. -/
theorem reply_tick {scene : Scene} {player : Player}
    (hplayer : scene.players[place]? = some player) :
    let pass := player.program.run scene.world.store
    ∃ readings, (scene.act (.tick (some place))).1 =
      .evaluated (.one pass.value) (Event.invocations pass.events) readings := by
  simp only [act, perform, playerIndex, Option.getD_some, hplayer, World.perform_tick, conclude]
  split
  · exact ⟨_, rfl⟩
  · exact ⟨_, rfl⟩

/-- A restart does what a tick does; only the player is a new one afterwards. -/
theorem act_restart {scene : Scene} {player : Player}
    (hplayer : scene.players[place]? = some player) :
    let ticked := scene.act (.tick (some place))
    scene.act (.restart (some place)) =
      (ticked.1, { ticked.2 with
        players := scene.players.setIfInBounds place { program := player.program } }) := by
  simp only [act, perform, playerIndex, Option.getD_some, hplayer, conclude]
  split
  · rfl
  · rfl

/-- Start anywhere and do anything. Each player in the end tells a count that
the notes tell as well: the number of results at its place since it was put
there, on top of its count in the beginning if it was there then. A place of
which there are no notes has the player that it had, whatever happens at other
places, and no place ever has another program. A tick has the result of a pass
of this program from the store as it is. So has the program run by itself, which
is one more pass in all it does, only that the player is a new one then. Of all
players and at all times, to play is to tick again and again, in one series or
in two. -/
theorem passes_counted (start : Scene) (operations : List Operation) :
    let notes := (start.operateEach operations).1
    let scene := (start.operateEach operations).2
    (∀ (place : Nat) (player : Player), scene.players[place]? = some player →
      let count := notes.foldl (Note.count place) (passesAt start.players place)
      player.passes = count ∧ scene.act (.passes (some place)) = (.passes count, scene)) ∧
    (∀ place : Nat, (∀ note ∈ notes, note.place ≠ place) →
      scene.players[place]? = start.players[place]?) ∧
    (∀ (place : Nat) (player : Player), start.players[place]? = some player →
      ∃ later, scene.players[place]? = some later ∧ later.program = player.program) ∧
    (∀ (place : Nat) (player : Player), scene.players[place]? = some player →
      let pass := player.program.run scene.world.store
      let ticked := scene.act (.tick (some place))
      (∃ readings, ticked.1 =
        .evaluated (.one pass.value) (Event.invocations pass.events) readings) ∧
      scene.act (.restart (some place)) =
        (ticked.1, { ticked.2 with
          players := scene.players.setIfInBounds place { program := player.program } })) ∧
    ∀ (player : Player) (early late : Nat),
      player.program.run = Prod.fst <$> player.tick ∧
      player.play early = player.ticks early ∧
      player.play (early + late) = (do
        let (first, next) ← player.play early
        let (second, last) ← next.play late
        pure (first ++ second, last)) := by
  intro notes scene
  refine ⟨?_, ?_, ?_, ?_, ?_⟩
  · intro place player hplayer count
    have hcount : player.passes = count := by
      have hnotes := passesAt_operateEach operations start place
      rwa [passesAt, hplayer, Option.map_some, Option.getD_some] at hnotes
    refine ⟨hcount, ?_⟩
    simp only [act, playerIndex, Option.getD_some, hplayer, hcount]
  · exact fun place => untouched_operateEach operations start
  · exact fun place player => program_operateEach operations start
  · exact fun place player hplayer => ⟨reply_tick hplayer, act_restart hplayer⟩
  · exact fun player early late =>
      ⟨player.run_eq_tick, player.play_eq_ticks early, player.play_add early late⟩

/-- A player that adds to a cell, one that is taken apart on the way, one that
has nothing to do, and one of a document. The cell is cleared in between, and its
name gets another meaning. -/
theorem passes_counted_interleaved :
    let sum : Expression := .fold .add (.external ⟨0⟩) (.literal 0.5) []
    let document : Document := { root := .ref "x" }
    let start := (({ snapshots := false } : Scene).operateEach
      [.act (.declare "x" (some 0)), .act (.compile (.store sum ⟨0⟩) .fresh), .act (.constant 3),
        .act (.constant 4)]).2
    let operations : List Operation :=
      [.act (.tick (some 0)), .act (.play 2 (some 1)), .write ⟨0⟩ none,
        .rebind (.declare "x" (some 7)), .act (.play 3 (some 0)), .load document,
        .act (.tick (some 1)), .rewrap 1, .act (.tick (some 1)), .act (.tick none)]
    let run := start.operateEach operations
    run.1.map Note.place = [0, 1, 0, 3, 1, 1, 1, 3] ∧
      (∃ adding, run.2.players[0]? = some adding ∧ adding.passes = 4 ∧
        run.1.foldl (Note.count 0) (passesAt start.players 0) = 4 ∧
        (run.2.act (.restart (some 0))).1 = (run.2.act (.tick (some 0))).1) ∧
      (∃ again, run.2.players[1]? = some again ∧ again.passes = 1 ∧
        run.1.foldl (Note.count 1) (passesAt start.players 1) = 1) ∧
      run.2.players[2]? = start.players[2]? := by
  intro sum document start operations run
  have hadding : run.2.players[0]?.map Player.passes = some 4 := by decide +kernel +zetaReduce
  have hagain : run.2.players[1]?.map Player.passes = some 1 := by decide +kernel +zetaReduce
  have hplaces : run.1.map Note.place = [0, 1, 0, 3, 1, 1, 1, 3] := by decide +kernel +zetaReduce
  -- The run is known well enough now; terms about it need not be computed any more.
  clear_value start operations
  obtain ⟨hcounts, huntouched, -, hrestart, -⟩ := passes_counted start operations
  obtain ⟨adding, hadding, hfour⟩ := Option.map_eq_some_iff.mp hadding
  obtain ⟨again, hagain, hone⟩ := Option.map_eq_some_iff.mp hagain
  have htwo : ∀ note ∈ run.1, note.place ≠ 2 := by
    intro note hnote hplace
    have hmember : note.place ∈ run.1.map Note.place := List.mem_map_of_mem hnote
    rw [hplaces, hplace] at hmember
    revert hmember
    decide
  refine ⟨hplaces, ⟨adding, hadding, hfour, ?_, ?_⟩, ⟨again, hagain, hone, ?_⟩, huntouched 2 htwo⟩
  · exact (hcounts 0 adding hadding).1.symm.trans hfour
  · rw [(hrestart 0 adding hadding).2]
  · exact (hcounts 1 again hagain).1.symm.trans hone

end Animation.Scene
