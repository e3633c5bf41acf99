import Animation.Proofs.Expression.Footprint
import Animation.Proofs.Store.Traces

/-!
All that passes of a tree depend on. Besides the cells that the tree reads,
with everything that these readings go through, it is what the callbacks in it
look at; callbacks that only record and store their arguments look at nothing.
Stores that agree on this much may differ in all else, also in the cells that
are written to, and no pass will tell.
-/

namespace Animation

/-- What the callback stores may change with this cell. -/
def Callback.LooksAt (callback : Callback) (cell : Ref) : Prop :=
  ∃ args store other, (∀ i ≠ cell.index, store.cells[i]? = other.cells[i]?) ∧
    callback.writes args store ≠ callback.writes args other

namespace Walk

variable {α β : Type}

theorem getElem?_cons_congr {these those : List α} {i : Nat}
    (h : ∀ k ≠ i, these[k]? = those[k]?) (head : α) :
    ∀ k ≠ i + 1, (head :: these)[k]? = (head :: those)[k]?
  | 0, _ => rfl
  | k + 1, hk => h k fun heq => hk (congrArg (· + 1) heq)

theorem getElem?_of_tail {these those : List α} (h : these.tail = those.tail) :
    ∀ k ≠ 0, these[k]? = those[k]?
  | 0, hk => absurd rfl hk
  | k + 1, _ => by rw [← List.getElem?_tail, h, List.getElem?_tail]

/-- One list turns into another place by place, and only places change in
which the two differ. So what does not change with any of these places is the
same for both lists. -/
theorem eq_of_places : ∀ (items others : List α) (measure : List α → β),
    (∀ i : Nat, items[i]? ≠ others[i]? → ∀ these those : List α,
      (∀ k ≠ i, these[k]? = those[k]?) → measure these = measure those) →
    measure items = measure others
  | [], [], _, _ => rfl
  | [], other :: others, measure, h => by
    have hhead : measure [] = measure [other] :=
      h 0 (by simp) _ _ (getElem?_of_tail rfl)
    have htail : measure [other] = measure (other :: others) :=
      eq_of_places [] others (measure <| other :: ·) fun i hdiffers _ _ hsame =>
        h (i + 1) hdiffers _ _ (getElem?_cons_congr hsame other)
    exact hhead.trans htail
  | item :: items, [], measure, h => by
    have htail : measure (item :: items) = measure [item] :=
      eq_of_places items [] (measure <| item :: ·) fun i hdiffers _ _ hsame =>
        h (i + 1) hdiffers _ _ (getElem?_cons_congr hsame item)
    have hhead : measure [item] = measure [] :=
      h 0 (by simp) _ _ (getElem?_of_tail rfl)
    exact htail.trans hhead
  | item :: items, other :: others, measure, h => by
    have hhead : measure (item :: items) = measure (other :: items) := by
      by_cases hsame : item = other
      · rw [hsame]
      · exact h 0 (by simpa using hsame) _ _ (getElem?_of_tail rfl)
    have htail : measure (other :: items) = measure (other :: others) :=
      eq_of_places items others (measure <| other :: ·) fun i hdiffers _ _ hsame =>
        h (i + 1) hdiffers _ _ (getElem?_cons_congr hsame other)
    exact hhead.trans htail

end Walk

namespace Callback

/-- A callback stores the same where all cells that it looks at are the same. -/
theorem writes_congr {callback : Callback} {store other : Store}
    (h : ∀ cell, callback.LooksAt cell → store.cells[cell.index]? = other.cells[cell.index]?)
    (args : List Float) : callback.writes args store = callback.writes args other := by
  obtain ⟨⟨cells⟩⟩ := store
  obtain ⟨⟨others⟩⟩ := other
  apply Walk.eq_of_places cells others fun cells => callback.writes args ⟨⟨cells⟩⟩
  intro i hdiffers these those hsame
  by_contra hwrites
  apply hdiffers
  simpa using h ⟨i⟩ ⟨args, ⟨⟨these⟩⟩, ⟨⟨those⟩⟩, by simpa using hsame, hwrites⟩

theorem Plain.not_looksAt {callback : Callback} (h : callback.Plain) (cell : Ref) :
    ¬ callback.LooksAt cell := by
  rintro ⟨args, store, other, -, hdiffers⟩
  exact hdiffers (h args store other)

end Callback

/-! ### Stores of which enough is known -/

/-- Everything stands for itself, as long as only known cells are read and
looked at. Any cell may be written to. -/
def Likeness.knowing (known : Ref → Prop) : Likeness where
  reads source twin := source = twin ∧ known source
  writes target twin := target = twin
  calls callback twin := callback = twin ∧ ∀ cell, callback.LooksAt cell → known cell

namespace Likeness

theorem identical_knowing (known : Ref → Prop) : (knowing known).Identical where
  reads h := h.1
  writes h := h
  calls h := h.1

theorem preserves_knowing (known : Ref → Prop) :
    (knowing known).Preserves (Store.Agree known) where
  read := by
    rintro source _ store other ⟨rfl, hknown⟩ hstores
    exact hstores.read hknown
  put := by
    rintro target _ store other rfl hstores content
    exact hstores.put target content
  call := by
    rintro callback _ store other ⟨rfl, hlooks⟩ hstores args
    have hwrites : callback.writes args store = callback.writes args other :=
      Callback.writes_congr (fun cell hcell => hstores.same cell (hlooks cell hcell)) args
    rw [← hwrites, List.forall₂_same]
    exact fun write _ => ⟨rfl, rfl⟩

end Likeness

theorem Program.Alike.runTimes {like : Likeness} {stores : Store → Store → Prop}
    (hpreserves : like.Preserves stores) {program twin : Program} (h : Alike like program twin)
    (count : Nat) : Pass.Alike like stores (program.runTimes count) (twin.runTimes count) := by
  induction count with
  | zero => exact Pass.alike_pure []
  | succ count ih => exact (h.run hpreserves).bind fun _ => ih.map _

namespace Expression

/-- A pass of the tree depends on this cell: the tree reads it, or a callback
in it looks at it, directly or through derived cells. -/
def DependsOn (store : Store) (tree : Expression) (cell : Ref) : Prop :=
  tree.Reads store cell ∨
    ∃ callback looked, tree.Uses (.call callback) ∧ callback.LooksAt looked ∧
      store.Reaches looked cell

variable {tree : Expression} {compiler : Compiler} {program : Program} {store other : Store}

theorem dependsOn_congr (h : store.plan = other.plan) (tree : Expression) :
    tree.DependsOn store = tree.DependsOn other := by
  funext cell
  simp only [DependsOn, Reads, Store.reaches_congr h]

theorem dependsOn_of_looksAt {cell input : Ref} (h : tree.DependsOn store cell)
    (hlooks : store.LooksAt cell input) : tree.DependsOn store input := by
  rcases h with ⟨source, hsource, hreaches⟩ | ⟨callback, looked, hcallback, hlooked, hreaches⟩
  · exact .inl ⟨source, hsource, hreaches.tail hlooks⟩
  · exact .inr ⟨callback, looked, hcallback, hlooked, hreaches.tail hlooks⟩

/-- Callbacks that look at no cells add nothing to what the tree reads. -/
theorem dependsOn_iff_reads (h : ∀ callback, tree.Uses (.call callback) → callback.Plain)
    {cell : Ref} : tree.DependsOn store cell ↔ tree.Reads store cell := by
  constructor
  · rintro (hreads | ⟨callback, looked, hcallback, hlooked, -⟩)
    · exact hreads
    · exact absurd hlooked ((h callback hcallback).not_looksAt looked)
  · exact .inl

theorem agree_of_dependsOn
    (h : ∀ cell, tree.DependsOn store cell →
      store.cells[cell.index]? = other.cells[cell.index]?) :
    store.Agree (tree.DependsOn store) other where
  same := h
  inputs _ derivation answered hcell hderived _ hinput holder :=
    dependsOn_of_looksAt hcell ⟨derivation, answered, hderived, hinput, holder⟩

theorem alike_knowing (hcompile : (compiler.compile tree).1 = .ok program) (store : Store) :
    Program.Alike (.knowing (tree.DependsOn store)) program program := by
  apply Program.alike_self
  intro use huse
  have huse := (Compiler.mem_uses_iff hcompile).mp huse
  cases use with
  | read source => exact ⟨rfl, .inl ⟨source, huse, .refl⟩⟩
  | write target => exact rfl
  | call callback => exact ⟨rfl, fun cell hcell => .inr ⟨callback, cell, huse, hcell, .refl⟩⟩

end Expression

/-- The numbers that a cell takes when these events happen. -/
def Store.taken (store : Store) (cell : Ref) (events : List Event) : List Float :=
  if store.isSlot cell then Event.offered cell events else []

/-- Two passes do the same, one from `store` and one from `other`: they have the
same value, the same readings, writings and calls in the same order. A cell
that is a slot of both stores or of neither takes the same numbers; a slot ends
with the last of them in both stores, or with its own content in each if there
are none. -/
structure Outcome.Matches {α : Type} (store other : Store) (first second : Outcome α) : Prop where
  value : first.value = second.value
  events : first.events = second.events
  taken : ∀ cell, store.isSlot cell = other.isSlot cell →
    store.taken cell first.events = other.taken cell second.events
  contents : ∀ cell content held, store.cells[cell.index]? = some (.slot content) →
    other.cells[cell.index]? = some (.slot held) →
    let last? := (store.taken cell first.events).getLast?
    first.store.cells[cell.index]? = some (.slot (last?.elim content some)) ∧
      second.store.cells[cell.index]? = some (.slot (last?.elim held some))

theorem Pass.Replays.matches {α : Type} {pass : Pass α} (hpass : pass.Replays)
    {store other : Store} (hvalue : (pass store).value = (pass other).value)
    (hevents : (pass store).events = (pass other).events) :
    (pass store).Matches store other (pass other) where
  value := hvalue
  events := hevents
  taken cell hslot := by rw [Store.taken, Store.taken, hslot, hevents]
  contents cell content held hcontent hheld := by
    have hslot : store.isSlot cell = true := Store.isSlot_iff.mpr ⟨content, hcontent⟩
    have htaken : store.taken cell (pass store).events =
        Event.offered cell (pass store).events := if_pos hslot
    rw [htaken, hpass store, hpass other, ← hevents]
    exact ⟨Store.getElem?_replay_slot hcontent _, Store.getElem?_replay_slot hheld _⟩

namespace Expression

/-- Take two stores that are the same in every cell that the tree depends on.
A pass does the same from both, whatever else is in them, and leaves stores
that are the same in this respect again; so do any number of passes. If the
callbacks of the tree look at no cells, it depends on what it reads and on
nothing else. -/
theorem passes_match (tree : Expression) (compiler : Compiler) (program : Program)
    (hcompile : (compiler.compile tree).1 = .ok program) (store other : Store)
    (hsame : ∀ cell, tree.DependsOn store cell →
      store.cells[cell.index]? = other.cells[cell.index]?) :
    let first := program.run store
    let second := program.run other
    first.Matches store other second ∧
      (∀ cell, tree.DependsOn first.store cell →
        first.store.cells[cell.index]? = second.store.cells[cell.index]?) ∧
      (∀ count,
        (program.runTimes count store).Matches store other (program.runTimes count other)) ∧
      ((∀ callback, tree.Uses (.call callback) → callback.Plain) →
        ∀ cell, tree.DependsOn store cell ↔ tree.Reads store cell) := by
  intro first second
  let known := tree.DependsOn store
  have hpreserves := Likeness.preserves_knowing known
  have hidentical := Likeness.identical_knowing known
  have halike : Program.Alike (.knowing known) program program := alike_knowing hcompile store
  have hagree : store.Agree known other := agree_of_dependsOn hsame
  have hrun := halike.run hpreserves store other hagree
  refine ⟨?_, ?_, ?_, fun hplain cell => dependsOn_iff_reads hplain⟩
  · exact (Program.replays_run program).matches hrun.value
      (Event.events_eq hidentical hrun.events)
  · intro cell hcell
    have hplan : first.store.plan = store.plan := by
      rw [Program.replays_run program store, Store.plan_replay]
    rw [dependsOn_congr hplan] at hcell
    exact hrun.store.same cell hcell
  · intro count
    have htimes := halike.runTimes hpreserves count store other hagree
    exact (Program.replays_runTimes program count).matches htimes.value
      (Event.events_eq hidentical htimes.events)

/-- A tree that stores the double of a slot and, if this is true, hands the slot
to a callback that stores its content. The stores differ in both targets and in
a counter. -/
theorem passes_match_other_targets :
    let host := Callback.store "tell" ⟨2⟩
    let tree : Expression :=
      .choice (.store (.external ⟨4⟩) ⟨1⟩) (.call [.external ⟨0⟩] (some host)) none
    let program : Program :=
      .cond (.set (.read ⟨4⟩) (some ⟨1⟩)) (.call [.read ⟨0⟩] (some host)) (.constant 0)
    let double : Cell := .derived (.scaled ⟨0⟩ 2) 6
    let store : Store :=
      ⟨#[.slot (some 3), .slot none, .slot (some 8), .derived .counter 0, double]⟩
    let other : Store :=
      ⟨#[.slot (some 3), .slot (some 1), .slot none, .derived .counter 5, double]⟩
    (Compiler.compile {} tree).1 = .ok program ∧
      (∀ cell, tree.DependsOn store cell →
        store.cells[cell.index]? = other.cells[cell.index]?) ∧
      (program.run store).Matches store other (program.run other) ∧
      (∀ count,
        (program.runTimes count store).Matches store other (program.runTimes count other)) := by
  intro host tree program double store other
  have hcompile : (Compiler.compile {} tree).1 = .ok program := rfl
  have hplain : ∀ callback, tree.Uses (.call callback) → callback.Plain := by
    intro callback hcallback
    have huse := (Compiler.mem_uses_iff hcompile).mpr hcallback
    have hhost : callback = host := by
      simpa [program, Program.uses, Program.usesAll] using huse
    subst hhost
    exact fun _ _ _ => rfl
  have hsame : ∀ cell, tree.DependsOn store cell →
      store.cells[cell.index]? = other.cells[cell.index]? := by
    intro cell hcell
    rw [dependsOn_iff_reads hplain, ← Compiler.reads_of_compile hcompile] at hcell
    obtain ⟨source, hsource, hreaches⟩ := hcell
    have hslot : store.cells[0]? = some (.slot (some 3)) := rfl
    have hdouble : store.cells[4]? = some double := rfl
    have hsources : source = ⟨4⟩ ∨ source = ⟨0⟩ := by
      simpa [program, Program.uses, Program.usesAll] using hsource
    rcases hsources with rfl | rfl
    · rcases (Store.reaches_derived hdouble).mp hreaches with rfl | ⟨input, hinput, -, hrest⟩
      · rfl
      · cases List.mem_singleton.mp hinput
        cases (Store.reaches_slot hslot).mp hrest
        rfl
    · cases (Store.reaches_slot hslot).mp hreaches
      rfl
  obtain ⟨hrun, -, htimes, -⟩ := passes_match tree {} program hcompile store other hsame
  exact ⟨hcompile, hsame, hrun, htimes⟩

end Expression

end Animation
