import Animation.Proofs.Store.Answers

/-!
What events leave of a single cell. A slot holds the last of the numbers that
were offered to it, and what it held before if there were none. A derived cell
takes no numbers and only counts its answers, and it has none to count where no
reading goes through it.
-/

namespace Animation

/-- The numbers that these events offer to a cell, in order. -/
def Event.offered (cell : Ref) (events : List Event) : List Float :=
  events.filterMap fun
    | .write target value => if target = cell then some value else none
    | _ => none

theorem Event.offered_cons_write (cell target : Ref) (value : Float) (rest : List Event) :
    offered cell (.write target value :: rest) =
      if target = cell then value :: offered cell rest else offered cell rest := by
  by_cases h : target = cell <;> simp [offered, h]

theorem Event.mem_offered {cell : Ref} {value : Float} {events : List Event} :
    value ∈ offered cell events ↔ .write cell value ∈ events := by
  induction events with
  | nil => simp [offered]
  | cons event rest ih =>
      cases event with
      | read _ | call _ _ => simpa [offered] using ih
      | write target held =>
          rw [offered_cons_write]
          split
          · next h => simp [h, ih]
          · next h =>
              have hother : cell ≠ target := Ne.symm h
              simp [hother, ih]

namespace Store

theorem plan_replay (events : List Event) (store : Store) :
    (store.replay events).plan = store.plan := by
  induction events generalizing store with
  | nil => rfl
  | cons event rest ih => exact (ih _).trans (plan_happen event store)

/-- Events that change nothing one by one change nothing together. -/
theorem replay_eq_self {events : List Event} {store : Store}
    (h : ∀ event ∈ events, store.happen event = store) : store.replay events = store := by
  induction events with
  | nil => rfl
  | cons event rest ih =>
      obtain ⟨hevent, hrest⟩ := List.forall_mem_cons.mp h
      change (store.happen event).replay rest = store
      rw [hevent, ih hrest]

/-- The last number that is offered to a slot stays in it. -/
theorem getElem?_replay_slot {store : Store} {cell : Ref} {content : Option Float}
    (h : store.cells[cell.index]? = some (.slot content)) (events : List Event) :
    (store.replay events).cells[cell.index]? =
      some (.slot ((Event.offered cell events).getLast?.elim content some)) := by
  induction events generalizing store content with
  | nil => exact h
  | cons event rest ih =>
      cases event with
      | read source => exact ih ((slot_read source store _ _).mpr h)
      | call callback args => exact ih h
      | write target value =>
          rw [Event.offered_cons_write]
          by_cases htarget : target = cell
          · subst htarget
            have hslot : store.isSlot target = true := isSlot_iff.mpr ⟨content, h⟩
            have hput : (store.put target (some value)).cells[target.index]? =
                some (.slot (some value)) := by
              rw [getElem?_put, if_pos ⟨rfl, hslot⟩]
            have hrest := ih hput
            rw [if_pos rfl, List.getLast?_cons]
            cases hlast : (Event.offered target rest).getLast? with
            | none =>
                rw [hlast] at hrest
                exact hrest
            | some last =>
                rw [hlast] at hrest
                exact hrest
          · rw [if_neg htarget]
            apply ih
            change (store.put target (some value)).cells[cell.index]? = _
            rw [getElem?_put_of_ne (index_ne_of_ne htarget), h]

/-- After a number has been offered to a slot, it is there to be read. -/
theorem read_replay_write {store : Store} {cell : Ref} (h : store.isSlot cell = true)
    (events : List Event) (value : Float) :
    let after := store.replay (events ++ [.write cell value])
    after.read cell = (some value, after) := by
  obtain ⟨content, hcell⟩ := isSlot_iff.mp h
  apply read_slot
  rw [getElem?_replay_slot hcell]
  simp [Event.offered, List.filterMap_append]

/-- A derived cell goes on as it was, with a count that has grown by as many
answers as were taken from it. -/
theorem getElem?_replay_derived {store : Store} {cell : Ref} {derivation : Derivation}
    {answered : Nat} (h : store.cells[cell.index]? = some (.derived derivation answered))
    (events : List Event) :
    ∃ more, (store.replay events).cells[cell.index]? =
        some (.derived derivation (answered + more)) ∧
      ((∀ source, .read source ∈ events → ¬ store.Reaches source cell) → more = 0) := by
  induction events generalizing store answered with
  | nil => exact ⟨0, h, fun _ => rfl⟩
  | cons event rest ih =>
      have hreaches : (store.happen event).Reaches = store.Reaches :=
        reaches_congr (plan_happen event store)
      have hlater : ∀ count, (store.happen event).cells[cell.index]? =
            some (.derived derivation (answered + count)) →
          ((∀ source, .read source ∈ event :: rest → ¬ store.Reaches source cell) → count = 0) →
          ∃ more, (store.replay (event :: rest)).cells[cell.index]? =
              some (.derived derivation (answered + more)) ∧
            ((∀ source, .read source ∈ event :: rest → ¬ store.Reaches source cell) →
              more = 0) := by
        intro count hcount hzero
        obtain ⟨more, hmore, hidle⟩ := ih hcount
        refine ⟨count + more, ?_, fun hunread => ?_⟩
        · rw [← Nat.add_assoc]
          exact hmore
        · rw [hzero hunread, hidle fun source hsource => ?_]
          rw [hreaches]
          exact hunread source (List.mem_cons_of_mem _ hsource)
      cases event with
      | call callback args => exact hlater 0 h fun _ => rfl
      | write target value =>
          refine hlater 0 ?_ fun _ => rfl
          change (store.put target (some value)).cells[cell.index]? = _
          have hno : ¬ (target.index = cell.index ∧ store.isSlot target = true) := by
            rintro ⟨hindex, hslot⟩
            obtain ⟨content, hcontent⟩ := isSlot_iff.mp hslot
            rw [hindex, h] at hcontent
            cases hcontent
          rw [getElem?_put, if_neg hno, h, Nat.add_zero]
      | read source =>
          let asked := answering store.plan (source.index + 1) source
          refine hlater (asked.count cell.index) ?_ fun hunread => ?_
          · change (store.read source).2.cells[cell.index]? = _
            rw [read_aged, getElem?_aged, h]
            rfl
          · apply List.count_eq_zero.mpr
            intro hasked
            exact hunread source List.mem_cons_self (reaches_of_mem_answering hasked)

/-- A cell with which no event has to do is left as it is. -/
theorem getElem?_replay_of_apart {store : Store} {cell : Ref} {events : List Event}
    (hwrites : ∀ value, .write cell value ∉ events)
    (hreads : ∀ source, .read source ∈ events → ¬ store.Reaches source cell) :
    (store.replay events).cells[cell.index]? = store.cells[cell.index]? := by
  induction events generalizing store with
  | nil => rfl
  | cons event rest ih =>
      have hreaches : (store.happen event).Reaches = store.Reaches :=
        reaches_congr (plan_happen event store)
      have hfirst : (store.happen event).cells[cell.index]? = store.cells[cell.index]? := by
        cases event with
        | call callback args => rfl
        | write target value =>
            have hother : target ≠ cell := by
              rintro rfl
              exact hwrites value List.mem_cons_self
            exact getElem?_put_of_ne (index_ne_of_ne hother) _
        | read source =>
            have hasked : cell.index ∉ answering store.plan (source.index + 1) source := fun h =>
              hreads source List.mem_cons_self (reaches_of_mem_answering h)
            have hsame : Cell.aged 0 = id := funext Cell.aged_zero
            rw [happen, read_aged, getElem?_aged, List.count_eq_zero.mpr hasked, hsame,
              Option.map_id, id]
      rw [← hfirst]
      apply ih
      · exact fun value hvalue => hwrites value (List.mem_cons_of_mem _ hvalue)
      · intro source hsource
        rw [hreaches]
        exact hreads source (List.mem_cons_of_mem _ hsource)

end Store

end Animation
