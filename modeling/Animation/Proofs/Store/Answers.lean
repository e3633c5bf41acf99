import Animation.Proofs.Program.Replay
import Animation.Proofs.Store

/-!
Derived cells count how often they have answered, and these counts are all
that a reading changes in a store. Which cells answer when a cell is read is a
matter of what is derived from what; no content and no count has a part in it.
So readings may be made in any order, and before or after what is put into
slots, and the store does not tell.
-/

namespace Animation

namespace Cell

def derivation? : Cell → Option Derivation
  | .slot _ => none
  | .derived derivation _ => some derivation

/-- The cell when it has answered so many times more. Slots do not count. -/
def aged (times : Nat) : Cell → Cell
  | .slot content => .slot content
  | .derived derivation answered => .derived derivation (answered + times)

theorem aged_zero (cell : Cell) : cell.aged 0 = cell := by
  cases cell <;> rfl

theorem aged_aged (early late : Nat) (cell : Cell) :
    (cell.aged early).aged late = cell.aged (early + late) := by
  cases cell with
  | slot content => rfl
  | derived derivation answered => simp only [aged, Nat.add_assoc]

theorem derivation?_aged (times : Nat) (cell : Cell) :
    (cell.aged times).derivation? = cell.derivation? := by
  cases cell <;> rfl

end Cell

namespace Store

theorem ext_getElem? {store other : Store} (h : ∀ i : Nat, store.cells[i]? = other.cells[i]?) :
    store = other := by
  obtain ⟨cells⟩ := store
  obtain ⟨others⟩ := other
  exact congrArg mk (Array.ext_getElem? h)

theorem isSlot_put (ref other : Ref) (content : Option Float) (store : Store) :
    (store.put ref content).isSlot other = store.isSlot other := by
  rw [Bool.eq_iff_iff, isSlot_iff, isSlot_iff, getElem?_put]
  split
  · next h =>
      obtain ⟨hindex, hslot⟩ := h
      simp [← hindex, isSlot_iff.mp hslot]
  · rfl

theorem put_comm {ref other : Ref} (h : ref ≠ other) (content held : Option Float)
    (store : Store) :
    (store.put ref content).put other held = (store.put other held).put ref content := by
  have hindex := index_ne_of_ne h
  apply ext_getElem?
  intro i
  simp only [getElem?_put, isSlot_put]
  by_cases href : ref.index = i
  · have hother : other.index ≠ i := fun hi => hindex (href.trans hi.symm)
    simp only [hother, false_and, if_false]
  · simp only [href, false_and, if_false]

/-! ### Plans -/

/-- Which cells are derived, and in which way. -/
def plan (store : Store) (i : Nat) : Option Derivation :=
  store.cells[i]?.bind Cell.derivation?

theorem plan_eq_some {store : Store} {i : Nat} {derivation : Derivation} :
    store.plan i = some derivation ↔
      ∃ answered, store.cells[i]? = some (.derived derivation answered) := by
  unfold plan
  rcases store.cells[i]? with _ | ⟨_ | _⟩ <;> simp [Cell.derivation?]

theorem plan_put (ref : Ref) (content : Option Float) (store : Store) :
    (store.put ref content).plan = store.plan := by
  funext i
  unfold plan
  rw [getElem?_put]
  split
  · next h =>
      obtain ⟨rfl, hslot⟩ := h
      obtain ⟨held, hheld⟩ := isSlot_iff.mp hslot
      rw [hheld]
      rfl
  · rfl

theorem looksAt_iff {store : Store} {ref input : Ref} :
    store.LooksAt ref input ↔
      ∃ derivation, store.plan ref.index = some derivation ∧ input ∈ derivation.inputs ∧
        input.index < ref.index := by
  simp only [LooksAt, plan_eq_some, exists_and_right]

/-- What a reading goes through is a matter of the plan. -/
theorem reaches_congr {store other : Store} (h : store.plan = other.plan) :
    store.Reaches = other.Reaches := by
  have hlooks : store.LooksAt = other.LooksAt := by
    funext ref input
    rw [eq_iff_iff, looksAt_iff, looksAt_iff, h]
  unfold Reaches
  rw [hlooks]

/-! ### Counting answers -/

/-- The store when these cells have answered, once for each time that they are
in the list. -/
def aged (answering : List Nat) (store : Store) : Store :=
  ⟨store.cells.mapIdx fun i => Cell.aged (answering.count i)⟩

theorem getElem?_aged (answering : List Nat) (store : Store) (i : Nat) :
    (store.aged answering).cells[i]? = store.cells[i]?.map (Cell.aged (answering.count i)) :=
  Array.getElem?_mapIdx

theorem aged_nil (store : Store) : store.aged [] = store := by
  apply ext_getElem?
  intro i
  rw [getElem?_aged]
  cases store.cells[i]? with
  | none => rfl
  | some cell => exact congrArg some cell.aged_zero

theorem aged_append (early late : List Nat) (store : Store) :
    store.aged (early ++ late) = (store.aged early).aged late := by
  apply ext_getElem?
  intro i
  simp only [getElem?_aged, Option.map_map, Function.comp_def, Cell.aged_aged, List.count_append]

theorem aged_comm (early late : List Nat) (store : Store) :
    (store.aged early).aged late = (store.aged late).aged early := by
  apply ext_getElem?
  intro i
  simp only [getElem?_aged, Option.map_map, Function.comp_def, Cell.aged_aged, Nat.add_comm]

theorem plan_aged (answering : List Nat) (store : Store) :
    (store.aged answering).plan = store.plan := by
  funext i
  unfold plan
  rw [getElem?_aged]
  cases store.cells[i]? with
  | none => rfl
  | some cell => exact cell.derivation?_aged _

theorem put_aged (answering : List Nat) (store : Store) (ref : Ref) (content : Option Float) :
    (store.aged answering).put ref content = (store.put ref content).aged answering := by
  have hslot : (store.aged answering).isSlot ref = store.isSlot ref := by
    unfold isSlot
    rw [getElem?_aged]
    rcases store.cells[ref.index]? with _ | ⟨_ | _⟩ <;> rfl
  apply ext_getElem?
  intro i
  simp only [getElem?_put, getElem?_aged, hslot]
  split <;> rfl

/-! ### The answers that a reading takes -/

/-- The cells that answer when `ref` is read on behalf of the cell at `bound`,
inputs first. -/
def answering (plan : Nat → Option Derivation) : Nat → Ref → List Nat
  | 0, _ => []
  | bound + 1, ref =>
    if ref.index < bound then answering plan bound ref
    else if ref.index = bound then
      match plan bound with
      | none => []
      | some derivation => derivation.inputs.flatMap (answering plan bound) ++ [bound]
    else []

theorem lt_of_mem_answering {plan : Nat → Option Derivation} {bound i : Nat} {ref : Ref}
    (h : i ∈ answering plan bound ref) : i < bound := by
  induction bound generalizing ref with
  | zero => cases h
  | succ bound ih =>
      unfold answering at h
      split at h
      · exact Nat.lt_succ_of_lt (ih h)
      · split at h
        · split at h
          · cases h
          · rcases List.mem_append.mp h with hinput | hself
            · obtain ⟨input, -, hinput⟩ := List.mem_flatMap.mp hinput
              exact Nat.lt_succ_of_lt (ih hinput)
            · simp at hself
              omega
        · cases h

theorem index_lt_of_mem_answering {plan : Nat → Option Derivation} {bound i : Nat} {ref : Ref}
    (h : i ∈ answering plan bound ref) : ref.index < bound := by
  cases bound with
  | zero => cases h
  | succ bound =>
      unfold answering at h
      split at h
      · omega
      · split at h
        · omega
        · cases h

theorem readEach_aged {read : Ref → Store → Option Float × Store} {asked : Ref → List Nat}
    {plan : Nat → Option Derivation}
    (hread : ∀ ref store, store.plan = plan → (read ref store).2 = store.aged (asked ref))
    (refs : List Ref) {store : Store} (hplan : store.plan = plan) :
    (readEach read refs store).2 = store.aged (refs.flatMap asked) := by
  induction refs generalizing store with
  | nil => exact store.aged_nil.symm
  | cons ref rest ih =>
      have hmiddle : (store.aged (asked ref)).plan = plan := (plan_aged _ store).trans hplan
      simp only [readEach, List.flatMap_cons]
      rw [hread ref store hplan, ih hmiddle, aged_append]

/-- A cell that has answered with the help of others, which have left its own
count alone. -/
theorem setIfInBounds_aged {store : Store} {i answered : Nat} {derivation : Derivation}
    (hcell : store.cells[i]? = some (.derived derivation answered)) {asked : List Nat}
    (hasked : i ∉ asked) :
    ⟨(store.aged asked).cells.setIfInBounds i (.derived derivation (answered + 1))⟩ =
      store.aged (asked ++ [i]) := by
  apply ext_getElem?
  intro k
  by_cases hk : i = k
  · subst hk
    have hsize : i < (store.aged asked).cells.size := by
      simpa [aged] using lt_size_of_getElem? hcell
    simp [getElem?_aged, hcell, hsize, List.count_eq_zero.mpr hasked, Cell.aged]
  · have hnot : k ∉ [i] := fun h => hk (List.mem_singleton.mp h).symm
    simp only [Array.getElem?_setIfInBounds, hk, if_false, getElem?_aged, List.count_append,
      List.count_eq_zero.mpr hnot, Nat.add_zero]

theorem readBelow_aged (bound : Nat) (ref : Ref) (store : Store) :
    (readBelow bound ref store).2 = store.aged (answering store.plan bound ref) := by
  suffices h : ∀ plan, store.plan = plan →
      (readBelow bound ref store).2 = store.aged (answering plan bound ref) from h _ rfl
  intro plan hplan
  induction bound generalizing ref store with
  | zero => exact store.aged_nil.symm
  | succ bound ih =>
      unfold readBelow answering
      split
      · exact ih ref store hplan
      · split
        · rw [← hplan]
          cases hcell : store.cells[bound]? with
          | none =>
              have hnone : store.plan bound = none := by rw [Store.plan, hcell]; rfl
              simp only [hnone, aged_nil]
          | some cell =>
              cases cell with
              | slot content =>
                  have hnone : store.plan bound = none := by rw [Store.plan, hcell]; rfl
                  simp only [hnone, aged_nil]
              | derived derivation answered =>
                  have hasked : bound ∉ derivation.inputs.flatMap (answering plan bound) := by
                    intro h
                    obtain ⟨input, -, hinput⟩ := List.mem_flatMap.mp h
                    exact Nat.lt_irrefl _ (lt_of_mem_answering hinput)
                  simp only [plan_eq_some.mpr ⟨answered, hcell⟩, hplan]
                  rw [readEach_aged ih derivation.inputs hplan]
                  exact setIfInBounds_aged hcell hasked
        · exact store.aged_nil.symm

/-- A reading does nothing to a store but count answers. -/
theorem read_aged (ref : Ref) (store : Store) :
    (store.read ref).2 = store.aged (answering store.plan (ref.index + 1) ref) :=
  readBelow_aged _ ref store

theorem plan_read (ref : Ref) (store : Store) : (store.read ref).2.plan = store.plan := by
  rw [read_aged, plan_aged]

/-- A reading takes answers of the cells only that it goes through. -/
theorem reaches_of_mem_answering {store : Store} {bound i : Nat} {ref : Ref}
    (h : i ∈ answering store.plan bound ref) : store.Reaches ref ⟨i⟩ := by
  induction bound generalizing ref with
  | zero => cases h
  | succ bound ih =>
      unfold answering at h
      split at h
      · exact ih h
      · split at h
        · next hindex =>
            split at h
            · cases h
            · next derivation hderivation =>
                rcases List.mem_append.mp h with hinput | hself
                · obtain ⟨input, hmember, hinput⟩ := List.mem_flatMap.mp hinput
                  have holder := index_lt_of_mem_answering hinput
                  refine Relation.ReflTransGen.head ?_ (ih hinput)
                  exact looksAt_iff.mpr ⟨derivation, hindex ▸ hderivation, hmember, hindex ▸ holder⟩
                · cases List.mem_singleton.mp hself
                  subst hindex
                  exact .refl
        · cases h

end Store

/-! ### Events in another order -/

/-- The events do not write to one cell both. -/
def Event.Apart : Event → Event → Prop
  | .write target _, .write other _ => target ≠ other
  | _, _ => True

namespace Store

theorem happen_comm {early late : Event} (h : early.Apart late) (store : Store) :
    (store.happen early).happen late = (store.happen late).happen early := by
  cases early with
  | call callback args => rfl
  | read source =>
      cases late with
      | call callback args => rfl
      | read other => simp only [happen, read_aged, plan_aged, aged_comm]
      | write target value => simp only [happen, read_aged, plan_put, put_aged]
  | write target value =>
      cases late with
      | call callback args => rfl
      | read other => simp only [happen, read_aged, plan_put, put_aged]
      | write other held => exact put_comm h _ _ store

theorem happen_replay_comm {event : Event} {events : List Event}
    (h : ∀ other ∈ events, event.Apart other) (store : Store) :
    (store.happen event).replay events = (store.replay events).happen event := by
  induction events generalizing store with
  | nil => rfl
  | cons first rest ih =>
      obtain ⟨hfirst, hrest⟩ := List.forall_mem_cons.mp h
      change ((store.happen event).happen first).replay rest = _
      rw [happen_comm hfirst, ih hrest]
      rfl

/-- Events that are apart from all events of another list may all happen before
these or after them. -/
theorem replay_comm {early late : List Event}
    (h : ∀ event ∈ early, ∀ other ∈ late, event.Apart other) (store : Store) :
    (store.replay early).replay late = (store.replay late).replay early := by
  induction early generalizing store with
  | nil => rfl
  | cons first rest ih =>
      obtain ⟨hfirst, hrest⟩ := List.forall_mem_cons.mp h
      change ((store.happen first).replay rest).replay late = _
      rw [ih hrest, happen_replay_comm hfirst]
      rfl

theorem plan_happen (event : Event) (store : Store) : (store.happen event).plan = store.plan := by
  cases event with
  | read source => exact plan_read source store
  | write target value => exact plan_put target (some value) store
  | call callback args => rfl

end Store

end Animation
