import Animation.Store
import Mathlib.Logic.Relation

/-!
What reading and writing do to the cells of a store. Neither adds or removes a
cell or turns a slot into a derived cell, and a reading depends on no cells but
those that it goes through.
-/

namespace Animation.Store

theorem index_ne_of_ne {ref other : Ref} (h : ref ≠ other) : ref.index ≠ other.index := by
  obtain ⟨i⟩ := ref
  obtain ⟨k⟩ := other
  rintro rfl
  exact h rfl

theorem size_put (ref : Ref) (content : Option Float) (store : Store) :
    (store.put ref content).cells.size = store.cells.size := by
  unfold put
  split
  · simp
  · rfl

theorem size_readEach {read : Ref → Store → Option Float × Store}
    (hread : ∀ ref store, (read ref store).2.cells.size = store.cells.size) (refs : List Ref)
    (store : Store) : (readEach read refs store).2.cells.size = store.cells.size := by
  induction refs generalizing store with
  | nil => rfl
  | cons ref rest ih =>
      simp only [readEach]
      rw [ih, hread]

theorem size_readBelow (bound : Nat) (ref : Ref) (store : Store) :
    (readBelow bound ref store).2.cells.size = store.cells.size := by
  induction bound generalizing ref store with
  | zero => rfl
  | succ bound ih =>
      unfold readBelow
      split
      · exact ih ref store
      · split
        · split
          · rfl
          · rfl
          · simp only [Array.size_setIfInBounds]
            exact size_readEach ih _ store
        · rfl

theorem size_read (ref : Ref) (store : Store) :
    (store.read ref).2.cells.size = store.cells.size :=
  size_readBelow _ ref store

theorem size_readAll (refs : List Ref) (store : Store) :
    (store.readAll refs).2.cells.size = store.cells.size :=
  size_readEach size_read refs store

/-! ### Slots -/

theorem lt_size_of_getElem? {store : Store} {i : Nat} {cell : Cell}
    (h : store.cells[i]? = some cell) : i < store.cells.size :=
  (Array.getElem?_eq_some_iff.mp h).1

theorem isSlot_iff {store : Store} {ref : Ref} :
    store.isSlot ref = true ↔ ∃ content, store.cells[ref.index]? = some (.slot content) := by
  unfold isSlot
  split
  · next content h => simp [h]
  · next h => simpa using h

theorem getElem?_put (store : Store) (ref : Ref) (content : Option Float) (i : Nat) :
    (store.put ref content).cells[i]? =
      if ref.index = i ∧ store.isSlot ref = true then some (.slot content)
      else store.cells[i]? := by
  by_cases hslot : store.isSlot ref = true
  · obtain ⟨_, hcell⟩ := isSlot_iff.mp hslot
    have hbound := lt_size_of_getElem? hcell
    by_cases hi : ref.index = i
    · subst hi
      simp [put, hslot, hbound]
    · simp [getElem?_put_of_ne hi, hi]
  · simp [put, hslot]

theorem derived_put {store : Store} {ref : Ref} {content : Option Float} {i : Nat}
    {derivation : Derivation} {answered : Nat}
    (h : (store.put ref content).cells[i]? = some (.derived derivation answered)) :
    store.cells[i]? = some (.derived derivation answered) := by
  rw [getElem?_put] at h
  split at h
  · cases h
  · exact h

/-- A cell without how often it has answered, which is all that reading it can
change. -/
def unread : Cell → Cell
  | .slot content => .slot content
  | .derived derivation _ => .derived derivation 0

theorem unread_readEach {read : Ref → Store → Option Float × Store} {i : Nat}
    (hread : ∀ ref store, (read ref store).2.cells[i]?.map unread = store.cells[i]?.map unread)
    (refs : List Ref) (store : Store) :
    (readEach read refs store).2.cells[i]?.map unread = store.cells[i]?.map unread := by
  induction refs generalizing store with
  | nil => rfl
  | cons ref rest ih =>
      simp only [readEach]
      rw [ih, hread]

theorem unread_readBelow (bound : Nat) (ref : Ref) (store : Store) (i : Nat) :
    (readBelow bound ref store).2.cells[i]?.map unread = store.cells[i]?.map unread := by
  induction bound generalizing ref store with
  | zero => rfl
  | succ bound ih =>
      unfold readBelow
      split
      · exact ih ref store
      · split
        · split
          · rfl
          · rfl
          · next derivation answered hcell =>
              have hafter := unread_readEach ih derivation.inputs store
              by_cases hi : bound = i
              · subst hi
                have hsize := size_readEach (size_readBelow bound) derivation.inputs store
                have hbound := hsize ▸ lt_size_of_getElem? hcell
                simp [hcell, hbound, unread]
              · simpa only [Array.getElem?_setIfInBounds, hi, if_false] using hafter
        · rfl

theorem unread_read (ref : Ref) (store : Store) (i : Nat) :
    (store.read ref).2.cells[i]?.map unread = store.cells[i]?.map unread :=
  unread_readBelow _ ref store i

theorem unread_eq_slot {store : Store} {i : Nat} {content : Option Float} :
    store.cells[i]?.map unread = some (.slot content) ↔
      store.cells[i]? = some (.slot content) := by
  rcases store.cells[i]? with _ | ⟨_ | _⟩ <;> simp [unread]

theorem unread_eq_derived {store : Store} {i : Nat} {derivation : Derivation} :
    store.cells[i]?.map unread = some (.derived derivation 0) ↔
      ∃ answered, store.cells[i]? = some (.derived derivation answered) := by
  rcases store.cells[i]? with _ | ⟨_ | _⟩ <;> simp [unread]

/-- Reading a cell does not concern what is in the slots. -/
theorem slot_read (ref : Ref) (store : Store) (i : Nat) (content : Option Float) :
    (store.read ref).2.cells[i]? = some (.slot content) ↔
      store.cells[i]? = some (.slot content) := by
  rw [← unread_eq_slot, unread_read, unread_eq_slot]

/-- Nor does it concern which cells are derived, and from what. -/
theorem derived_read (ref : Ref) (store : Store) (i : Nat) (derivation : Derivation) :
    (∃ answered, (store.read ref).2.cells[i]? = some (.derived derivation answered)) ↔
      ∃ answered, store.cells[i]? = some (.derived derivation answered) := by
  rw [← unread_eq_derived, unread_read, unread_eq_derived]

/-! ### Stores that agree -/

/-- Cells that are alike hold the same, or give the same answers from now on. -/
structure Lasting (alike : Cell → Cell → Prop) : Prop where
  slot : ∀ {content cell}, alike (.slot content) cell ↔ .slot content = cell
  derived : ∀ {derivation answered cell}, alike (.derived derivation answered) cell →
    ∃ count, .derived derivation count = cell ∧ derivation.rule answered = derivation.rule count ∧
      alike (.derived derivation (answered + 1)) (.derived derivation (count + 1))

theorem lasting_eq : Lasting Eq where
  slot := Iff.rfl
  derived := fun h => ⟨_, h, rfl, rfl⟩

/-- The stores have alike cells wherever they are `known`, and everything that
a derived one of these looks at is known as well. -/
structure AgreeUpTo (alike : Cell → Cell → Prop) (known : Ref → Prop) (store other : Store) :
    Prop where
  same : ∀ ref, known ref → Option.Rel alike store.cells[ref.index]? other.cells[ref.index]?
  inputs : ∀ ref derivation answered, known ref →
    store.cells[ref.index]? = some (.derived derivation answered) →
    ∀ input ∈ derivation.inputs, input.index < ref.index → known input

/-- The stores have the same in every cell that is `known`, and everything
that a derived one of these looks at is known as well. -/
structure Agree (known : Ref → Prop) (store other : Store) : Prop where
  same : ∀ ref, known ref → store.cells[ref.index]? = other.cells[ref.index]?
  inputs : ∀ ref derivation answered, known ref →
    store.cells[ref.index]? = some (.derived derivation answered) →
    ∀ input ∈ derivation.inputs, input.index < ref.index → known input

variable {alike : Cell → Cell → Prop} {known : Ref → Prop} {store other : Store}

theorem agree_iff : Agree known store other ↔ AgreeUpTo Eq known store other := by
  have hrel : ∀ {slot twin : Option Cell}, Option.Rel Eq slot twin ↔ slot = twin := by
    rintro (_ | cell) (_ | twin)
    · simp
    · simp
    · simp
    · simp
  exact ⟨fun h => ⟨fun ref hknown => hrel.mpr (h.same ref hknown), h.inputs⟩,
    fun h => ⟨fun ref hknown => hrel.mp (h.same ref hknown), h.inputs⟩⟩

theorem agree_below {bound : Nat}
    (h : ∀ i < bound, store.cells[i]? = other.cells[i]?) :
    Agree (fun ref => ref.index < bound) store other where
  same ref hknown := h ref.index hknown
  inputs _ _ _ hknown _ _ _ hinput := Nat.lt_trans hinput hknown

theorem Lasting.isSlot_eq (hlasting : Lasting alike) {ref : Ref}
    (h : Option.Rel alike store.cells[ref.index]? other.cells[ref.index]?) :
    store.isSlot ref = other.isSlot ref := by
  unfold isSlot
  generalize store.cells[ref.index]? = slot, other.cells[ref.index]? = twin at h
  cases h with
  | none => rfl
  | @some cell _ h =>
      cases cell with
      | slot content => rw [← hlasting.slot.mp h]
      | derived derivation answered =>
          obtain ⟨_, rfl, -⟩ := hlasting.derived h
          rfl

/-- A cell takes the same in stores that agree, be it known or not. -/
theorem AgreeUpTo.put (hlasting : Lasting alike) (h : AgreeUpTo alike known store other)
    (ref : Ref) (content : Option Float) :
    AgreeUpTo alike known (store.put ref content) (other.put ref content) where
  same target hknown := by
    have hsame := h.same target hknown
    rw [getElem?_put, getElem?_put]
    by_cases hindex : ref.index = target.index
    · rw [hlasting.isSlot_eq (hindex ▸ hsame : Option.Rel alike store.cells[ref.index]? _)]
      split
      · exact .some (hlasting.slot.mpr rfl)
      · exact hsame
    · simp only [hindex, false_and, if_false]
      exact hsame
  inputs target derivation answered hknown hcell :=
    h.inputs target derivation answered hknown (derived_put hcell)

theorem Agree.put (h : Agree known store other) (ref : Ref) (content : Option Float) :
    Agree known (store.put ref content) (other.put ref content) :=
  agree_iff.mpr ((agree_iff.mp h).put lasting_eq ref content)

/-- Cells that are not known take what they like. -/
theorem Agree.put_unknown (h : Agree known store other) {ref twin : Ref} (href : ¬ known ref)
    (htwin : ¬ known twin) (content : Option Float) :
    Agree known (store.put ref content) (other.put twin content) where
  same target hknown := by
    have haway : ∀ away : Ref, ¬ known away → away.index ≠ target.index := by
      intro away hunknown
      apply index_ne_of_ne
      rintro rfl
      exact hunknown hknown
    rw [getElem?_put_of_ne (haway ref href), getElem?_put_of_ne (haway twin htwin)]
    exact h.same target hknown
  inputs target derivation answered hknown hcell :=
    h.inputs target derivation answered hknown (derived_put hcell)

theorem AgreeUpTo.replace (h : AgreeUpTo alike known store other) {i : Nat} {cell twin : Cell}
    (hstore : i < store.cells.size) (hother : i < other.cells.size) (halike : alike cell twin)
    (hinputs : ∀ derivation answered, cell = .derived derivation answered →
      ∀ input ∈ derivation.inputs, input.index < i → known input) :
    AgreeUpTo alike known ⟨store.cells.setIfInBounds i cell⟩
      ⟨other.cells.setIfInBounds i twin⟩ where
  same target hknown := by
    simp only [Array.getElem?_setIfInBounds, hstore, hother, if_true]
    split
    · exact .some halike
    · exact h.same target hknown
  inputs target derivation answered hknown hcell := by
    by_cases hi : i = target.index
    · simp only [Array.getElem?_setIfInBounds, hi, if_true, hi ▸ hstore, Option.some.injEq]
        at hcell
      exact hi ▸ hinputs derivation answered hcell
    · simp only [Array.getElem?_setIfInBounds, hi, if_false] at hcell
      exact h.inputs target derivation answered hknown hcell

/-- The two readings are the same, and leave stores that agree. -/
def ReadAlike (alike : Cell → Cell → Prop) (known : Ref → Prop)
    (read : Ref → Store → Option Float × Store) (ref : Ref) : Prop :=
  ∀ store other, AgreeUpTo alike known store other →
    (read ref store).1 = (read ref other).1 ∧
      AgreeUpTo alike known (read ref store).2 (read ref other).2

theorem AgreeUpTo.readEach {read : Ref → Store → Option Float × Store} {refs : List Ref}
    (h : AgreeUpTo alike known store other)
    (hread : ∀ ref ∈ refs, ReadAlike alike known read ref) :
    (readEach read refs store).1 = (readEach read refs other).1 ∧
      AgreeUpTo alike known (readEach read refs store).2 (readEach read refs other).2 := by
  induction refs generalizing store other with
  | nil => exact ⟨rfl, h⟩
  | cons ref rest ih =>
      obtain ⟨hfirst, hothers⟩ := List.forall_mem_cons.mp hread
      obtain ⟨hreading, hmiddle⟩ := hfirst store other h
      obtain ⟨hreadings, hafter⟩ := ih hmiddle hothers
      simp only [Store.readEach]
      exact ⟨by rw [hreading, hreadings], hafter⟩

theorem readBelow_of_le {bound : Nat} {ref : Ref} (h : bound ≤ ref.index) (store : Store) :
    readBelow bound ref store = (none, store) := by
  cases bound with
  | zero => rfl
  | succ bound =>
      have hless : ¬ ref.index < bound := by omega
      have hne : ref.index ≠ bound := by omega
      rw [readBelow, if_neg hless, if_neg hne]

theorem readAlike_readBelow (hlasting : Lasting alike) (bound : Nat) {ref : Ref}
    (hknown : known ref) : ReadAlike alike known (readBelow bound) ref := by
  intro store other h
  induction bound generalizing ref store other with
  | zero => exact ⟨rfl, h⟩
  | succ bound ih =>
      by_cases hless : ref.index < bound
      · simp only [readBelow, hless, if_true]
        exact ih hknown store other h
      · by_cases heq : ref.index = bound
        · subst heq
          have hsame := h.same ref hknown
          simp only [readBelow, Nat.lt_irrefl, if_false, if_true]
          cases hcell : store.cells[ref.index]? with
          | none =>
              rw [hcell] at hsame
              generalize other.cells[ref.index]? = twin at hsame
              cases hsame
              exact ⟨rfl, h⟩
          | some cell =>
              obtain ⟨twin, htwin, halike⟩ : ∃ twin, other.cells[ref.index]? = some twin ∧
                  alike cell twin := by
                rw [hcell] at hsame
                generalize other.cells[ref.index]? = found at hsame
                cases hsame with
                | some halike => exact ⟨_, rfl, halike⟩
              rw [htwin]
              cases cell with
              | slot content =>
                  cases hlasting.slot.mp halike
                  exact ⟨rfl, h⟩
              | derived derivation answered =>
                  obtain ⟨count, rfl, hrule, hnext⟩ := hlasting.derived halike
                  have hinputs := h.inputs ref derivation answered hknown hcell
                  have hread : ∀ input ∈ derivation.inputs,
                      ReadAlike alike known (readBelow ref.index) input := by
                    intro input hinput store other h
                    by_cases holder : input.index < ref.index
                    · exact ih (hinputs input hinput holder) store other h
                    · rw [readBelow_of_le (Nat.le_of_not_lt holder),
                        readBelow_of_le (Nat.le_of_not_lt holder)]
                      exact ⟨rfl, h⟩
                  obtain ⟨hreadings, hafter⟩ := h.readEach hread
                  refine ⟨by simp only [hreadings, hrule], ?_⟩
                  -- Both stores still have the cell that counts this answer.
                  have hsize := lt_size_of_getElem? hcell
                  have hsize' := lt_size_of_getElem? htwin
                  rw [← size_readEach (size_readBelow ref.index) derivation.inputs]
                    at hsize hsize'
                  apply hafter.replace hsize hsize' hnext
                  rintro _ _ ⟨⟩
                  exact hinputs
        · simp only [readBelow, hless, heq, if_false]
          exact ⟨trivial, h⟩

theorem AgreeUpTo.read (hlasting : Lasting alike) (h : AgreeUpTo alike known store other)
    {ref : Ref} (hknown : known ref) :
    (store.read ref).1 = (other.read ref).1 ∧
      AgreeUpTo alike known (store.read ref).2 (other.read ref).2 :=
  readAlike_readBelow hlasting _ hknown store other h

theorem Agree.read (h : Agree known store other) {ref : Ref} (hknown : known ref) :
    (store.read ref).1 = (other.read ref).1 ∧
      Agree known (store.read ref).2 (other.read ref).2 := by
  obtain ⟨hreading, hafter⟩ := (agree_iff.mp h).read lasting_eq hknown
  exact ⟨hreading, agree_iff.mpr hafter⟩

/-! ### What a reading depends on -/

/-- Reading `ref` reads `input` on its way. -/
def LooksAt (store : Store) (ref input : Ref) : Prop :=
  ∃ derivation answered, store.cells[ref.index]? = some (.derived derivation answered) ∧
    input ∈ derivation.inputs ∧ input.index < ref.index

/-- A reading of `ref` goes through `input`, be it `ref` itself. -/
def Reaches (store : Store) : Ref → Ref → Prop :=
  Relation.ReflTransGen store.LooksAt

theorem reaches_slot {ref input : Ref} {content : Option Float}
    (h : store.cells[ref.index]? = some (.slot content)) :
    store.Reaches ref input ↔ input = ref := by
  apply Relation.ReflTransGen.cases_head_iff.trans
  constructor
  · rintro (rfl | ⟨_, ⟨_, _, hderived, -⟩, -⟩)
    · rfl
    · cases h.symm.trans hderived
  · rintro rfl
    exact .inl rfl

theorem reaches_derived {ref cell : Ref} {derivation : Derivation} {answered : Nat}
    (h : store.cells[ref.index]? = some (.derived derivation answered)) :
    store.Reaches ref cell ↔ cell = ref ∨
      ∃ input ∈ derivation.inputs, input.index < ref.index ∧ store.Reaches input cell := by
  apply Relation.ReflTransGen.cases_head_iff.trans
  constructor
  · rintro (rfl | ⟨input, ⟨_, _, hderived, hinput, holder⟩, hrest⟩)
    · exact .inl rfl
    · cases h.symm.trans hderived
      exact .inr ⟨input, hinput, holder, hrest⟩
  · rintro (rfl | ⟨input, hinput, holder, hrest⟩)
    · exact .inl rfl
    · exact .inr ⟨input, ⟨derivation, answered, h, hinput, holder⟩, hrest⟩

/-- What is put into a cell that a reading does not go through does not show in
it. -/
theorem read_put_of_not_reaches {ref target : Ref} (h : ¬ store.Reaches ref target)
    (content : Option Float) : ((store.put target content).read ref).1 = (store.read ref).1 := by
  have hagree : Agree (store.Reaches ref) (store.put target content) store := by
    constructor
    · intro reached hreached
      apply getElem?_put_of_ne
      apply index_ne_of_ne
      rintro rfl
      exact h hreached
    · intro reached derivation answered hreached hcell input hinput holder
      exact hreached.tail ⟨derivation, answered, derived_put hcell, hinput, holder⟩
  exact (hagree.read .refl).1

end Animation.Store
