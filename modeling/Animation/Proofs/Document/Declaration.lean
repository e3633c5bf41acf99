import Animation.Document
import Animation.Proofs.Names

/-!
What declaring values does to a world. Names that are bound keep what they
stand for, cells keep what they hold, and every other declared name gets a
slot of its own that was not there before.
-/

namespace Animation

/-- Every name stands for a cell that is there. -/
def World.Sound (world : World) : Prop :=
  ∀ name cell, world.names.value name = .ok cell → cell.index < world.store.cells.size

/-- The world `after` is `before` with those of the entries declared whose
names were not bound. Every new cell has such a name. -/
structure Declares (entries : List (String × Option Float)) (before after : World) : Prop where
  names : before.names.Extends after.names
  grows : before.store.cells.size ≤ after.store.cells.size
  untouched : ∀ i < before.store.cells.size, after.store.cells[i]? = before.store.cells[i]?
  binds : ∀ name, after.names.Binds name ↔
    before.names.Binds name ∨ ∃ content, (name, content) ∈ entries
  fresh : ∀ name cell, ¬ before.names.Binds name → after.names.value name = .ok cell →
    before.store.cells.size ≤ cell.index ∧
      ∃ content, (name, content) ∈ entries ∧
        after.store.cells[cell.index]? = some (.slot content)
  apart : ∀ name other cell, ¬ before.names.Binds name → ¬ before.names.Binds other →
    after.names.value name = .ok cell → after.names.value other = .ok cell → name = other
  covers : ∀ i, before.store.cells.size ≤ i → i < after.store.cells.size →
    ∃ name, ¬ before.names.Binds name ∧ after.names.value name = .ok ⟨i⟩

namespace Declares

theorem nil (world : World) : Declares [] world world where
  names := .refl _
  grows := Nat.le_refl _
  untouched _ _ := rfl
  binds name := by simp
  fresh name cell hunbound hcell := absurd (Names.binds_of_value hcell) hunbound
  apart name _ cell hunbound _ hcell _ := absurd (Names.binds_of_value hcell) hunbound
  covers i hnew hthere := absurd hthere (Nat.not_lt.mpr hnew)

/-- One name, which is passed over if it is bound already. -/
theorem single (name : String) (content : Option Float) (world : World) :
    Declares [(name, content)] world (Document.declareNew world name content) := by
  unfold Document.declareNew
  split
  · next hcontains =>
      have hbound := Names.containsValue_iff.mp hcontains
      refine { nil world with binds := ?_, fresh := ?_ }
      · intro other
        constructor
        · exact Or.inl
        · rintro (hother | ⟨_, hentry⟩)
          · exact hother
          · cases List.mem_singleton.mp hentry
            exact hbound
      · intro other cell hunbound hcell
        exact absurd (Names.binds_of_value hcell) hunbound
  · next hcontains =>
      have hunbound : ¬ world.names.Binds name := fun h =>
        hcontains (Names.containsValue_iff.mpr h)
      have hvalue : ∀ other, (world.declare name content).2.names.value other =
          if name = other then .ok world.store.next else world.names.value other :=
        fun other => Names.value_insertValue name other _ _
      refine ⟨⟨?_, rfl⟩, ?_, ?_, ?_, ?_, ?_, ?_⟩
      · intro other cell hcell
        rw [hvalue, if_neg, hcell]
        rintro rfl
        exact hunbound (Names.binds_of_value hcell)
      · simp [World.declare, Store.allocate]
      · intro i hi
        simp [World.declare, Store.allocate, Array.getElem?_push, Nat.ne_of_lt hi]
      · intro other
        rw [World.declare, Names.binds_insertValue]
        simp [or_comm, eq_comm]
      · intro other cell hother hcell
        rw [hvalue] at hcell
        split at hcell
        · next heq =>
            cases hcell
            cases heq
            exact ⟨Nat.le_refl _, content, List.mem_singleton_self _, Array.getElem?_push_size⟩
        · exact absurd (Names.binds_of_value hcell) hother
      · intro first second cell hfirst hsecond hone htwo
        rw [hvalue] at hone htwo
        split at hone
        · split at htwo
          · next heq heq' => exact heq.symm.trans heq'
          · exact absurd (Names.binds_of_value htwo) hsecond
        · exact absurd (Names.binds_of_value hone) hfirst
      · intro i hnew hthere
        have hlast : world.store.cells.size = i := by
          simp only [World.declare, Store.allocate, Array.size_push] at hthere
          omega
        exact ⟨name, hunbound, by rw [hvalue, if_pos rfl, ← hlast]; rfl⟩

theorem append {first second : List (String × Option Float)} {before middle after : World}
    (hfirst : Declares first before middle) (hsecond : Declares second middle after) :
    Declares (first ++ second) before after := by
  -- A name that the first entries declare has its slot already in the middle.
  have hdeclared : ∀ name cell, ¬ before.names.Binds name → middle.names.Binds name →
      after.names.value name = .ok cell →
      middle.names.value name = .ok cell ∧ cell.index < middle.store.cells.size := by
    intro name cell hunbound hbound hcell
    obtain ⟨known, hknown⟩ := Names.binds_iff.mp hbound
    cases (hsecond.names.values name known hknown).symm.trans hcell
    obtain ⟨-, content, -, hslot⟩ := hfirst.fresh name cell hunbound hknown
    exact ⟨hknown, (Array.getElem?_eq_some_iff.mp hslot).1⟩
  refine ⟨hfirst.names.trans hsecond.names, ?_, ?_, ?_, ?_, ?_, ?_⟩
  · exact Nat.le_trans hfirst.grows hsecond.grows
  · intro i hi
    rw [hsecond.untouched i (Nat.lt_of_lt_of_le hi hfirst.grows), hfirst.untouched i hi]
  · intro name
    rw [hsecond.binds, hfirst.binds]
    simp only [List.mem_append, or_assoc, exists_or]
  · intro name cell hunbound hcell
    by_cases hbound : middle.names.Binds name
    · obtain ⟨hknown, hindex⟩ := hdeclared name cell hunbound hbound hcell
      obtain ⟨hnew, content, hentry, hslot⟩ := hfirst.fresh name cell hunbound hknown
      refine ⟨hnew, content, List.mem_append_left _ hentry, ?_⟩
      rw [hsecond.untouched _ hindex, hslot]
    · obtain ⟨hnew, content, hentry, hslot⟩ := hsecond.fresh name cell hbound hcell
      exact ⟨Nat.le_trans hfirst.grows hnew, content, List.mem_append_right _ hentry, hslot⟩
  · intro name other cell hname hother hone htwo
    by_cases hbound : middle.names.Binds name <;> by_cases hbound' : middle.names.Binds other
    · obtain ⟨hknown, -⟩ := hdeclared name cell hname hbound hone
      obtain ⟨hknown', -⟩ := hdeclared other cell hother hbound' htwo
      exact hfirst.apart name other cell hname hother hknown hknown'
    · obtain ⟨-, hold⟩ := hdeclared name cell hname hbound hone
      obtain ⟨hnew, -⟩ := hsecond.fresh other cell hbound' htwo
      omega
    · obtain ⟨-, hold⟩ := hdeclared other cell hother hbound' htwo
      obtain ⟨hnew, -⟩ := hsecond.fresh name cell hbound hone
      omega
    · exact hsecond.apart name other cell hbound hbound' hone htwo
  · intro i hnew hthere
    by_cases hmiddle : i < middle.store.cells.size
    · obtain ⟨name, hunbound, hcell⟩ := hfirst.covers i hnew hmiddle
      exact ⟨name, hunbound, hsecond.names.values name _ hcell⟩
    · obtain ⟨name, hunbound, hcell⟩ := hsecond.covers i (Nat.le_of_not_lt hmiddle) hthere
      exact ⟨name, hunbound ∘ hfirst.names.binds, hcell⟩

theorem foldl (entries : List (String × Option Float)) (world : World) :
    Declares entries world
      (entries.foldl (fun world entry => Document.declareNew world entry.1 entry.2) world) := by
  induction entries generalizing world with
  | nil => exact nil world
  | cons entry rest ih => exact (single entry.1 entry.2 world).append (ih _)

/-- Where all names are bound nothing is declared. -/
theorem foldl_bound {entries : List (String × Option Float)} {world : World}
    (h : ∀ entry ∈ entries, world.names.Binds entry.1) :
    entries.foldl (fun world entry => Document.declareNew world entry.1 entry.2) world = world := by
  induction entries with
  | nil => rfl
  | cons entry rest ih =>
      obtain ⟨hentry, hrest⟩ := List.forall_mem_cons.mp h
      have hkept : Document.declareNew world entry.1 entry.2 = world := by
        rw [Document.declareNew, if_pos (Names.containsValue_iff.mpr hentry)]
      rw [List.foldl_cons, hkept, ih hrest]

/-- Sharing a cell with an older name is not possible for a declared one. -/
theorem apart_of_sound {entries : List (String × Option Float)} {before after : World}
    (h : Declares entries before after) (hsound : before.Sound) {name other : String} {cell : Ref}
    (hname : ¬ before.names.Binds name) (hone : after.names.value name = .ok cell)
    (htwo : after.names.value other = .ok cell) : name = other := by
  by_cases hother : before.names.Binds other
  · obtain ⟨known, hknown⟩ := Names.binds_iff.mp hother
    cases (h.names.values other known hknown).symm.trans htwo
    have hold := hsound other cell hknown
    obtain ⟨hnew, -⟩ := h.fresh name cell hname hone
    omega
  · exact h.apart name other cell hname hother hone htwo

theorem sound {entries : List (String × Option Float)} {before after : World}
    (h : Declares entries before after) (hsound : before.Sound) : after.Sound := by
  intro name cell hcell
  by_cases hbound : before.names.Binds name
  · obtain ⟨known, hknown⟩ := Names.binds_iff.mp hbound
    cases (h.names.values name known hknown).symm.trans hcell
    exact Nat.lt_of_lt_of_le (hsound name cell hknown) h.grows
  · obtain ⟨-, content, -, hslot⟩ := h.fresh name cell hbound hcell
    exact (Array.getElem?_eq_some_iff.mp hslot).1

end Declares

namespace Document

theorem mem_values {document : Document} {name : String} :
    name ∈ document.values ↔ ∃ content, (name, content) ∈ document.values.toList := by
  simp only [Std.TreeMap.mem_iff_isSome_getElem?, Option.isSome_iff_exists,
    Std.TreeMap.mem_toList_iff_getElem?_eq_some]

theorem declares (document : Document) (world : World) :
    Declares document.values.toList world (document.declareValues world) := by
  rw [declareValues, Std.TreeMap.foldl_eq_foldl_toList]
  exact Declares.foldl _ _

theorem declareValues_bound {document : Document} {world : World}
    (h : ∀ name, name ∈ document.values → world.names.Binds name) :
    document.declareValues world = world := by
  rw [declareValues, Std.TreeMap.foldl_eq_foldl_toList]
  apply Declares.foldl_bound
  rintro ⟨name, content⟩ hentry
  exact h name (mem_values.mpr ⟨content, hentry⟩)

/-- The names that are bound once the values of a document are declared. -/
theorem binds_declareValues {document : Document} {world : World} {name : String} :
    (document.declareValues world).names.Binds name ↔
      world.names.Binds name ∨ name ∈ document.values := by
  rw [(document.declares world).binds, mem_values]

theorem compile_fst (document : Document) (world : World) :
    (document.compile world).1 = document.program (document.declareValues world).names := by
  simp only [compile]
  split
  · next h => exact h.symm
  · next h => exact h.symm

theorem compile_eq_ok {document : Document} {world : World} {program : Program}
    (h : document.program (document.declareValues world).names = .ok program) :
    document.compile world = (.ok program, document.declareValues world) := by
  simp only [compile, h]

/-- Only a document that compiles has its values declared. -/
theorem compile_snd (document : Document) (world : World) :
    (document.compile world).2 =
      match (document.compile world).1 with
      | .ok _ => document.declareValues world
      | .error _ => world := by
  rw [compile_fst]
  simp only [compile]
  split <;> simp [*]

end Document

end Animation
