import Animation.Proofs.Document.Declaration
import Animation.Proofs.Element.Resolution

/-!
What a document that compiles leaves in a world, and what it finds there when
it is compiled again. By then it has nothing to declare, and as the names it
uses still stand for what they stood for, its program is the same one.
-/

namespace Animation.Document

/-- The world `after` has the values of a document besides what was there
`before`. -/
structure Loaded (document : Document) (before after : World) : Prop where
  names : before.names.Extends after.names
  untouched : ∀ i < before.store.cells.size, after.store.cells[i]? = before.store.cells[i]?
  binds : ∀ name, after.names.Binds name ↔ before.names.Binds name ∨ name ∈ document.values
  /-- A new value is in a new cell, under one name only. -/
  fresh : ∀ name content, ¬ before.names.Binds name → document.values[name]? = some content →
    ∃ cell, after.names.value name = .ok cell ∧
      before.store.cells.size ≤ cell.index ∧
      after.store.isSlot cell = true ∧
      after.store.read cell = (content, after.store) ∧
      ∀ other, after.names.value other = .ok cell → other = name

theorem loaded_declareValues {world : World} (hsound : world.Sound) (document : Document) :
    document.Loaded world (document.declareValues world) := by
  have hdeclares := document.declares world
  refine ⟨hdeclares.names, hdeclares.untouched, fun _ => binds_declareValues, ?_⟩
  intro name content hunbound hvalue
  have hentry : (name, content) ∈ document.values.toList :=
    Std.TreeMap.mem_toList_iff_getElem?_eq_some.mpr hvalue
  obtain ⟨cell, hcell⟩ := Names.binds_iff.mp
    ((hdeclares.binds name).mpr (Or.inr ⟨content, hentry⟩))
  obtain ⟨hnew, declared, hdeclared, hslot⟩ := hdeclares.fresh name cell hunbound hcell
  have hcontent : declared = content := by
    rw [Std.TreeMap.mem_toList_iff_getElem?_eq_some, hvalue] at hdeclared
    exact (Option.some.inj hdeclared).symm
  rw [hcontent] at hslot
  refine ⟨cell, hcell, hnew, ?_, Store.read_slot hslot, ?_⟩
  · simp [Store.isSlot, hslot]
  · intro other hother
    exact (hdeclares.apart_of_sound hsound hunbound hcell hother).symm

/-- Compiling a document once more gives the same program, as long as no name
has got another meaning, and declares nothing. -/
theorem compile_again {document : Document} {world later : World} {program : Program}
    (h : (document.compile world).1 = .ok program)
    (hnames : (document.compile world).2.names.Extends later.names) :
    document.compile later = (.ok program, later) := by
  rw [compile_snd, h] at hnames
  have hbound : document.declareValues later = later := by
    apply declareValues_bound
    intro name hname
    exact hnames.binds (binds_declareValues.mpr (Or.inr hname))
  rw [compile_fst, Document.program, Walk.bind_eq_ok] at h
  obtain ⟨expression, hresolve, hcompile⟩ := h
  have hprogram : document.program later.names = .ok program :=
    Walk.bind_eq_ok.mpr ⟨expression, Element.resolve_extends hnames hresolve, hcompile⟩
  simp only [compile, hbound, hprogram]

end Animation.Document
