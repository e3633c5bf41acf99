import Animation.CommandLine.Commands
import Animation.Proofs.Document.StartingValue
import Animation.Proofs.Store.Answers

/-!
What assignments before the first pass come to. They are made one after the
other in the world that has the values of a document, and each can fail. If
none does, the world is the very one that the document would have led to with
these values in place of its own.
-/

namespace Animation.CommandLine

variable {document : Document} {after : World} {assignments : List Assignment}

/-- What a name is given by the last of the assignments to it. -/
def lastAssigned (assignments : List Assignment) (name : String) : Option Float :=
  assignments.reverse.findSome? fun assignment =>
    if assignment.name = name then some assignment.value else none

theorem lastAssigned_cons (assignment : Assignment) (rest : List Assignment) (name : String) :
    lastAssigned (assignment :: rest) name =
      (lastAssigned rest name).or
        (if assignment.name = name then some assignment.value else none) := by
  rw [lastAssigned, List.reverse_cons, List.findSome?_append, List.findSome?_singleton]
  rfl

/-- The document with other starting values for the names that are assigned
to. It declares the same names as before. -/
def overridden (document : Document) (assignments : List Assignment) : Document :=
  { document with
    values := document.values.map fun name content =>
      (lastAssigned assignments name).elim content some }

theorem getElem?_overridden (name : String) :
    (overridden document assignments).values[name]? =
      document.values[name]?.map fun content =>
        (lastAssigned assignments name).elim content some := by
  simp [overridden, Std.TreeMap.getElem?_map]

theorem overridden_nil (name : String) :
    document.values[name]? = (overridden document []).values[name]? := by
  rw [getElem?_overridden]
  exact Option.map_id'.symm

/-- Overriding may begin with the first assignment. -/
theorem overridden_cons {assignment : Assignment} (hdeclared : assignment.name ∈ document.values)
    (rest : List Assignment) (name : String) :
    (overridden (document.starting assignment.name assignment.value) rest).values[name]? =
      (overridden document (assignment :: rest)).values[name]? := by
  rw [getElem?_overridden, getElem?_overridden, Document.getElem?_starting, lastAssigned_cons]
  by_cases hname : assignment.name = name
  · subst hname
    obtain ⟨content, hcontent⟩ :=
      Option.isSome_iff_exists.mp (Std.TreeMap.mem_iff_isSome_getElem?.mp hdeclared)
    rw [if_pos rfl, if_pos rfl, hcontent]
    cases lastAssigned rest assignment.name <;> rfl
  · rw [if_neg hname, if_neg hname, Option.or_none]

end Animation.CommandLine

namespace Animation.Document

theorem Loaded.congr {document other : Document} {before after : World}
    (h : document.Loaded before after)
    (hvalues : ∀ name : String, document.values[name]? = other.values[name]?) :
    other.Loaded before after where
  names := h.names
  untouched := h.untouched
  binds name := by
    rw [h.binds, Std.TreeMap.mem_iff_isSome_getElem?, hvalues,
      ← Std.TreeMap.mem_iff_isSome_getElem?]
  fresh name content hnew hcontent := h.fresh name content hnew ((hvalues name).trans hcontent)

end Animation.Document

namespace Animation.CommandLine

variable {document : Document} {after : World}

/-! ### The world of a command -/

theorem not_binds_hostWorld (name : String) : ¬ hostWorld.names.Binds name := by
  simp [hostWorld, Names.insertCallback, Names.Binds]

theorem closed_hostWorld : hostWorld.Closed :=
  World.closed_insertCallback World.closed_empty "log" (Callback.within_record _ "log")

/-! ### One assignment after the other -/

/-- The same but for what the cells hold. -/
def Aligned (first second : World) : Prop :=
  first.names = second.names ∧ first.store.cells.size = second.store.cells.size

theorem assignAll_taken {assignment : Assignment}
    (h : (after.assign assignment.name assignment.value).1 = .ok true) (rest : List Assignment) :
    assignAll after (assignment :: rest) =
      assignAll (after.assign assignment.name assignment.value).2 rest := by
  rw [assignAll]
  rcases hassign : after.assign assignment.name assignment.value with ⟨_, next⟩
  rw [hassign] at h
  cases h
  rfl

theorem assignAll_unknown {assignment : Assignment} (h : ¬ after.names.Binds assignment.name)
    (rest : List Assignment) :
    assignAll after (assignment :: rest) = .error (.assign (.unknownValue assignment.name)) := by
  have hvalue : after.names.value assignment.name = .error (.unknownValue assignment.name) :=
    Names.value_eq_error.mpr ⟨h, rfl⟩
  simp only [assignAll, World.assign, hvalue]

/-- Either all names are declared and every assignment is taken, or one that
is not declared is to blame. -/
theorem assignAll_cases (hloaded : document.Loaded hostWorld after)
    (assignments : List Assignment) :
    ((∀ assignment ∈ assignments, assignment.name ∈ document.values) ∧
      ∃ final, assignAll after assignments = .ok final ∧ Aligned final after ∧
        (overridden document assignments).Loaded hostWorld final) ∨
    ∃ assignment ∈ assignments, assignment.name ∉ document.values ∧
      assignAll after assignments = .error (.assign (.unknownValue assignment.name)) := by
  induction assignments generalizing document after with
  | nil => exact .inl ⟨by simp, after, rfl, ⟨rfl, rfl⟩, hloaded.congr overridden_nil⟩
  | cons assignment rest ih =>
      by_cases hdeclared : assignment.name ∈ document.values
      · obtain ⟨htaken, hnext⟩ :=
          hloaded.assign assignment.value hdeclared (not_binds_hostWorld _)
        have hsame : ∀ other ∈ rest, other.name ∈ document.values ↔
            other.name ∈ (document.starting assignment.name assignment.value).values := by
          intro other _
          rw [Document.mem_starting]
          constructor
          · exact .inr
          · rintro (heq | hother)
            · exact heq ▸ hdeclared
            · exact hother
        rw [assignAll_taken htaken]
        rcases ih hnext with ⟨hall, final, hfinal, ⟨hnames, hsize⟩, hend⟩ |
          ⟨other, hother, hnot, hfault⟩
        · refine .inl ⟨?_, final, hfinal, ⟨?_, ?_⟩, hend.congr (overridden_cons hdeclared rest)⟩
          · exact List.forall_mem_cons.mpr
              ⟨hdeclared, fun other hother => (hsame other hother).mpr (hall other hother)⟩
          · rw [hnames, World.names_assign]
          · rw [hsize, World.size_assign]
        · refine .inr ⟨other, List.mem_cons_of_mem _ hother, ?_, hfault⟩
          exact fun hdeclared => hnot ((hsame other hother).mp hdeclared)
      · refine .inr ⟨assignment, List.mem_cons_self, hdeclared, assignAll_unknown ?_ rest⟩
        rw [hloaded.binds]
        exact not_or_intro (not_binds_hostWorld _) hdeclared

/-! ### The world from which the passes start -/

/-- Which cell is made depends on the names alone. -/
theorem Aligned.declareNew {first second : World} (h : Aligned first second) (name : String)
    (content content' : Option Float) :
    Aligned (Document.declareNew first name content)
      (Document.declareNew second name content') := by
  obtain ⟨hnames, hsize⟩ := h
  unfold Document.declareNew
  rw [← hnames]
  split
  · exact ⟨hnames, hsize⟩
  · refine ⟨?_, ?_⟩ <;> simp [World.declare, Store.allocate, Store.next, hnames, hsize]

theorem Aligned.foldl {first second : World} (h : Aligned first second)
    (entries : List (String × Option Float)) (replace : String → Option Float → Option Float) :
    Aligned
      (entries.foldl (fun world entry =>
        Document.declareNew world entry.1 (replace entry.1 entry.2)) first)
      (entries.foldl (fun world entry => Document.declareNew world entry.1 entry.2) second) := by
  induction entries generalizing first second with
  | nil => exact h
  | cons entry rest ih => exact ih (h.declareNew entry.1 _ entry.2)

end Animation.CommandLine
