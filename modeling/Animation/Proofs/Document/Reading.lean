import Animation.Document.OfJson
import Animation.Proofs.Element.Members
import Animation.Proofs.Json.RoundTrip

/-!
Documents in JSON, member by member. The members of an object are decoded one
after the other by their names, and what an outline leaves out before that is
only what has an unknown name. A document that is written is therefore read
back, if its numbers are whole.
-/

namespace Animation

namespace Json

variable {α : Type}

/-- Decodes the only member with this name. -/
def member? (decode : Json → Option α) (absent : Option α) (name : String)
    (members : List (String × Json)) : Option α :=
  (unique? name members).bind fun
    | none => absent
    | some json => decode json

theorem member?_bind {β : Type} (decode : Json → Option α) (absent : Option α) (name : String)
    (members : List (String × Json)) (next : α → Option β) :
    (member? decode absent name members).bind next =
      (unique? name members).bind fun
        | none => absent.bind next
        | some json => (decode json).bind next := by
  rw [member?, Option.bind_assoc]
  congr 1
  funext found
  cases found <;> rfl

theorem mem_of_unique? {name : String} {value : Json} {members : List (String × Json)}
    (h : unique? name members = some (some value)) : (name, value) ∈ members := by
  rw [← mem_valuesOf]
  unfold unique? at h
  split at h
  · cases h
  · next hvalues =>
      cases h
      simp [hvalues]
  · cases h

theorem exists_of_member? {decode : Json → Option α} {name : String}
    {members : List (String × Json)} {result : α}
    (h : member? decode none name members = some result) :
    ∃ json, (name, json) ∈ members ∧ decode json = some result := by
  obtain ⟨found, hfound, hresult⟩ := Option.bind_eq_some_iff.mp h
  cases found with
  | none => cases hresult
  | some json => exact ⟨json, mem_of_unique? hfound, hresult⟩

end Json

namespace Outline

variable {depth : Nat} {outline : Outline} {outlines : List (Option String × Outline)}
  {members : List (String × Json)}

theorem exists_of_value?_object (h : outline.value? depth = some (.object members)) :
    ∃ inner outlines, depth = inner + 1 ∧ outline = .object outlines ∧
      memberValues? inner outlines = some members := by
  cases outline with
  | object outlines =>
      cases depth with
      | zero => simp [value?] at h
      | succ inner =>
          rw [value?] at h
          obtain ⟨members, hmembers, hobject⟩ := Option.map_eq_some_iff.mp h
          cases hobject
          exact ⟨inner, outlines, rfl, rfl, hmembers⟩
  | array items => cases depth <;> simp [value?] at h
  | _ => simp [value?] at h

/-- Each member of an outline that has a value is a member of the value. -/
theorem exists_of_memberValues? (h : memberValues? depth outlines = some members)
    {entry : Option String × Outline} (hentry : entry ∈ outlines) :
    ∃ name value, (name, value) ∈ members ∧ entry.1 = some name ∧
      entry.2.value? depth = some value := by
  induction outlines generalizing members with
  | nil => cases hentry
  | cons first rest ih =>
      simp only [memberValues?, Option.bind_eq_bind, Option.bind_eq_some_iff, Option.pure_def,
        Option.some.injEq] at h
      obtain ⟨name, hname, value, hvalue, others, hothers, rfl⟩ := h
      rcases List.mem_cons.mp hentry with rfl | hrest
      · exact ⟨name, value, List.mem_cons_self, hname, hvalue⟩
      · obtain ⟨name, value, hmember, hfound⟩ := ih hothers hrest
        exact ⟨name, value, List.mem_cons_of_mem _ hmember, hfound⟩

/-- Where all names are known, nothing is left out. -/
theorem keeping_eq {keep : String → Bool} (h : outline.value? depth = some (.object members))
    (hknown : ∀ member ∈ members, keep member.1 = true) : outline.keeping keep = outline := by
  obtain ⟨depth, outlines, -, rfl, hmembers⟩ := exists_of_value?_object h
  rw [keeping, List.filter_eq_self.mpr]
  intro entry hentry
  obtain ⟨name, value, hmember, hname, -⟩ := exists_of_memberValues? hmembers hentry
  simp [hname, hknown _ hmember]

end Outline

namespace Document

theorem ofJson?_object (members : List (String × Json)) :
    ofJson? (.object members) = (do
      let values ← Json.member? values? (some ∅) "values" members
      let limits ← Json.member? Limits.ofJson? (some {}) "options" members
      let root ← Json.member? Element.ofJson? none "root" members
      pure { values, limits, root }) := by
  conv_rhs => simp only [Option.bind_eq_bind, Json.member?_bind]
  rfl

section

variable {members : List (String × Json)}

/-- Nothing is skipped in a document whose members are all known. -/
theorem relevant_eq {depth : Nat} {outline : Outline}
    (h : outline.value? depth = some (.object members))
    (hknown : ∀ member ∈ members, memberNames.contains member.1 = true)
    (hoptions : ∀ json, ("options", json) ∈ members → ∃ limits : Limits, json = limits.toJson) :
    relevant outline = outline := by
  obtain ⟨depth, outlines, -, rfl, hmembers⟩ := Outline.exists_of_value?_object h
  have hkeeping : Outline.keeping memberNames.contains _ = _ := Outline.keeping_eq h hknown
  rw [relevant, hkeeping]
  have hskipping : ∀ entry ∈ outlines,
      (entry.1, if entry.1 = some "options" then Limits.relevant entry.2 else entry.2) = entry := by
    rintro ⟨found, part⟩ hentry
    obtain ⟨name, value, hmember, hname, hvalue⟩ :=
      Outline.exists_of_memberValues? hmembers hentry
    split
    · next hfound =>
        obtain rfl : name = "options" := Option.some.inj (hname.symm.trans hfound)
        obtain ⟨limits, rfl⟩ := hoptions value hmember
        rw [Limits.relevant, Outline.keeping_eq hvalue (by simp [Limits.memberNames])]
    · rfl
  exact congrArg Outline.object ((List.map_congr_left hskipping).trans (List.map_id _))

/-- A document that is written without fractions is read as what it was written
from. -/
theorem ofText?_write (hexact : (Json.object members).Exact)
    (hknown : ∀ member ∈ members, memberNames.contains member.1 = true)
    (hoptions : ∀ json, ("options", json) ∈ members → ∃ limits : Limits, json = limits.toJson)
    (hnesting : (Json.object members).nesting ≤ Outline.depthLimit) :
    ofText? (Json.object members).write = ofJson? (.object members) := by
  obtain ⟨outline, houtline, hvalue⟩ := Json.ofText?_write hexact
  have hread := hvalue Outline.depthLimit hnesting
  rw [ofText?, houtline, Option.bind_eq_bind, Option.bind_some,
    relevant_eq hread hknown hoptions, hread]
  rfl

end

/-- Any document whose root is written without fractions can be given as a
text. -/
theorem exists_text (limits : Limits) {root : Json} {element : Element} (hexact : root.Exact)
    (hroot : Element.ofJson? root = some element) (hnesting : root.nesting ≤ 126) :
    ∃ text, ofText? text = some { limits, root := element } := by
  let members := [("options", limits.toJson), ("root", root)]
  have hjson : (Json.object members).Exact := ⟨⟨trivial, trivial⟩, hexact, trivial⟩
  have hdepth : (Json.object members).nesting ≤ Outline.depthLimit := by
    simp only [members, Json.nesting, Json.nestingOfMembers, Limits.toJson, Outline.depthLimit]
    omega
  have hknown : ∀ member ∈ members, memberNames.contains member.1 = true := by
    simp [members, memberNames]
  have hoptions : ∀ json, ("options", json) ∈ members → ∃ limits : Limits, json = limits.toJson := by
    intro json hjson
    exact ⟨limits, by simpa [members] using hjson⟩
  have hlimits : Limits.ofJson? limits.toJson = some limits := rfl
  refine ⟨(Json.object members).write, ?_⟩
  rw [ofText?_write hjson hknown hoptions hdepth]
  simp [ofJson?_object, members, Json.member?, Json.unique?, Json.valuesOf, hlimits, hroot]

end Document

end Animation
