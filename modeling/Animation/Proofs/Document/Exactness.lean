import Animation.Proofs.Document.Grammar

/-!
Documents and options are read exactly as their grammars say. Neither the
order of the members nor unknown members matter, in a value or in a text, and
options that are written are read back, alone or inside of a document.
-/

namespace Animation

namespace Outline

variable {depth : Nat} {outline : Outline} {json : Json}
  {outlines : List (Option String × Outline)} {members : List (String × Json)}

theorem memberValues?_cons_eq_some_iff {entry : Option String × Outline} :
    memberValues? depth (entry :: outlines) = some members ↔
      ∃ name first rest, entry.1 = some name ∧ entry.2.value? depth = some first ∧
        memberValues? depth outlines = some rest ∧ members = (name, first) :: rest := by
  simp only [memberValues?, Option.bind_eq_bind, Option.bind_eq_some_iff, Option.pure_def,
    Option.some.injEq]
  constructor
  · rintro ⟨name, hname, first, hfirst, rest, hrest, rfl⟩
    exact ⟨name, first, rest, hname, hfirst, hrest, rfl⟩
  · rintro ⟨name, first, rest, hname, hfirst, hrest, rfl⟩
    exact ⟨name, hname, first, hfirst, rest, hrest, rfl⟩

theorem values?_cons_eq_some_iff {part : Outline} {parts : List Outline} {values : List Json} :
    values? depth (part :: parts) = some values ↔
      ∃ first rest, part.value? depth = some first ∧ values? depth parts = some rest ∧
        values = first :: rest := by
  simp only [values?, Option.bind_eq_bind, Option.bind_eq_some_iff, Option.pure_def,
    Option.some.injEq]
  constructor
  · rintro ⟨first, hfirst, rest, hrest, rfl⟩
    exact ⟨first, rest, hfirst, hrest, rfl⟩
  · rintro ⟨first, rest, hfirst, hrest, rfl⟩
    exact ⟨first, hfirst, rest, hrest, rfl⟩

theorem length_values? {parts : List Outline} {values : List Json}
    (h : values? depth parts = some values) : values.length = parts.length := by
  induction parts generalizing values with
  | nil => cases h; rfl
  | cons part parts ih =>
      obtain ⟨first, rest, -, hrest, rfl⟩ := values?_cons_eq_some_iff.mp h
      rw [List.length_cons, List.length_cons, ih hrest]

/-- Members that are left out of an outline are left out of its value. -/
theorem memberValues?_filter (keep : String → Bool)
    (h : memberValues? depth outlines = some members) :
    memberValues? depth (outlines.filter fun (name, _) => (name.map keep).getD true) =
      some (members.filter fun member => keep member.1) := by
  induction outlines generalizing members with
  | nil => cases h; rfl
  | cons entry outlines ih =>
      obtain ⟨found, part⟩ := entry
      obtain ⟨name, first, rest, rfl, hfirst, hrest, rfl⟩ := memberValues?_cons_eq_some_iff.mp h
      rw [List.filter_cons, List.filter_cons]
      dsimp only [Option.map_some, Option.getD_some]
      split
      · exact memberValues?_cons_eq_some_iff.mpr ⟨name, first, _, rfl, hfirst, ih hrest, rfl⟩
      · exact ih hrest

theorem exists_members_of_value? (h : (object outlines).value? depth = some json) :
    ∃ inner members, depth = inner + 1 ∧ memberValues? inner outlines = some members ∧
      json = .object members := by
  cases depth with
  | zero => simp [value?] at h
  | succ inner =>
      rw [value?] at h
      obtain ⟨members, hmembers, rfl⟩ := Option.map_eq_some_iff.mp h
      exact ⟨inner, members, rfl, hmembers, rfl⟩

theorem exists_values_of_value? {items : List Outline}
    (h : (array items).value? depth = some json) :
    ∃ inner values, depth = inner + 1 ∧ values? inner items = some values ∧
      json = .array values := by
  cases depth with
  | zero => simp [value?] at h
  | succ inner =>
      rw [value?] at h
      obtain ⟨values, hvalues, rfl⟩ := Option.map_eq_some_iff.mp h
      exact ⟨inner, values, rfl, hvalues, rfl⟩

theorem value?_keeping (keep : String → Bool) (h : outline.value? depth = some json) :
    (outline.keeping keep).value? depth = some (json.keeping keep) := by
  cases outline with
  | object outlines =>
      obtain ⟨inner, members, rfl, hmembers, rfl⟩ := exists_members_of_value? h
      rw [keeping, value?, memberValues?_filter keep hmembers]
      rfl
  | array items =>
      obtain ⟨_, values, rfl, -, rfl⟩ := exists_values_of_value? h
      exact h
  | null | bool _ =>
      cases h
      rfl
  | number _ | string _ =>
      rw [value?] at h
      obtain ⟨value, hvalue, rfl⟩ := Option.map_eq_some_iff.mp h
      exact h

/-- Leaving something out of members can be done in the outline. -/
theorem memberValues?_map (change : Option String → Outline → Outline)
    (alter : String → Json → Json)
    (hchange : ∀ {name part json}, value? depth part = some json →
      value? depth (change (some name) part) = some (alter name json))
    (h : memberValues? depth outlines = some members) :
    memberValues? depth (outlines.map fun (name, part) => (name, change name part)) =
      some (members.map fun (name, json) => (name, alter name json)) := by
  induction outlines generalizing members with
  | nil => cases h; rfl
  | cons entry outlines ih =>
      obtain ⟨found, part⟩ := entry
      obtain ⟨name, first, rest, rfl, hfirst, hrest, rfl⟩ := memberValues?_cons_eq_some_iff.mp h
      exact memberValues?_cons_eq_some_iff.mpr
        ⟨name, _, _, rfl, hchange hfirst, ih hrest, rfl⟩

end Outline

namespace Json

variable {α : Type} {name : String}

theorem valuesOf_map (alter : String → Json → Json) (name : String)
    (members : List (String × Json)) :
    valuesOf name (members.map fun (name, json) => (name, alter name json)) =
      (valuesOf name members).map (alter name) := by
  induction members with
  | nil => rfl
  | cons member rest ih =>
      obtain ⟨other, json⟩ := member
      rw [List.map_cons, valuesOf_cons, valuesOf_cons, ih]
      split
      · next h => rw [h, List.map_cons]
      · rfl

/-- Altering values does not matter to a decoder that does not notice. -/
theorem member?_map (alter : String → Json → Json) {decode : Json → Option α}
    (h : ∀ json, decode (alter name json) = decode json) (absent : Option α)
    (members : List (String × Json)) :
    member? decode absent name (members.map fun (name, json) => (name, alter name json)) =
      member? decode absent name members := by
  rw [member?, member?, unique?, unique?, valuesOf_map]
  rcases valuesOf name members with _ | ⟨json, _ | ⟨_, _⟩⟩
  · rfl
  · exact h json
  · rfl

end Json

namespace Document

variable {json : Json} {members : List (String × Json)}

theorem ofJson?_perm {others : List (String × Json)} (h : members.Perm others) :
    ofJson? (.object members) = ofJson? (.object others) := by
  simp only [ofJson?_object, Json.member?_perm h]

theorem ofJson?_keeping (json : Json) :
    ofJson? (json.keeping memberNames.contains) = ofJson? json := by
  cases json with
  | object members =>
      rw [Json.keeping, ofJson?_object, ofJson?_object, Json.member?_filter _ (by decide),
        Json.member?_filter _ (by decide), Json.member?_filter _ (by decide)]
  | _ => rfl

/-- The value of this member, if it is the options without what is skipped. -/
def relevantPart (name : String) (value : Json) : Json :=
  if name = "options" then value.keeping Limits.memberNames.contains else value

/-- A value without what is skipped in it and in its options. -/
def relevantValue (json : Json) : Json :=
  match json.keeping memberNames.contains with
  | .object members =>
    .object (members.map fun (name, value) => (name, relevantPart name value))
  | .array [values, options, root] =>
    .array [values, options.keeping Limits.memberNames.contains, root]
  | other => other

theorem ofJson?_relevantValue (json : Json) : ofJson? (relevantValue json) = ofJson? json := by
  match json with
  | .object members =>
      have hdocument := ofJson?_keeping (.object members)
      rw [Json.keeping] at hdocument
      rw [relevantValue, Json.keeping, ← hdocument, ofJson?_object, ofJson?_object,
        Json.member?_map relevantPart (fun _ => rfl),
        Json.member?_map relevantPart Limits.ofJson?_keeping,
        Json.member?_map relevantPart (fun _ => rfl)]
  | .array [values, options, root] =>
      change ofJson? (.array [values, options.keeping Limits.memberNames.contains, root]) = _
      rw [ofJson?, ofJson?, Limits.ofJson?_keeping]
  | .array [] | .array [_] | .array [_, _] | .array (_ :: _ :: _ :: _ :: _) => rfl
  | .null | .bool _ | .number _ | .string _ => rfl

theorem relevant_array {items : List Outline} (h : items.length ≠ 3) :
    relevant (.array items) = .array items := by
  match items with
  | [_, _, _] => exact absurd rfl h
  | [] | [_] | [_, _] | _ :: _ :: _ :: _ :: _ => rfl

theorem relevantValue_array {items : List Json} (h : items.length ≠ 3) :
    relevantValue (.array items) = .array items := by
  match items with
  | [_, _, _] => exact absurd rfl h
  | [] | [_] | [_, _] | _ :: _ :: _ :: _ :: _ => rfl

/-- What is relevant of an outline has as its value what is relevant of the
outline's value. -/
theorem value?_relevant {depth : Nat} {outline : Outline} (h : outline.value? depth = some json) :
    (relevant outline).value? depth = some (relevantValue json) := by
  match outline with
  | .object outlines =>
      obtain ⟨inner, members, rfl, hmembers, rfl⟩ := Outline.exists_members_of_value? h
      have hkept := Outline.memberValues?_filter memberNames.contains hmembers
      have hoptions : ∀ {name part json}, Outline.value? inner part = some json →
          (if some name = some "options" then Limits.relevant part else part).value? inner =
            some (relevantPart name json) := by
        intro name part json hpart
        unfold relevantPart
        by_cases hname : name = "options"
        · rw [if_pos hname, if_pos (congrArg some hname)]
          exact Outline.value?_keeping _ hpart
        · rw [if_neg hname, if_neg (mt Option.some.inj hname)]
          exact hpart
      have hmapped := Outline.memberValues?_map
        (fun name part => if name = some "options" then Limits.relevant part else part) _
        hoptions hkept
      rw [relevant, Outline.keeping, Outline.value?, hmapped]
      rfl
  | .array items =>
      obtain ⟨inner, values, rfl, hvalues, rfl⟩ := Outline.exists_values_of_value? h
      have hlength := Outline.length_values? hvalues
      by_cases hthree : items.length = 3
      · obtain ⟨declared, options, root, rfl⟩ := List.length_eq_three.mp hthree
        simp only [Outline.values?_cons_eq_some_iff] at hvalues
        obtain ⟨first, _, hfirst, ⟨second, _, hsecond, ⟨third, _, hthird, ⟨⟩, rfl⟩, rfl⟩, rfl⟩ :=
          hvalues
        have hoptions : (Limits.relevant options).value? inner = _ :=
          Outline.value?_keeping Limits.memberNames.contains hsecond
        change (Outline.array [declared, Limits.relevant options, root]).value? (inner + 1) = _
        simp only [Outline.value?, Outline.values?, hfirst, hoptions, hthird]
        rfl
      · rw [relevant_array hthree, relevantValue_array (hlength ▸ hthree)]
        exact h
  | .null | .bool _ =>
      cases h
      rfl
  | .number _ | .string _ =>
      rw [Outline.value?] at h
      obtain ⟨value, hvalue, rfl⟩ := Option.map_eq_some_iff.mp h
      exact h

/-! ### Texts -/

/-- A text whose outline has a value is read as this value. -/
theorem ofText?_of_value? {text : String} {outline : Outline}
    (houtline : Outline.ofText? text = some outline)
    (hvalue : outline.value? Outline.depthLimit = some json) :
    ofText? text = ofJson? json ∧ Limits.ofText? text = Limits.ofJson? json := by
  constructor
  · simp only [ofText?, houtline, Option.bind_eq_bind, Option.bind_some, value?_relevant hvalue,
      ofJson?_relevantValue]
  · have hkept : (Limits.relevant outline).value? Outline.depthLimit = _ :=
      Outline.value?_keeping Limits.memberNames.contains hvalue
    simp only [Limits.ofText?, houtline, Option.bind_eq_bind, Option.bind_some, hkept,
      Limits.ofJson?_keeping]

/-! ### Options in their places -/

/-- The document of a value with these options in the place of its own. -/
def withOptions (limits : Limits) : Json → Json
  | .object members =>
    .object (("options", limits.toJson) :: members.filter fun member => member.1 ≠ "options")
  | .array [values, _, root] => .array [values, limits.toJson, root]
  | json => json

theorem ofJson?_toJson (limits : Limits) : Limits.ofJson? limits.toJson = some limits := rfl

theorem ofJson?_withOptions {document : Document} (h : ofJson? json = some document)
    (limits : Limits) : ofJson? (withOptions limits json) = some { document with limits } := by
  by_cases hobject : ∃ members, json = .object members
  · obtain ⟨members, rfl⟩ := hobject
    obtain ⟨hvalues, -, hroot⟩ := ofJson?_object_eq_some_iff.mp h
    have hkept : ∀ {name}, name ≠ "options" → ∀ {α : Type} (decode : Json → Option α) absent,
        Json.member? decode absent name
          (("options", limits.toJson) :: members.filter fun member => member.1 ≠ "options") =
            Json.member? decode absent name members := by
      intro name hname α decode absent
      rw [Json.member?, Json.unique?, Json.valuesOf_cons, if_neg hname.symm]
      exact Json.member?_filter (fun name => name ≠ "options") (by simpa using hname) ..
    have hnone :
        Json.valuesOf "options" (members.filter fun member => member.1 ≠ "options") = [] := by
      rw [List.eq_nil_iff_forall_not_mem]
      simp [Json.mem_valuesOf]
    refine ofJson?_object_eq_some_iff.mpr ⟨?_, ?_, ?_⟩
    · rw [hkept (by decide), hvalues]
    · rw [Json.member?, Json.unique?, Json.valuesOf_cons, if_pos rfl, hnone]
      exact ofJson?_toJson limits
    · rw [hkept (by decide), hroot]
  · obtain ⟨values, options, root, rfl⟩ := exists_array h (not_exists.mp hobject)
    obtain ⟨hvalues, -, hroot⟩ := ofJson?_array_eq_some_iff.mp h
    exact ofJson?_array_eq_some_iff.mpr ⟨hvalues, rfl, hroot⟩

/-- Options are written as a text that is read as these options. -/
theorem ofText?_write_toJson (limits : Limits) :
    Limits.ofText? limits.toJson.write = some limits := by
  have hexact : limits.toJson.Exact := ⟨trivial, trivial⟩
  obtain ⟨outline, houtline, hvalue⟩ := Json.ofText?_write hexact
  have hdepth : limits.toJson.nesting ≤ Outline.depthLimit := by
    simp [Limits.toJson, Json.nesting, Json.nestingOfMembers, Outline.depthLimit]
  exact (ofText?_of_value? houtline (hvalue _ hdepth)).2

/-- A numeral is the limit of options exactly if it is digits alone, and then
the limit is the number that they make. -/
theorem limit?_numeral_iff {numeral : Numeral} {limits : Limits} :
    (numeral.value?.bind fun number => Limits.limit? (.number number)) = some limits ↔
      numeral.negative = false ∧ numeral.fraction = none ∧ numeral.exponent = none ∧
        Decimal.ofDigits numeral.whole = limits.maxDepth.toNat := by
  rw [← Numeral.value?_eq_natural_iff, Option.bind_eq_some_iff]
  simp [Limits.limit?_eq_some_iff]

/-- The grammar of documents and of options is exact. A value is read as a
document if and only if it has the form of one, and what is read is the
document that it spells; and so with options. The order of the members of an
object does not matter to either of them, nor do unknown members. An object of
values declares exactly its names.

In a text, the limit of options is a numeral of digits alone that makes a
number of 64 bits. It is that number. A text is read as the value that its
outline has. Options that are written are read back, as a value, as a text,
and in the place of the options of any document. -/
theorem document_grammar_exact (json : Json) :
    ((∃ document, ofJson? json = some document) ↔ IsDocument json) ∧
      (∀ document, Spells json document ↔
        ∃ decoded, ofJson? json = some decoded ∧ decoded.Agrees document) ∧
      (∀ limits, Limits.ofJson? json = some limits ↔ Limits.Spells json limits) ∧
      (∀ members others, json = .object members → members.Perm others →
        ofJson? (.object others) = ofJson? json ∧
          Limits.ofJson? (.object others) = Limits.ofJson? json) ∧
      ofJson? (json.keeping memberNames.contains) = ofJson? json ∧
      Limits.ofJson? (json.keeping Limits.memberNames.contains) = Limits.ofJson? json ∧
      (∀ members values, json = .object members → SpellsValues json values →
        ∀ name, name ∈ values ↔ ∃ content, (name, content) ∈ members) ∧
      (∀ (numeral : Numeral) (limits : Limits),
        (numeral.value?.bind fun number => Limits.limit? (.number number)) = some limits ↔
          numeral.negative = false ∧ numeral.fraction = none ∧ numeral.exponent = none ∧
            Decimal.ofDigits numeral.whole = limits.maxDepth.toNat) ∧
      (∀ text outline, Outline.ofText? text = some outline →
        outline.value? Outline.depthLimit = some json →
        ofText? text = ofJson? json ∧ Limits.ofText? text = Limits.ofJson? json) ∧
      ∀ limits : Limits, Limits.ofJson? limits.toJson = some limits ∧
        Limits.ofText? limits.toJson.write = some limits ∧
        ∀ document, ofJson? json = some document →
          ofJson? (withOptions limits json) = some { document with limits } := by
  refine ⟨exists_ofJson?_iff, fun _ => spells_iff, fun _ => Limits.ofJson?_eq_some_iff, ?_,
    ofJson?_keeping json, Limits.ofJson?_keeping json, ?_, fun _ _ => limit?_numeral_iff,
    fun _ _ => ofText?_of_value?, fun limits => ⟨ofJson?_toJson limits,
      ofText?_write_toJson limits, fun _ h => ofJson?_withOptions h limits⟩⟩
  · rintro members others rfl hperm
    exact ⟨(ofJson?_perm hperm).symm, (Limits.ofJson?_perm hperm).symm⟩
  · rintro members values rfl hvalues
    exact hvalues.mem_iff

/-- The greatest limit is kept, next to an unknown member, and the last content
of a name counts. -/
example : (ofJson? (.object [("root", .number (.real 0)), ("more", .null),
    ("values", .object [("x", .null), ("x", .number (.natural 1))]),
    ("options", .array [.number (.natural 18446744073709551615)])])).map
      (fun document => (document.limits.maxDepth, document.values.toList)) =
    some (18446744073709551615, [("x", some 1)]) := by
  rfl

end Document

end Animation
