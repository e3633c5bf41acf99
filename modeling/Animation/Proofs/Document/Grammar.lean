import Animation.Proofs.Document.Reading
import Animation.Proofs.Element.Grammar

/-!
The grammar of documents and of their options in JSON, independent of the
decoder. An object is told by the values that each known name has in it: at
most one for the parts of a document and for the limit, but any number for a
declared value, of which the last counts. So the order of the known members of
a document does not matter, and neither do the others.

A text is read as the value that its outline has, if it has one. What is
skipped in an outline would have been skipped in the value.
-/

namespace Animation

namespace Json

variable {α : Type} {name : String} {members : List (String × Json)}

/-- What is given by the values of one name: by the only one, or by there being
none. -/
inductive Given (spells : Json → α → Prop) (absent : α → Prop) : List Json → α → Prop
  | absent {result} : absent result → Given spells absent [] result
  | present {json result} : spells json result → Given spells absent [json] result

theorem given_iff {spells : Json → α → Prop} {absent : α → Prop} {values : List Json}
    {result : α} :
    Given spells absent values result ↔ values.length ≤ 1 ∧ (values = [] → absent result) ∧
      ∀ json ∈ values, spells json result := by
  constructor
  · rintro (habsent | hpresent)
    · exact ⟨by simp, fun _ => habsent, by simp⟩
    · exact ⟨by simp, by simp, by simpa using hpresent⟩
  · rintro ⟨hlength, habsent, hpresent⟩
    match values with
    | [] => exact .absent (habsent rfl)
    | [json] => exact .present (hpresent json (by simp))
    | _ :: _ :: _ => simp at hlength

theorem member?_eq_some_iff {decode : Json → Option α} {absent : Option α} {result : α} :
    member? decode absent name members = some result ↔
      Given (decode · = some ·) (absent = some ·) (valuesOf name members) result := by
  unfold member? unique?
  generalize valuesOf name members = values
  constructor
  · intro h
    match values with
    | [] => exact .absent h
    | [_] => exact .present h
    | _ :: _ :: _ => cases h
  · rintro (habsent | hpresent)
    · exact habsent
    · exact hpresent

theorem exists_member?_iff {decode : Json → Option α} {absent : Option α} :
    (∃ result, member? decode absent name members = some result) ↔
      (valuesOf name members).length ≤ 1 ∧
        (valuesOf name members = [] → ∃ result, absent = some result) ∧
        ∀ json ∈ valuesOf name members, ∃ result, decode json = some result := by
  simp only [member?_eq_some_iff, given_iff]
  constructor
  · rintro ⟨result, hlength, habsent, hpresent⟩
    exact ⟨hlength, fun hnil => ⟨result, habsent hnil⟩,
      fun json hjson => ⟨result, hpresent json hjson⟩⟩
  · rintro ⟨hlength, habsent, hpresent⟩
    generalize valuesOf name members = values at *
    match values with
    | [] =>
        obtain ⟨result, hresult⟩ := habsent rfl
        exact ⟨result, hlength, fun _ => hresult, by simp⟩
    | [json] =>
        obtain ⟨result, hresult⟩ := hpresent json (by simp)
        exact ⟨result, hlength, by simp, by simpa using hresult⟩
    | _ :: _ :: _ => simp at hlength

/-! ### Order and unknown members -/

/-- Whether a name has one value, and which, does not depend on the order of
the members. -/
theorem unique?_perm {others : List (String × Json)} (h : members.Perm others) :
    unique? name members = unique? name others := by
  have hvalues : (valuesOf name members).Perm (valuesOf name others) := h.filterMap _
  unfold unique?
  generalize valuesOf name members = first at hvalues ⊢
  generalize valuesOf name others = second at hvalues ⊢
  match first with
  | [] => rw [hvalues.nil_eq]
  | [_] => rw [List.singleton_perm.mp hvalues]
  | _ :: _ :: _ =>
      match second with
      | [] | [_] => cases hvalues.length_eq
      | _ :: _ :: _ => rfl

theorem member?_perm {others : List (String × Json)} (h : members.Perm others)
    (decode : Json → Option α) (absent : Option α) :
    member? decode absent name members = member? decode absent name others := by
  rw [member?, member?, unique?_perm h]

theorem valuesOf_filter {keep : String → Bool} (h : keep name = true) :
    valuesOf name (members.filter fun member => keep member.1) = valuesOf name members := by
  rw [valuesOf, valuesOf, List.filterMap_filter]
  congr 1
  funext member
  obtain ⟨other, json⟩ := member
  by_cases hname : other = name
  · simp [hname, h]
  · simp [hname]

/-- The object without the members that `keep` does not know. -/
def keeping (keep : String → Bool) : Json → Json
  | .object members => .object (members.filter fun member => keep member.1)
  | json => json

theorem member?_filter (keep : String → Bool) (h : keep name = true)
    (decode : Json → Option α) (absent : Option α) :
    member? decode absent name (members.filter fun member => keep member.1) =
      member? decode absent name members := by
  rw [member?, member?, unique?, unique?, valuesOf_filter h]

end Json

/-! ### Options -/

namespace Limits

variable {json : Json} {limits : Limits}

/-- The options that a value spells. Where no limit is given, it is 256. -/
inductive Spells : Json → Limits → Prop
  | absent {members} :
      Json.valuesOf "maxDepth" members = [] → Spells (.object members) ⟨256⟩
  | member {members maxDepth} :
      Json.valuesOf "maxDepth" members = [.number (.natural maxDepth)] →
      Spells (.object members) ⟨maxDepth⟩
  | noItem : Spells (.array []) ⟨256⟩
  | item {maxDepth} : Spells (.array [.number (.natural maxDepth)]) ⟨maxDepth⟩

theorem limit?_eq_some_iff :
    limit? json = some limits ↔ json = .number (.natural limits.maxDepth) := by
  obtain ⟨maxDepth⟩ := limits
  unfold limit?
  split <;> simp_all

theorem ofJson?_object (members : List (String × Json)) :
    ofJson? (.object members) = Json.member? limit? (some {}) "maxDepth" members := rfl

/-- The decoder of options decides their grammar. -/
theorem ofJson?_eq_some_iff : ofJson? json = some limits ↔ Spells json limits := by
  constructor
  · intro h
    match json with
    | .object members =>
        rw [ofJson?_object, Json.member?_eq_some_iff] at h
        generalize hvalues : Json.valuesOf "maxDepth" members = values at h
        cases h with
        | absent h => cases h; exact .absent hvalues
        | present h =>
            cases limit?_eq_some_iff.mp h
            exact .member hvalues
    | .array [] => cases h; exact .noItem
    | .array [_] => cases limit?_eq_some_iff.mp h; exact .item
    | .array (_ :: _ :: _) => cases h
    | .null | .bool _ | .number _ | .string _ => cases h
  · intro h
    cases h with
    | absent hvalues => rw [ofJson?_object, Json.member?, Json.unique?, hvalues]; rfl
    | member hvalues => rw [ofJson?_object, Json.member?, Json.unique?, hvalues]; rfl
    | noItem => rfl
    | item => rfl

theorem ofJson?_keeping (json : Json) :
    ofJson? (json.keeping memberNames.contains) = ofJson? json := by
  cases json with
  | object members =>
      rw [Json.keeping, ofJson?_object, ofJson?_object, Json.member?_filter _ (by decide)]
  | _ => rfl

theorem ofJson?_perm {members others : List (String × Json)} (h : members.Perm others) :
    ofJson? (.object members) = ofJson? (.object others) :=
  Json.member?_perm h _ _

end Limits

namespace Document

variable {json : Json}

/-! ### Declared values -/

/-- Numbers and null say what a value holds at first. -/
inductive SpellsContent : Json → Option Float → Prop
  | null : SpellsContent .null none
  | number {value} : SpellsContent (.number value) (some value.toFloat)

theorem content?_eq_some_iff {content : Option Float} :
    content? json = some content ↔ SpellsContent json content := by
  constructor
  · intro h
    cases json with
    | null => cases h; exact .null
    | number value => cases h; exact .number
    | _ => cases h
  · rintro (_ | _) <;> rfl

/-- Objects of such contents. -/
inductive IsValues : Json → Prop
  | object {members} :
      (∀ member ∈ members, ∃ content, SpellsContent member.2 content) → IsValues (.object members)

/-- The values that an object declares, each with the last of its contents. -/
inductive SpellsValues : Json → Std.TreeMap String (Option Float) → Prop
  | object {members} {values : Std.TreeMap String (Option Float)} :
      (∀ member ∈ members, ∃ content, SpellsContent member.2 content) →
      (∀ (name : String) (content : Option Float), values[name]? = some content ↔
        ∃ json, (Json.valuesOf name members).getLast? = some json ∧ SpellsContent json content) →
      SpellsValues (.object members) values

/-- Inserts the contents of all members after `values`, one by one. -/
def insertAll? (values : Std.TreeMap String (Option Float)) (members : List (String × Json)) :
    Option (Std.TreeMap String (Option Float)) :=
  members.foldlM (fun values (name, json) => (content? json).map (values.insert name ·)) values

theorem insertAll?_cons (values : Std.TreeMap String (Option Float)) (name : String) (json : Json)
    (rest : List (String × Json)) :
    insertAll? values ((name, json) :: rest) =
      (content? json).bind fun content => insertAll? (values.insert name content) rest := by
  rw [insertAll?, List.foldlM_cons, Option.bind_eq_bind, Option.bind_map]
  rfl

theorem exists_insertAll?_iff {values : Std.TreeMap String (Option Float)}
    {members : List (String × Json)} :
    (∃ result, insertAll? values members = some result) ↔
      ∀ member ∈ members, ∃ content, SpellsContent member.2 content := by
  induction members generalizing values with
  | nil => simp [insertAll?]
  | cons member rest ih =>
      obtain ⟨name, json⟩ := member
      simp only [insertAll?_cons, Option.bind_eq_some_iff, List.forall_mem_cons,
        content?_eq_some_iff]
      constructor
      · rintro ⟨result, content, hcontent, hrest⟩
        exact ⟨⟨content, hcontent⟩, ih.mp ⟨result, hrest⟩⟩
      · rintro ⟨⟨content, hcontent⟩, hrest⟩
        obtain ⟨result, hresult⟩ := ih.mpr hrest
        exact ⟨result, content, hcontent, hresult⟩

/-- The last member of a name decides, and without one nothing changes. -/
theorem getElem?_insertAll? {values result : Std.TreeMap String (Option Float)}
    {members : List (String × Json)} (h : insertAll? values members = some result)
    (name : String) :
    result[name]? = (Json.valuesOf name members).getLast?.elim values[name]? content? := by
  induction members generalizing values with
  | nil => cases h; rfl
  | cons member rest ih =>
      obtain ⟨other, json⟩ := member
      rw [insertAll?_cons] at h
      obtain ⟨content, hcontent, hrest⟩ := Option.bind_eq_some_iff.mp h
      rw [ih hrest, Json.valuesOf_cons, Std.TreeMap.getElem?_insert]
      by_cases hname : other = name
      · subst hname
        rw [if_pos rfl, List.getLast?_cons]
        cases (Json.valuesOf other rest).getLast? with
        | none => simp [hcontent]
        | some _ => rfl
      · rw [if_neg hname, if_neg (by simpa using hname)]

theorem exists_values?_iff : (∃ values, values? json = some values) ↔ IsValues json := by
  constructor
  · rintro ⟨values, hvalues⟩
    cases json with
    | object members => exact .object (exists_insertAll?_iff.mp ⟨values, hvalues⟩)
    | _ => cases hvalues
  · rintro ⟨hmembers⟩
    exact exists_insertAll?_iff.mpr hmembers

theorem spellsValues_iff {values : Std.TreeMap String (Option Float)} :
    SpellsValues json values ↔
      ∃ decoded, values? json = some decoded ∧ ∀ name : String, decoded[name]? = values[name]? := by
  have hlast : ∀ {members decoded}, insertAll? ∅ members = some decoded →
      ∀ (name : String) content, decoded[name]? = some content ↔
        ∃ json, (Json.valuesOf name members).getLast? = some json ∧ SpellsContent json content := by
    intro members decoded hdecoded name content
    rw [getElem?_insertAll? hdecoded]
    cases (Json.valuesOf name members).getLast? with
    | none => simp
    | some json => simp [content?_eq_some_iff]
  constructor
  · rintro ⟨hmembers, hvalues⟩
    obtain ⟨decoded, hdecoded⟩ := exists_insertAll?_iff.mpr hmembers
    refine ⟨decoded, hdecoded, fun name => Option.ext fun content => ?_⟩
    rw [hlast hdecoded, hvalues]
  · rintro ⟨decoded, hdecoded, hsame⟩
    cases json with
    | object members =>
        refine .object (exists_insertAll?_iff.mp ⟨decoded, hdecoded⟩) fun name content => ?_
        rw [← hsame, hlast hdecoded]
    | _ => cases hdecoded

/-- The names are exactly those of the object. -/
theorem SpellsValues.mem_iff {members : List (String × Json)}
    {values : Std.TreeMap String (Option Float)} (h : SpellsValues (.object members) values)
    (name : String) : name ∈ values ↔ ∃ json, (name, json) ∈ members := by
  obtain ⟨hmembers, hvalues⟩ := h
  rw [Std.TreeMap.mem_iff_isSome_getElem?, Option.isSome_iff_exists]
  simp only [hvalues, ← Json.mem_valuesOf]
  constructor
  · rintro ⟨content, json, hjson, -⟩
    exact ⟨json, List.mem_of_getLast? hjson⟩
  · rintro ⟨json, hjson⟩
    have hlast := List.getLast?_eq_some_getLast (List.ne_nil_of_mem hjson)
    generalize List.getLast _ _ = last at hlast
    obtain ⟨content, hcontent⟩ :=
      hmembers (name, last) (Json.mem_valuesOf.mp (List.mem_of_getLast? hlast))
    exact ⟨content, last, hlast, hcontent⟩

/-! ### Documents -/

/-- Objects in which the root is given once, the other parts are given once or
not at all, and each part is what it can be; and arrays of the three parts. -/
inductive IsDocument : Json → Prop
  | object {members root} :
      (Json.valuesOf "values" members).length ≤ 1 →
      (∀ json ∈ Json.valuesOf "values" members, IsValues json) →
      (Json.valuesOf "options" members).length ≤ 1 →
      (∀ json ∈ Json.valuesOf "options" members, ∃ limits, Limits.Spells json limits) →
      Json.valuesOf "root" members = [root] → Element.IsElement root →
      IsDocument (.object members)
  | array {values options root} :
      IsValues values → (∃ limits, Limits.Spells options limits) → Element.IsElement root →
      IsDocument (.array [values, options, root])

/-- The document that a value spells, part by part. -/
inductive Spells : Json → Document → Prop
  | object {members} {document : Document} :
      Json.Given SpellsValues (fun values => ∀ name : String, values[name]? = none)
        (Json.valuesOf "values" members) document.values →
      Json.Given Limits.Spells (· = ⟨256⟩) (Json.valuesOf "options" members) document.limits →
      Json.Given Element.Spells (fun _ => False) (Json.valuesOf "root" members) document.root →
      Spells (.object members) document
  | array {values options root} {document : Document} :
      SpellsValues values document.values → Limits.Spells options document.limits →
      Element.Spells root document.root →
      Spells (.array [values, options, root]) document

/-- The same names with the same contents, and the same in everything else. -/
structure Agrees (document other : Document) : Prop where
  values : ∀ name : String, document.values[name]? = other.values[name]?
  limits : document.limits = other.limits
  root : document.root = other.root

theorem ofJson?_object_eq_some_iff {members : List (String × Json)} {document : Document} :
    ofJson? (.object members) = some document ↔
      Json.member? values? (some ∅) "values" members = some document.values ∧
        Json.member? Limits.ofJson? (some {}) "options" members = some document.limits ∧
        Json.member? Element.ofJson? none "root" members = some document.root := by
  obtain ⟨values, limits, root⟩ := document
  simp only [ofJson?_object, Option.bind_eq_bind, Option.bind_eq_some_iff, Option.pure_def,
    Option.some.injEq, Document.mk.injEq]
  constructor
  · rintro ⟨_, hvalues, _, hlimits, _, hroot, rfl, rfl, rfl⟩
    exact ⟨hvalues, hlimits, hroot⟩
  · rintro ⟨hvalues, hlimits, hroot⟩
    exact ⟨_, hvalues, _, hlimits, _, hroot, rfl, rfl, rfl⟩

theorem ofJson?_array_eq_some_iff {values options root : Json} {document : Document} :
    ofJson? (.array [values, options, root]) = some document ↔
      values? values = some document.values ∧ Limits.ofJson? options = some document.limits ∧
        Element.ofJson? root = some document.root := by
  obtain ⟨declared, limits, element⟩ := document
  simp only [ofJson?, Option.bind_eq_bind, Option.bind_eq_some_iff, Option.pure_def,
    Option.some.injEq, Document.mk.injEq]
  constructor
  · rintro ⟨_, hvalues, _, hlimits, _, hroot, rfl, rfl, rfl⟩
    exact ⟨hvalues, hlimits, hroot⟩
  · rintro ⟨hvalues, hlimits, hroot⟩
    exact ⟨_, hvalues, _, hlimits, _, hroot, rfl, rfl, rfl⟩

theorem exists_array {json : Json} {document : Document} (h : ofJson? json = some document)
    (hobject : ∀ members, json ≠ .object members) :
    ∃ values options root, json = .array [values, options, root] := by
  match json with
  | .object members => exact absurd rfl (hobject members)
  | .array [values, options, root] => exact ⟨values, options, root, rfl⟩
  | .array [] | .array [_] | .array [_, _] | .array (_ :: _ :: _ :: _ :: _) => cases h
  | .null | .bool _ | .number _ | .string _ => cases h

/-- A value is read as some document if and only if it has the form of one. -/
theorem exists_ofJson?_iff : (∃ document, ofJson? json = some document) ↔ IsDocument json := by
  constructor
  · rintro ⟨document, h⟩
    by_cases hobject : ∃ members, json = .object members
    · obtain ⟨members, rfl⟩ := hobject
      obtain ⟨hvalues, hoptions, hroot⟩ := ofJson?_object_eq_some_iff.mp h
      obtain ⟨hvalues, -, hdeclared⟩ := Json.exists_member?_iff.mp ⟨_, hvalues⟩
      obtain ⟨hoptions, -, hlimits⟩ := Json.exists_member?_iff.mp ⟨_, hoptions⟩
      rw [Json.member?_eq_some_iff] at hroot
      generalize hroots : Json.valuesOf "root" members = roots at hroot
      cases hroot with
      | absent h => cases h
      | present helement =>
          refine .object hvalues (fun json hjson => exists_values?_iff.mp (hdeclared json hjson))
            hoptions (fun json hjson => ?_) hroots ((Element.isElement_iff _).mpr ⟨_, helement⟩)
          obtain ⟨limits, hlimits⟩ := hlimits json hjson
          exact ⟨limits, Limits.ofJson?_eq_some_iff.mp hlimits⟩
    · obtain ⟨values, options, root, rfl⟩ := exists_array h (not_exists.mp hobject)
      obtain ⟨hvalues, hoptions, hroot⟩ := ofJson?_array_eq_some_iff.mp h
      exact .array (exists_values?_iff.mp ⟨_, hvalues⟩) ⟨_, Limits.ofJson?_eq_some_iff.mp hoptions⟩
        ((Element.isElement_iff root).mpr ⟨_, hroot⟩)
  · intro h
    cases h with
    | @object members _ hvalues hdeclared hoptions hlimits hroots helement =>
        obtain ⟨values, hvalues⟩ := Json.exists_member?_iff.mpr ⟨hvalues, fun _ => ⟨∅, rfl⟩,
          fun json hjson => exists_values?_iff.mpr (hdeclared json hjson)⟩
        have hread : ∀ json ∈ Json.valuesOf "options" members,
            ∃ limits, Limits.ofJson? json = some limits :=
          fun json hjson => by simpa only [Limits.ofJson?_eq_some_iff] using hlimits json hjson
        obtain ⟨limits, hlimits⟩ :=
          Json.exists_member?_iff.mpr ⟨hoptions, fun _ => ⟨{}, rfl⟩, hread⟩
        obtain ⟨root, helement⟩ := (Element.isElement_iff _).mp helement
        have hroot : Json.member? Element.ofJson? none "root" members = some root := by
          rw [Json.member?_eq_some_iff, hroots]
          exact .present helement
        exact ⟨⟨values, limits, root⟩, ofJson?_object_eq_some_iff.mpr ⟨hvalues, hlimits, hroot⟩⟩
    | array hvalues hoptions helement =>
        obtain ⟨values, hvalues⟩ := exists_values?_iff.mpr hvalues
        obtain ⟨limits, hlimits⟩ := hoptions
        obtain ⟨root, hroot⟩ := (Element.isElement_iff _).mp helement
        exact ⟨⟨values, limits, root⟩, ofJson?_array_eq_some_iff.mpr
          ⟨hvalues, Limits.ofJson?_eq_some_iff.mpr hlimits, hroot⟩⟩

theorem givenValues_iff {members : List (String × Json)}
    {values : Std.TreeMap String (Option Float)} :
    Json.Given SpellsValues (fun values => ∀ name : String, values[name]? = none)
        (Json.valuesOf "values" members) values ↔
      ∃ decoded, Json.member? values? (some ∅) "values" members = some decoded ∧
        ∀ name : String, decoded[name]? = values[name]? := by
  simp only [Json.member?_eq_some_iff]
  generalize Json.valuesOf "values" members = found
  constructor
  · rintro (hnone | hvalues)
    · exact ⟨∅, .absent rfl, fun name => (hnone name).symm⟩
    · obtain ⟨decoded, hdecoded, hsame⟩ := spellsValues_iff.mp hvalues
      exact ⟨decoded, .present hdecoded, hsame⟩
  · rintro ⟨decoded, hdecoded | hdecoded, hsame⟩
    · cases hdecoded
      exact .absent fun name => (hsame name).symm
    · exact .present (spellsValues_iff.mpr ⟨decoded, hdecoded, hsame⟩)

theorem givenLimits_iff {members : List (String × Json)} {limits : Limits} :
    Json.Given Limits.Spells (· = ⟨256⟩) (Json.valuesOf "options" members) limits ↔
      Json.member? Limits.ofJson? (some {}) "options" members = some limits := by
  have habsent : (some {} : Option Limits) = some limits ↔ limits = ⟨256⟩ := by
    rw [Option.some.injEq]
    exact eq_comm
  simp only [Json.member?_eq_some_iff, Json.given_iff, Limits.ofJson?_eq_some_iff, habsent]

theorem givenRoot_iff {members : List (String × Json)} {root : Element} :
    Json.Given Element.Spells (fun _ => False) (Json.valuesOf "root" members) root ↔
      Json.member? Element.ofJson? none "root" members = some root := by
  have hspells : ∀ json, Element.ofJson? json = some root ↔ Element.Spells json root :=
    fun json => Element.decodes_iff_spells json root
  simp only [Json.member?_eq_some_iff, Json.given_iff, hspells, reduceCtorEq]

/-- What a value is read as is the document that it spells. -/
theorem spells_iff {document : Document} :
    Spells json document ↔ ∃ decoded, ofJson? json = some decoded ∧ decoded.Agrees document := by
  constructor
  · intro h
    cases h with
    | object hvalues hlimits hroot =>
        obtain ⟨values, hvalues, hsame⟩ := givenValues_iff.mp hvalues
        exact ⟨{ document with values }, ofJson?_object_eq_some_iff.mpr
          ⟨hvalues, givenLimits_iff.mp hlimits, givenRoot_iff.mp hroot⟩, hsame, rfl, rfl⟩
    | array hvalues hlimits hroot =>
        obtain ⟨values, hvalues, hsame⟩ := spellsValues_iff.mp hvalues
        exact ⟨{ document with values }, ofJson?_array_eq_some_iff.mpr
          ⟨hvalues, Limits.ofJson?_eq_some_iff.mpr hlimits,
            (Element.decodes_iff_spells _ _).mpr hroot⟩, hsame, rfl, rfl⟩
  · rintro ⟨decoded, hdecoded, hsame, hlimits, hroot⟩
    by_cases hobject : ∃ members, json = .object members
    · obtain ⟨members, rfl⟩ := hobject
      obtain ⟨hvalues, hoptions, helement⟩ := ofJson?_object_eq_some_iff.mp hdecoded
      exact .object (givenValues_iff.mpr ⟨_, hvalues, hsame⟩)
        (givenLimits_iff.mpr (hlimits ▸ hoptions)) (givenRoot_iff.mpr (hroot ▸ helement))
    · obtain ⟨values, options, root, rfl⟩ := exists_array hdecoded (not_exists.mp hobject)
      obtain ⟨hvalues, hoptions, helement⟩ := ofJson?_array_eq_some_iff.mp hdecoded
      exact .array (spellsValues_iff.mpr ⟨_, hvalues, hsame⟩)
        (Limits.ofJson?_eq_some_iff.mp (hlimits ▸ hoptions))
        ((Element.decodes_iff_spells _ _).mp (hroot ▸ helement))

end Document

end Animation
