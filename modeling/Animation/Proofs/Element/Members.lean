import Animation.Element.OfJson
import Mathlib.Data.List.Forall2
import Mathlib.Data.List.Nodup

/-!
The members of a node one at a time. The decoder sets one field after another;
what a field holds in the end depends on the member of its name alone. So the
whole node is read by four readers, one for each type of field, and an array of
all fields is read as the object of the same values.
-/

namespace Animation

/-- The types of the fields of a node. -/
inductive FieldType where
  | text
  | operand
  | operands
  | number

/-- What a field holds. -/
inductive Content (α : Type) where
  | text (text : Option String)
  | operand (operand : Option α)
  | operands (operands : List α)
  | number (value : Option Float)

namespace Content

variable {α : Type}

def type : Content α → FieldType
  | text _ => .text
  | operand _ => .operand
  | operands _ => .operands
  | number _ => .number

/-- What a field of this type holds if nothing is said about it. -/
def blank : FieldType → Content α
  | .text => .text none
  | .operand => .operand none
  | .operands => .operands []
  | .number => .number none

@[simp] theorem type_blank (type : FieldType) : (blank type : Content α).type = type := by
  cases type <;> rfl

end Content

namespace Fields

variable {α : Type}

/-- All fields by name, in the order of declaration. -/
def entries (fields : Fields α) : List (String × Content α) :=
  [("kind", .text fields.kind), ("a", .operand fields.a), ("b", .operand fields.b),
    ("others", .operands fields.others), ("v", .operand fields.v), ("left", .operand fields.left),
    ("right", .operand fields.right), ("expr", .operand fields.expr),
    ("ifNode", .operand fields.ifNode), ("elseNode", .operand fields.elseNode),
    ("source", .operand fields.source), ("target", .text fields.target),
    ("nodes", .operands fields.nodes), ("args", .operands fields.args),
    ("callback", .text fields.callback), ("name", .text fields.name),
    ("value", .number fields.value)]

/-- The type of each field. -/
def types : List (String × FieldType) :=
  [("kind", .text), ("a", .operand), ("b", .operand), ("others", .operands), ("v", .operand),
    ("left", .operand), ("right", .operand), ("expr", .operand), ("ifNode", .operand),
    ("elseNode", .operand), ("source", .operand), ("target", .text), ("nodes", .operands),
    ("args", .operands), ("callback", .text), ("name", .text), ("value", .number)]

theorem entries_inj {fields fields' : Fields α} (h : fields.entries = fields'.entries) :
    fields = fields' := by
  cases fields
  cases fields'
  simp_all [entries]

theorem map_type_entries (fields : Fields α) :
    fields.entries.map (fun entry => (entry.1, entry.2.type)) = types := rfl

theorem map_fst_entries (fields : Fields α) :
    fields.entries.map Prod.fst = Element.fieldNames := rfl

theorem entries_empty : ({} : Fields α).entries =
    types.map fun entry => (entry.1, Content.blank entry.2) := rfl

end Fields

theorem Json.valuesOf_cons (name other : String) (json : Json) (rest : List (String × Json)) :
    valuesOf name ((other, json) :: rest) =
      if other = name then json :: valuesOf name rest else valuesOf name rest := by
  by_cases h : other = name <;> simp [valuesOf, h]

theorem Json.valuesOf_append (name : String) (members others : List (String × Json)) :
    valuesOf name (members ++ others) = valuesOf name members ++ valuesOf name others :=
  List.filterMap_append

theorem Json.mem_valuesOf {name : String} {json : Json} {members : List (String × Json)} :
    json ∈ valuesOf name members ↔ (name, json) ∈ members := by
  induction members with
  | nil => simp [valuesOf]
  | cons member rest ih =>
      obtain ⟨other, value⟩ := member
      rw [valuesOf_cons]
      split <;> simp_all [eq_comm]

namespace Element

open Fields (types)

theorem nodup_fieldNames : fieldNames.Nodup := by decide

/-- No field has two types. -/
theorem eq_of_mem_types {entry other : String × FieldType} (hentry : entry ∈ types)
    (hother : other ∈ types) (hname : entry.1 = other.1) : entry = other := by
  have hnodup : (types.map Prod.fst).Nodup := nodup_fieldNames
  exact List.inj_on_of_nodup_map hnodup hentry hother hname

theorem type_of_mem_types {α : Type} {fields : Fields α} {entry : String × Content α}
    {type : FieldType} (hentry : entry ∈ fields.entries) (htype : (entry.1, type) ∈ types) :
    entry.2.type = type := by
  have hmem : (entry.1, entry.2.type) ∈ types := by
    rw [← fields.map_type_entries]
    exact List.mem_map_of_mem (f := fun entry => (entry.1, Content.type entry.2)) hentry
  exact (Prod.mk.inj (eq_of_mem_types hmem htype rfl)).2

/-- Reads a value as the content of a field. -/
def read? : FieldType → Json → Option (Content Element)
  | .text, json => (optional? text? json).map .text
  | .operand, json => (optional? ofJson? json).map .operand
  | .operands, json => (listOfJson? json).map .operands
  | .number, json => (optional? number? json).map .number

/-- `setField?` with the readers of elements in their places. -/
def set? (fields : Fields Element) (name : String) (json : Json) : Option (Fields Element) :=
  setField? fields name json (fun _ => ofJson? json) (fun _ => listOfJson? json)

theorem optional?_const {α : Type} (decode : Json → Option α) (json : Json) :
    optional? (fun _ => decode json) json = optional? decode json := by
  cases json <;> rfl

theorem optional?_eq_some_iff {α : Type} {decode : Json → Option α} (hnull : decode .null = none)
    {json : Json} {slot : Option α} :
    optional? decode json = some slot ↔
      (json = .null ∧ none = slot) ∨ ∃ value, decode json = some value ∧ some value = slot := by
  cases json <;> simp [optional?, hnull]

/-- Setting a field changes the entry of its name and no other. -/
theorem entries_set? {fields fields' : Fields Element} {name : String} {json : Json}
    (h : set? fields name json = some fields') :
    fields'.entries = fields.entries.map fun entry =>
      if entry.1 = name then (entry.1, (read? entry.2.type json).getD entry.2) else entry := by
  simp only [set?, setField?, optional?_const] at h
  split at h
  -- The last case is a name of no field, which changes nothing.
  case h_18 =>
    cases h
    simp_all [Fields.entries, eq_comm]
  all_goals
    obtain ⟨_, hread, rfl⟩ := Option.map_eq_some_iff.mp h
    simp [Fields.entries, Content.type, read?, hread]

/-- A field is set to whatever can be read as its type, and to nothing else. -/
theorem exists_set?_iff {fields : Fields Element} {name : String} {json : Json} :
    (∃ fields', set? fields name json = some fields') ↔
      ∀ type, (name, type) ∈ types → ∃ content, read? type json = some content := by
  simp only [set?, setField?, optional?_const]
  split
  case h_18 => simp_all [types]
  all_goals simp [types, read?]

theorem type_of_read? {type : FieldType} {json : Json} {content : Content Element}
    (h : read? type json = some content) : content.type = type := by
  cases type <;>
    · obtain ⟨_, -, rfl⟩ := Option.map_eq_some_iff.mp h
      rfl

/-! ### Objects -/

theorem ofMembers?_cons (name : String) (json : Json) (rest : List (String × Json)) :
    ofMembers? ((name, json) :: rest) =
      (ofMembers? rest).bind fun fields => set? fields name json := by
  rw [ofMembers?]
  rfl

/-- Members make a node iff each value of a known name can be read. -/
theorem exists_ofMembers?_iff {members : List (String × Json)} :
    (∃ fields, ofMembers? members = some fields) ↔
      ∀ entry ∈ types, ∀ json ∈ Json.valuesOf entry.1 members,
        ∃ content, read? entry.2 json = some content := by
  induction members with
  | nil => simp [ofMembers?, Json.valuesOf]
  | cons member rest ih =>
      obtain ⟨name, json⟩ := member
      simp only [ofMembers?_cons, Option.bind_eq_some_iff, Json.valuesOf_cons]
      constructor
      · rintro ⟨fields', fields, hrest, hset⟩ ⟨name', type⟩ htype json' hjson
        have hread := exists_set?_iff.mp ⟨fields', hset⟩
        split at hjson
        · next heq =>
            cases heq
            rcases List.mem_cons.mp hjson with rfl | hjson
            · exact hread type htype
            · exact ih.mp ⟨fields, hrest⟩ _ htype _ hjson
        · exact ih.mp ⟨fields, hrest⟩ _ htype _ hjson
      · intro h
        obtain ⟨fields, hrest⟩ := ih.mpr fun entry hentry json' hjson =>
          h entry hentry json' (by split <;> simp [hjson])
        obtain ⟨fields', hset⟩ : ∃ fields', set? fields name json = some fields' :=
          exists_set?_iff.mpr fun type htype => h (name, type) htype json (by simp)
        exact ⟨fields', fields, hrest, hset⟩

/-- What the members say about the field of this name and type. -/
def contentOf (members : List (String × Json)) (name : String) (type : FieldType) :
    Content Element :=
  match Json.valuesOf name members with
  | [] => .blank type
  | json :: _ => (read? type json).getD (.blank type)

section

variable {members : List (String × Json)} {name : String} {type : FieldType}

theorem contentOf_absent (h : Json.valuesOf name members = []) :
    contentOf members name type = .blank type := by
  rw [contentOf, h]

theorem contentOf_present {json : Json} {later : List Json} {content : Content Element}
    (h : Json.valuesOf name members = json :: later) (hread : read? type json = some content) :
    contentOf members name type = content := by
  rw [contentOf, h]
  simp [hread]

theorem type_contentOf : (contentOf members name type).type = type := by
  unfold contentOf
  split
  · exact Content.type_blank type
  · next json _ _ =>
      cases hread : read? type json with
      | none => exact Content.type_blank type
      | some content => exact type_of_read? hread

end

/-- Each field holds what the members say about it. Later members are set first,
so that of several members of one name the first one counts. -/
theorem entries_ofMembers? {members : List (String × Json)} {fields : Fields Element}
    (h : ofMembers? members = some fields) :
    fields.entries = types.map fun entry => (entry.1, contentOf members entry.1 entry.2) := by
  induction members generalizing fields with
  | nil =>
      cases h
      exact Fields.entries_empty
  | cons member rest ih =>
      obtain ⟨name, json⟩ := member
      rw [ofMembers?_cons] at h
      obtain ⟨before, hrest, hset⟩ := Option.bind_eq_some_iff.mp h
      have hread := exists_set?_iff.mp ⟨fields, hset⟩
      rw [entries_set? hset, ih hrest, List.map_map]
      refine List.map_congr_left fun entry hentry => ?_
      by_cases heq : entry.1 = name
      · obtain ⟨content, hcontent⟩ := hread entry.2 (heq ▸ hentry)
        have hfirst : Json.valuesOf entry.1 ((name, json) :: rest) =
            json :: Json.valuesOf entry.1 rest := by
          rw [Json.valuesOf_cons, if_pos heq.symm]
        rw [contentOf_present hfirst hcontent]
        simp [heq, type_contentOf, hcontent]
      · simp [contentOf, Json.valuesOf_cons, heq, Ne.symm heq]

theorem valuesOf_eq_of_mem {members : List (String × Json)}
    (hrepeats : repeatsField members = false) {name : String} (hname : name ∈ fieldNames)
    {json : Json} (hjson : json ∈ Json.valuesOf name members) :
    Json.valuesOf name members = [json] := by
  have hlength : (Json.valuesOf name members).length ≤ 1 := by
    simpa using List.any_eq_false.mp hrepeats name hname
  obtain ⟨value, hvalue⟩ := List.length_eq_one_iff.mp
    (Nat.le_antisymm hlength (List.length_pos_of_mem hjson))
  rw [hvalue, List.mem_singleton] at hjson
  rw [hvalue, hjson]

/-- Where no known name is repeated, the members make these fields iff each
field holds what the member of its name says. -/
theorem ofMembers?_eq_some_iff {members : List (String × Json)}
    (hrepeats : repeatsField members = false) {fields : Fields Element} :
    ofMembers? members = some fields ↔
      ∀ entry ∈ fields.entries,
        (Json.valuesOf entry.1 members = [] → entry.2 = .blank entry.2.type) ∧
        ∀ json ∈ Json.valuesOf entry.1 members, read? entry.2.type json = some entry.2 := by
  constructor
  · intro h entry hentry
    rw [entries_ofMembers? h] at hentry
    obtain ⟨entry, htype, rfl⟩ := List.mem_map.mp hentry
    refine ⟨fun habsent => by simp [contentOf_absent habsent], fun json hjson => ?_⟩
    obtain ⟨content, hcontent⟩ := exists_ofMembers?_iff.mp ⟨fields, h⟩ entry htype json hjson
    have hname : entry.1 ∈ fieldNames := List.mem_map_of_mem (f := Prod.fst) htype
    have honly := valuesOf_eq_of_mem hrepeats hname hjson
    rw [contentOf_present honly hcontent, type_of_read? hcontent, hcontent]
  · intro h
    obtain ⟨made, hmade⟩ := exists_ofMembers?_iff.mpr fun entry hentry json hjson => by
      rw [← fields.map_type_entries] at hentry
      obtain ⟨entry, hmem, rfl⟩ := List.mem_map.mp hentry
      exact ⟨entry.2, (h entry hmem).2 json hjson⟩
    have heq : fields.entries = made.entries := by
      rw [entries_ofMembers? hmade, ← fields.map_type_entries, List.map_map]
      refine (List.map_id _).symm.trans (List.map_congr_left fun entry hentry => ?_)
      obtain ⟨habsent, hpresent⟩ := h entry hentry
      cases hvalues : Json.valuesOf entry.1 members with
      | nil =>
          have hblank := habsent hvalues
          rw [Function.comp_apply, contentOf_absent hvalues, ← hblank, id_eq]
      | cons json later =>
          have hread := hpresent json (by simp [hvalues])
          rw [Function.comp_apply, contentOf_present hvalues hread, id_eq]
    rw [Fields.entries_inj heq]
    exact hmade

/-! ### Arrays -/

theorem ofItems?_eq : ∀ (names : List String) (items : List Json),
    ofItems? names items =
      if names.length = items.length then ofMembers? (names.zip items) else none
  | [], [] => rfl
  | [], _ :: _ => rfl
  | _ :: _, [] => rfl
  | name :: names, json :: items => by
    rw [ofItems?, ofItems?_eq names items]
    by_cases hlength : names.length = items.length
    · simp only [List.length_cons, hlength, if_true, List.zip_cons_cons, ofMembers?]
    · simp [hlength]

/-- Among names that are paired with items one by one, each has its item. -/
theorem valuesOf_zip : ∀ {names : List String} {items : List Json} {name : String} {json : Json},
    names.Nodup → (name, json) ∈ names.zip items → Json.valuesOf name (names.zip items) = [json]
  | [], _, _, _, _, h => by simp at h
  | _ :: _, [], _, _, _, h => by simp at h
  | first :: names, item :: items, name, json, hnodup, h => by
    obtain ⟨hfirst, hnames⟩ := List.nodup_cons.mp hnodup
    rw [List.zip_cons_cons, Json.valuesOf_cons]
    rcases List.mem_cons.mp h with heq | hrest
    · obtain ⟨rfl, rfl⟩ := Prod.mk.inj heq
      have hnone : Json.valuesOf name (names.zip items) = [] :=
        List.eq_nil_iff_forall_not_mem.mpr fun _ hmem =>
          hfirst (List.of_mem_zip (Json.mem_valuesOf.mp hmem)).1
      rw [if_pos rfl, hnone]
    · have hne : first ≠ name := fun heq => hfirst (heq ▸ (List.of_mem_zip hrest).1)
      rw [if_neg hne, valuesOf_zip hnames hrest]

theorem repeatsField_zip (items : List Json) : repeatsField (fieldNames.zip items) = false := by
  refine List.any_eq_false.mpr fun name _ => ?_
  cases hvalues : Json.valuesOf name (fieldNames.zip items) with
  | nil => simp
  | cons json later =>
      have hmem : json ∈ Json.valuesOf name (fieldNames.zip items) := by simp [hvalues]
      rw [← hvalues, valuesOf_zip nodup_fieldNames (Json.mem_valuesOf.mp hmem)]
      simp

/-- An array makes a node iff its items are what the fields hold, in order. -/
theorem ofItems?_eq_some_iff {items : List Json} {fields : Fields Element} :
    ofItems? fieldNames items = some fields ↔
      List.Forall₂ (fun entry json => read? entry.2.type json = some entry.2)
        fields.entries items := by
  have hzip : ∀ {entry : String × Content Element} {json},
      (entry, json) ∈ fields.entries.zip items → (entry.1, json) ∈ fieldNames.zip items := by
    intro entry json h
    rw [← fields.map_fst_entries, List.zip_map_left]
    exact List.mem_map_of_mem (f := Prod.map Prod.fst id) h
  have hlength : fields.entries.length = fieldNames.length := rfl
  rw [ofItems?_eq, List.forall₂_iff_zip, hlength]
  constructor
  · intro h
    split at h
    · next heq =>
        refine ⟨heq, fun {entry json} hmem => ?_⟩
        have hentry := (List.of_mem_zip hmem).1
        have hvalues := valuesOf_zip nodup_fieldNames (hzip hmem)
        exact ((ofMembers?_eq_some_iff (repeatsField_zip items)).mp h entry hentry).2 json
          (by simp [hvalues])
    · cases h
  · rintro ⟨heq, h⟩
    rw [if_pos heq, ofMembers?_eq_some_iff (repeatsField_zip items)]
    intro entry hentry
    rw [← List.map_fst_zip (Nat.le_of_eq (hlength.trans heq))] at hentry
    obtain ⟨⟨_, json⟩, hmem, rfl⟩ := List.mem_map.mp hentry
    rw [valuesOf_zip nodup_fieldNames (hzip hmem)]
    simpa using h hmem

/-- An array makes a node if each item can be read as what stands in its
place. -/
theorem exists_ofItems? {items : List Json}
    (h : List.Forall₂ (fun entry json => ∃ content, read? entry.2 json = some content)
      types items) :
    ∃ fields, ofItems? fieldNames items = some fields := by
  have hnames : fieldNames = types.map Prod.fst := rfl
  have hlength : fieldNames.length = items.length := h.length_eq
  rw [ofItems?_eq, if_pos hlength]
  refine exists_ofMembers?_iff.mpr fun entry hentry json hjson => ?_
  have hmem := Json.mem_valuesOf.mp hjson
  rw [hnames, List.zip_map_left] at hmem
  obtain ⟨⟨place, item⟩, hplace, heq⟩ := List.mem_map.mp hmem
  obtain ⟨hname, rfl⟩ := Prod.mk.inj heq
  obtain rfl : place = entry := eq_of_mem_types (List.of_mem_zip hplace).1 hentry hname
  exact List.forall₂_zip h hplace

end Element

end Animation
