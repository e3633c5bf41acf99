import Animation.Proofs.Element.Members

/-!
The grammar of elements in JSON, independent of the decoder: which values are
elements, by the forms of their parts alone, and which elements they are. The
decoder tries its forms in order; that it decides the grammar says that the
order does not matter.

Nothing here looks at the tag of a node. It is one of the texts, and a field
that its kind does not use is checked like any other.
-/

namespace Animation

namespace Element

open Fields (types)

variable {α : Type}

/-- The two forms of a reference. -/
inductive RefForm : Json → String → Prop
  | object {name} : RefForm (.object [("ref", .string name)]) name
  | array {name} : RefForm (.array [.string name]) name

/-! ### Which values are elements -/

/-- The values that a field of this type can be given. -/
inductive Suits (isElement : Json → Prop) : FieldType → Json → Prop
  | noText : Suits isElement .text .null
  | text {text} : Suits isElement .text (.string text)
  | noOperand : Suits isElement .operand .null
  | operand {json} : isElement json → Suits isElement .operand json
  | operands {items} : (∀ item ∈ items, isElement item) → Suits isElement .operands (.array items)
  | noNumber : Suits isElement .number .null
  | number {value} : Suits isElement .number (.number value)

/-- Nodes: objects that are no references, in which no field is given twice and
each is given what it can be given, and arrays that give something for each
field in its place. -/
inductive NodeShape (isElement : Json → Prop) : Json → Prop
  | object {members} :
      (∀ name, ¬ RefForm (.object members) name) →
      (∀ name ∈ fieldNames, (Json.valuesOf name members).length ≤ 1) →
      (∀ entry ∈ types, ∀ json ∈ Json.valuesOf entry.1 members, Suits isElement entry.2 json) →
      NodeShape isElement (.object members)
  | array {items} :
      List.Forall₂ (fun entry json => Suits isElement entry.2 json) types items →
      NodeShape isElement (.array items)

inductive IsElement : Json → Prop
  | number {value} : IsElement (.number value)
  | ref {json name} : RefForm json name → IsElement json
  | node {json} : NodeShape IsElement json → IsElement json

/-! ### Which elements they are -/

/-- What a field holds that was given this value. -/
inductive Fits (spells : Json → α → Prop) : Json → Content α → Prop
  | noText : Fits spells .null (.text none)
  | text {text} : Fits spells (.string text) (.text (some text))
  | noOperand : Fits spells .null (.operand none)
  | operand {json element} : spells json element → Fits spells json (.operand (some element))
  | operands {items elements} :
      List.Forall₂ spells items elements → Fits spells (.array items) (.operands elements)
  | noNumber : Fits spells .null (.number none)
  | number {value} : Fits spells (.number value) (.number (some value.toFloat))

/-- What a field holds for which these values were given. -/
inductive Gives (spells : Json → α → Prop) : List Json → Content α → Prop
  | absent {content} : content = .blank content.type → Gives spells [] content
  | present {json content} : Fits spells json content → Gives spells [json] content

inductive SpellsNode (spells : Json → α → Prop) : Json → Fields α → Prop
  | object {members fields} :
      (∀ name, ¬ RefForm (.object members) name) →
      (∀ entry ∈ fields.entries, Gives spells (Json.valuesOf entry.1 members) entry.2) →
      SpellsNode spells (.object members) fields
  | array {items fields} :
      List.Forall₂ (fun entry json => Fits spells json entry.2) fields.entries items →
      SpellsNode spells (.array items) fields

inductive Spells : Json → Element → Prop
  | number {value} : Spells (.number value) (.number value.toFloat)
  | ref {json name} : RefForm json name → Spells json (.ref name)
  | node {json fields} : SpellsNode Spells json fields → Spells json (.node fields)

/-- The decoder as a relation. -/
def Decodes (json : Json) (element : Element) : Prop :=
  ofJson? json = some element

/-! ### One level of the decoder -/

theorem allOfJson?_eq_some_iff : ∀ {items : List Json} {elements : List Element},
    allOfJson? items = some elements ↔ List.Forall₂ Decodes items elements
  | [], elements => by simp [allOfJson?, eq_comm]
  | json :: items, elements => by
    simp only [allOfJson?, Option.bind_eq_bind, Option.bind_eq_some_iff, allOfJson?_eq_some_iff,
      List.forall₂_cons_left_iff, Option.pure_def, Option.some.injEq]
    constructor
    · rintro ⟨first, hfirst, rest, hrest, rfl⟩
      exact ⟨first, rest, hfirst, hrest, rfl⟩
    · rintro ⟨first, rest, hfirst, hrest, rfl⟩
      exact ⟨first, hfirst, rest, hrest, rfl⟩

theorem text?_eq_some_iff {json : Json} {text : String} :
    text? json = some text ↔ json = .string text := by
  cases json <;> simp [text?]

theorem number?_eq_some_iff {json : Json} {value : Float} :
    number? json = some value ↔ ∃ number, json = .number number ∧ number.toFloat = value := by
  cases json <;> simp [number?]

theorem listOfJson?_eq_some_iff {json : Json} {elements : List Element} :
    listOfJson? json = some elements ↔
      ∃ items, json = .array items ∧ List.Forall₂ Decodes items elements := by
  cases json <;> simp [listOfJson?, allOfJson?_eq_some_iff]

theorem ofJson?_null : ofJson? .null = none := by
  simp [ofJson?]

theorem read?_eq_some_iff {json : Json} {content : Content Element} :
    read? content.type json = some content ↔ Fits Decodes json content := by
  cases content with
  | text text =>
      have hread : read? .text json = some (.text text) ↔ optional? text? json = some text := by
        simp [read?]
      rw [Content.type, hread, optional?_eq_some_iff rfl]
      constructor
      · rintro (⟨rfl, rfl⟩ | ⟨text, htext, rfl⟩)
        · exact .noText
        · rw [text?_eq_some_iff.mp htext]
          exact .text
      · intro h
        cases h with
        | noText => exact .inl ⟨rfl, rfl⟩
        | text => exact .inr ⟨_, rfl, rfl⟩
  | operand operand =>
      have hread : read? .operand json = some (.operand operand) ↔
          optional? ofJson? json = some operand := by
        simp [read?]
      rw [Content.type, hread, optional?_eq_some_iff ofJson?_null]
      constructor
      · rintro (⟨rfl, rfl⟩ | ⟨element, helement, rfl⟩)
        · exact .noOperand
        · exact .operand helement
      · intro h
        cases h with
        | noOperand => exact .inl ⟨rfl, rfl⟩
        | operand helement => exact .inr ⟨_, helement, rfl⟩
  | operands elements =>
      have hread : read? .operands json = some (.operands elements) ↔
          listOfJson? json = some elements := by
        simp [read?]
      rw [Content.type, hread, listOfJson?_eq_some_iff]
      constructor
      · rintro ⟨items, rfl, hitems⟩
        exact .operands hitems
      · intro h
        cases h with
        | operands hitems => exact ⟨_, rfl, hitems⟩
  | number value =>
      have hread : read? .number json = some (.number value) ↔
          optional? number? json = some value := by
        simp [read?]
      rw [Content.type, hread, optional?_eq_some_iff rfl]
      constructor
      · rintro (⟨rfl, rfl⟩ | ⟨value, hvalue, rfl⟩)
        · exact .noNumber
        · obtain ⟨number, rfl, rfl⟩ := number?_eq_some_iff.mp hvalue
          exact .number
      · intro h
        cases h with
        | noNumber => exact .inl ⟨rfl, rfl⟩
        | number => exact .inr ⟨_, rfl, rfl⟩

theorem ofJson?_object {members : List (String × Json)}
    (h : ∀ name, ¬ RefForm (.object members) name) :
    ofJson? (.object members) =
      if repeatsField members then none else (ofMembers? members).map .node := by
  rw [ofJson?]
  rintro name rfl
  exact h name .object

theorem ofJson?_array {items : List Json} (h : ∀ name, ¬ RefForm (.array items) name) :
    ofJson? (.array items) = (ofItems? fieldNames items).map .node := by
  rw [ofJson?]
  rintro name rfl
  exact h name .array

theorem ofJson?_of_refForm {json : Json} {name : String} (h : RefForm json name) :
    ofJson? json = some (.ref name) := by
  cases h <;> simp [ofJson?]

/-- Whatever is neither a number nor a reference is a node or nothing. -/
theorem eq_node_of_ofJson? {json : Json} {element : Element} (h : ofJson? json = some element)
    (hnumber : ∀ number, json ≠ .number number) (href : ∀ name, ¬ RefForm json name) :
    ∃ fields, element = .node fields := by
  cases json with
  | null | bool value | string value => simp [ofJson?] at h
  | number value => exact absurd rfl (hnumber value)
  | array items =>
      rw [ofJson?_array href] at h
      obtain ⟨fields, -, rfl⟩ := Option.map_eq_some_iff.mp h
      exact ⟨fields, rfl⟩
  | object members =>
      rw [ofJson?_object href] at h
      split at h
      · cases h
      · obtain ⟨fields, -, rfl⟩ := Option.map_eq_some_iff.mp h
        exact ⟨fields, rfl⟩

theorem ofJson?_eq_ref_iff {json : Json} {name : String} :
    ofJson? json = some (.ref name) ↔ RefForm json name := by
  refine ⟨fun h => ?_, ofJson?_of_refForm⟩
  by_cases href : ∃ name', RefForm json name'
  · obtain ⟨name', href⟩ := href
    cases (ofJson?_of_refForm href).symm.trans h
    exact href
  · have hnumber : ∀ number, json ≠ .number number := by
      rintro number rfl
      simp [ofJson?] at h
    obtain ⟨_, hnode⟩ := eq_node_of_ofJson? h hnumber (not_exists.mp href)
    cases hnode

theorem ofJson?_eq_number_iff {json : Json} {value : Float} :
    ofJson? json = some (.number value) ↔
      ∃ number, json = .number number ∧ number.toFloat = value := by
  constructor
  · intro h
    by_cases hnumber : ∃ number, json = .number number
    · obtain ⟨number, rfl⟩ := hnumber
      exact ⟨number, rfl, by simpa [ofJson?] using h⟩
    · have href : ∀ name, ¬ RefForm json name := fun name href => by
        cases (ofJson?_of_refForm href).symm.trans h
      obtain ⟨_, hnode⟩ := eq_node_of_ofJson? h (not_exists.mp hnumber) href
      cases hnode
  · rintro ⟨number, rfl, rfl⟩
    simp [ofJson?]

/-- A reference has one item, and a node has one for each field. -/
theorem not_refForm_of_length {items : List Json} (h : items.length = types.length)
    (name : String) : ¬ RefForm (.array items) name := by
  rintro ⟨⟩
  cases h

theorem gives_iff {spells : Json → α → Prop} {values : List Json} {content : Content α} :
    Gives spells values content ↔
      values.length ≤ 1 ∧ (values = [] → content = .blank content.type) ∧
        ∀ json ∈ values, Fits spells json content := by
  constructor
  · intro h
    cases h with
    | absent hblank => exact ⟨by simp, fun _ => hblank, by simp⟩
    | present hfits => exact ⟨by simp, by simp, by simpa using hfits⟩
  · rintro ⟨hlength, hblank, hfits⟩
    match values with
    | [] => exact .absent (hblank rfl)
    | [json] => exact .present (hfits json (by simp))
    | _ :: _ :: _ => simp at hlength

theorem repeatsField_eq_false_iff {members : List (String × Json)} :
    repeatsField members = false ↔
      ∀ name ∈ fieldNames, (Json.valuesOf name members).length ≤ 1 := by
  simp [repeatsField]

theorem length_le_of_gives {spells : Json → α → Prop} {members : List (String × Json)}
    {fields : Fields α}
    (h : ∀ entry ∈ fields.entries, Gives spells (Json.valuesOf entry.1 members) entry.2) :
    ∀ name ∈ fieldNames, (Json.valuesOf name members).length ≤ 1 := by
  intro name hname
  rw [← fields.map_fst_entries] at hname
  obtain ⟨entry, hentry, rfl⟩ := List.mem_map.mp hname
  exact (gives_iff.mp (h entry hentry)).1

theorem ofJson?_eq_node_iff {json : Json} {fields : Fields Element} :
    ofJson? json = some (.node fields) ↔ SpellsNode Decodes json fields := by
  constructor
  · intro h
    have href : ∀ name, ¬ RefForm json name := fun name href => by
      cases (ofJson?_of_refForm href).symm.trans h
    cases json with
    | null | bool value | string value | number value => simp [ofJson?] at h
    | array items =>
        rw [ofJson?_array href] at h
        obtain ⟨_, h, ⟨⟩⟩ := Option.map_eq_some_iff.mp h
        exact .array ((ofItems?_eq_some_iff.mp h).imp fun _ _ => read?_eq_some_iff.mp)
    | object members =>
        rw [ofJson?_object href] at h
        cases hrepeats : repeatsField members with
        | true => simp [hrepeats] at h
        | false =>
            rw [hrepeats, if_neg Bool.false_ne_true] at h
            obtain ⟨_, h, ⟨⟩⟩ := Option.map_eq_some_iff.mp h
            refine .object href fun entry hentry => gives_iff.mpr ?_
            obtain ⟨habsent, hpresent⟩ := (ofMembers?_eq_some_iff hrepeats).mp h entry hentry
            have hlength := repeatsField_eq_false_iff.mp hrepeats entry.1
              (List.mem_map_of_mem (f := Prod.fst) hentry)
            exact ⟨hlength, habsent,
              fun json hjson => read?_eq_some_iff.mp (hpresent json hjson)⟩
  · intro h
    cases h with
    | object href hgives =>
        have hrepeats := repeatsField_eq_false_iff.mpr (length_le_of_gives hgives)
        rw [ofJson?_object href, hrepeats, if_neg Bool.false_ne_true]
        refine Option.map_eq_some_iff.mpr ⟨fields, ?_, rfl⟩
        refine (ofMembers?_eq_some_iff hrepeats).mpr fun entry hentry => ?_
        obtain ⟨-, habsent, hpresent⟩ := gives_iff.mp (hgives entry hentry)
        exact ⟨habsent, fun json hjson => read?_eq_some_iff.mpr (hpresent json hjson)⟩
    | @array items _ hitems =>
        rw [ofJson?_array (not_refForm_of_length hitems.length_eq.symm)]
        refine Option.map_eq_some_iff.mpr ⟨fields, ?_, rfl⟩
        exact ofItems?_eq_some_iff.mpr (hitems.imp fun _ _ => read?_eq_some_iff.mpr)

theorem Decodes.exists_node {json : Json} {element : Element} (h : Decodes json element)
    (hnumber : ∀ number, json ≠ .number number) (href : ∀ name, ¬ RefForm json name) :
    ∃ fields, element = .node fields ∧ SpellsNode Decodes json fields := by
  obtain ⟨fields, rfl⟩ := eq_node_of_ofJson? h hnumber href
  exact ⟨fields, rfl, ofJson?_eq_node_iff.mp h⟩

/-! ### All levels -/

theorem sizeOf_item {item : Json} {items : List Json} (h : item ∈ items) :
    sizeOf item < sizeOf (Json.array items) := by
  have := List.sizeOf_lt_of_mem h
  simp only [Json.array.sizeOf_spec]
  omega

theorem sizeOf_value {name : String} {json : Json} {members : List (String × Json)}
    (h : json ∈ Json.valuesOf name members) : sizeOf json < sizeOf (Json.object members) := by
  have := List.sizeOf_lt_of_mem (Json.mem_valuesOf.mp h)
  simp only [Json.object.sizeOf_spec, Prod.mk.sizeOf_spec] at this ⊢
  omega

section

variable {reads spells : Json → α → Prop}

theorem Fits.imp {json : Json} {content : Content α} (h : Fits reads json content)
    (himp : ∀ part, sizeOf part ≤ sizeOf json → ∀ element, reads part element →
      spells part element) :
    Fits spells json content := by
  cases h with
  | noText => exact .noText
  | text => exact .text
  | noOperand => exact .noOperand
  | operand h => exact .operand (himp _ (Nat.le_refl _) _ h)
  | operands h =>
      exact .operands (((List.forall₂_and_left _ _).mpr ⟨fun _ => sizeOf_item, h⟩).imp
        fun _ _ h => himp _ (Nat.le_of_lt h.1) _ h.2)
  | noNumber => exact .noNumber
  | number => exact .number

theorem SpellsNode.imp {json : Json} {fields : Fields α} (h : SpellsNode reads json fields)
    (himp : ∀ part, sizeOf part < sizeOf json → ∀ element, reads part element →
      spells part element) :
    SpellsNode spells json fields := by
  cases h with
  | object href hgives =>
      refine .object href fun entry hentry => gives_iff.mpr ?_
      obtain ⟨hlength, habsent, hpresent⟩ := gives_iff.mp (hgives entry hentry)
      exact ⟨hlength, habsent, fun json hjson => (hpresent json hjson).imp fun part hpart =>
        himp part (Nat.lt_of_le_of_lt hpart (sizeOf_value hjson))⟩
  | array h =>
      refine .array (((List.forall₂_and_left _ _).mpr
        ⟨fun _ => sizeOf_item, h.flip⟩).flip.imp fun _ _ h => ?_)
      exact h.2.imp fun part hpart => himp part (Nat.lt_of_le_of_lt hpart h.1)

end

/-- The decoder decides the grammar. -/
theorem decodes_iff_spells (json : Json) (element : Element) :
    Decodes json element ↔ Spells json element := by
  cases element with
  | number value =>
      rw [Decodes, ofJson?_eq_number_iff]
      constructor
      · rintro ⟨number, rfl, rfl⟩
        exact .number
      · intro h
        cases h
        exact ⟨_, rfl, rfl⟩
  | ref name =>
      rw [Decodes, ofJson?_eq_ref_iff]
      constructor
      · exact .ref
      · intro h
        cases h with
        | ref h => exact h
  | node fields =>
      have ih := fun part (_ : sizeOf part < sizeOf json) element => decodes_iff_spells part element
      rw [Decodes, ofJson?_eq_node_iff]
      constructor
      · intro h
        exact .node (h.imp fun part hpart element => (ih part hpart element).mp)
      · intro h
        cases h with
        | node h => exact h.imp fun part hpart element => (ih part hpart element).mpr
termination_by sizeOf json

/-! ### Shapes -/

theorem Suits.imp {these those : Json → Prop} {type : FieldType} {json : Json}
    (h : Suits these type json)
    (himp : ∀ part, sizeOf part ≤ sizeOf json → these part → those part) :
    Suits those type json := by
  cases h with
  | noText => exact .noText
  | text => exact .text
  | noOperand => exact .noOperand
  | operand h => exact .operand (himp _ (Nat.le_refl _) h)
  | operands h =>
      exact .operands fun item hitem =>
        himp item (Nat.le_of_lt (sizeOf_item hitem)) (h item hitem)
  | noNumber => exact .noNumber
  | number => exact .number

theorem NodeShape.imp {these those : Json → Prop} {json : Json} (h : NodeShape these json)
    (himp : ∀ part, sizeOf part < sizeOf json → these part → those part) :
    NodeShape those json := by
  cases h with
  | object href hrepeats hsuits =>
      refine .object href hrepeats fun entry hentry json hjson => ?_
      exact (hsuits entry hentry json hjson).imp fun part hpart =>
        himp part (Nat.lt_of_le_of_lt hpart (sizeOf_value hjson))
  | array h =>
      refine .array (((List.forall₂_and_left _ _).mpr
        ⟨fun _ => sizeOf_item, h.flip⟩).flip.imp fun _ _ h => ?_)
      exact h.2.imp fun part hpart => himp part (Nat.lt_of_le_of_lt hpart h.1)

theorem exists_forall₂_iff {spells : Json → α → Prop} {items : List Json} :
    (∃ elements, List.Forall₂ spells items elements) ↔
      ∀ item ∈ items, ∃ element, spells item element := by
  induction items with
  | nil => simp
  | cons item items ih =>
      simp only [List.forall_mem_cons, ← ih, List.forall₂_cons_left_iff]
      constructor
      · rintro ⟨_, element, elements, hitem, hitems, rfl⟩
        exact ⟨⟨element, hitem⟩, elements, hitems⟩
      · rintro ⟨⟨element, hitem⟩, elements, hitems⟩
        exact ⟨_, element, elements, hitem, hitems, rfl⟩

/-- A field can be given the values that make some content, and no others. -/
theorem suits_iff {spells : Json → α → Prop} {type : FieldType} {json : Json} :
    Suits (fun json => ∃ element, spells json element) type json ↔
      ∃ content, content.type = type ∧ Fits spells json content := by
  constructor
  · intro h
    cases h with
    | noText => exact ⟨_, rfl, .noText⟩
    | text => exact ⟨_, rfl, .text⟩
    | noOperand => exact ⟨_, rfl, .noOperand⟩
    | operand h =>
        obtain ⟨_, h⟩ := h
        exact ⟨_, rfl, .operand h⟩
    | operands h =>
        obtain ⟨_, h⟩ := exists_forall₂_iff.mpr h
        exact ⟨_, rfl, .operands h⟩
    | noNumber => exact ⟨_, rfl, .noNumber⟩
    | number => exact ⟨_, rfl, .number⟩
  · rintro ⟨content, rfl, h⟩
    cases h with
    | noText => exact .noText
    | text => exact .text
    | noOperand => exact .noOperand
    | operand h => exact .operand ⟨_, h⟩
    | operands h => exact .operands (exists_forall₂_iff.mp ⟨_, h⟩)
    | noNumber => exact .noNumber
    | number => exact .number

theorem exists_read?_iff {type : FieldType} {json : Json} :
    (∃ content, read? type json = some content) ↔
      Suits (fun json => ∃ element, Decodes json element) type json := by
  rw [suits_iff]
  constructor
  · rintro ⟨content, h⟩
    obtain rfl := type_of_read? h
    exact ⟨content, rfl, read?_eq_some_iff.mp h⟩
  · rintro ⟨content, rfl, h⟩
    exact ⟨content, read?_eq_some_iff.mpr h⟩

/-- Whether a value is a node can be told from the types of its parts. -/
theorem exists_node_iff {json : Json} :
    (∃ fields, Decodes json (.node fields)) ↔
      NodeShape (fun json => ∃ element, Decodes json element) json := by
  constructor
  · rintro ⟨fields, h⟩
    cases ofJson?_eq_node_iff.mp h with
    | object href hgives =>
        refine .object href (length_le_of_gives hgives) fun entry hentry json hjson => ?_
        rw [← fields.map_type_entries] at hentry
        obtain ⟨entry, hmem, rfl⟩ := List.mem_map.mp hentry
        obtain ⟨-, -, hpresent⟩ := gives_iff.mp (hgives entry hmem)
        exact suits_iff.mpr ⟨entry.2, rfl, hpresent json hjson⟩
    | array hitems =>
        refine .array ?_
        rw [← fields.map_type_entries, List.forall₂_map_left_iff]
        exact hitems.imp fun entry _ hfits => suits_iff.mpr ⟨entry.2, rfl, hfits⟩
  · intro h
    cases h with
    | object href hrepeats hsuits =>
        obtain ⟨fields, hfields⟩ := exists_ofMembers?_iff.mpr fun entry hentry json hjson =>
          exists_read?_iff.mpr (hsuits entry hentry json hjson)
        refine ⟨fields, ?_⟩
        rw [Decodes, ofJson?_object href, repeatsField_eq_false_iff.mpr hrepeats, hfields]
        rfl
    | array hitems =>
        obtain ⟨fields, hfields⟩ := exists_ofItems?
          (hitems.imp fun _ _ => exists_read?_iff.mpr)
        refine ⟨fields, ?_⟩
        rw [Decodes, ofJson?_array (not_refForm_of_length hitems.length_eq.symm), hfields]
        rfl

theorem isElement_iff (json : Json) : IsElement json ↔ ∃ element, Decodes json element := by
  have ih := fun part (_ : sizeOf part < sizeOf json) => isElement_iff part
  constructor
  · intro h
    cases h with
    | number => exact ⟨_, ofJson?_eq_number_iff.mpr ⟨_, rfl, rfl⟩⟩
    | ref href => exact ⟨_, ofJson?_eq_ref_iff.mpr href⟩
    | node hnode =>
        obtain ⟨fields, hfields⟩ :=
          exists_node_iff.mpr (hnode.imp fun part hpart => (ih part hpart).mp)
        exact ⟨.node fields, hfields⟩
  · rintro ⟨element, h⟩
    cases element with
    | number value =>
        obtain ⟨number, rfl, -⟩ := ofJson?_eq_number_iff.mp h
        exact .number
    | ref name => exact .ref (ofJson?_eq_ref_iff.mp h)
    | node fields =>
        exact .node ((exists_node_iff.mp ⟨fields, h⟩).imp fun part hpart => (ih part hpart).mpr)
termination_by sizeOf json

theorem exists_node_iff_nodeShape {json : Json} :
    (∃ fields, ofJson? json = some (.node fields)) ↔ NodeShape IsElement json := by
  have h : (fun json => ∃ element, Decodes json element) = IsElement := by
    funext json
    exact propext (isElement_iff json).symm
  rw [← h]
  exact exists_node_iff

theorem ofJson?_eq_none_iff {json : Json} :
    ofJson? json = none ↔
      (∀ number, json ≠ .number number) ∧ (∀ name, ¬ RefForm json name) ∧
        ¬ NodeShape IsElement json := by
  have h : ofJson? json = none ↔ ¬ IsElement json := by
    rw [isElement_iff, not_exists]
    exact Option.eq_none_iff_forall_ne_some
  rw [h]
  constructor
  · intro h
    refine ⟨?_, fun _ href => h (.ref href), fun hnode => h (.node hnode)⟩
    rintro number rfl
    exact h .number
  · rintro ⟨hnumber, href, hnode⟩ h
    cases h with
    | number => exact hnumber _ rfl
    | ref h => exact href _ h
    | node h => exact hnode h

theorem RefForm.not_nodeShape {isElement : Json → Prop} {json : Json} {name : String}
    (href : RefForm json name) : ¬ NodeShape isElement json := by
  intro hnode
  cases hnode with
  | object hnone _ _ => exact hnone name href
  | array hitems => exact not_refForm_of_length hitems.length_eq.symm name href

/-- The grammar is exact. A value is read as a number iff it is one, as a
reference iff it is one of the two forms of a reference, and as a node iff it
has the shape of one; all other values are refused, and no value is two of the
three. The kind of a node has no part in this. What is read is what the value
spells, field by field. -/
theorem grammar_exact (json : Json) :
    (∀ value, ofJson? json = some (.number value) ↔
      ∃ number, json = .number number ∧ number.toFloat = value) ∧
    (∀ name, ofJson? json = some (.ref name) ↔ RefForm json name) ∧
    ((∃ fields, ofJson? json = some (.node fields)) ↔ NodeShape IsElement json) ∧
    (ofJson? json = none ↔
      (∀ number, json ≠ .number number) ∧ (∀ name, ¬ RefForm json name) ∧
        ¬ NodeShape IsElement json) ∧
    ((∃ number, json = .number number) →
      (∀ name, ¬ RefForm json name) ∧ ¬ NodeShape IsElement json) ∧
    ((∃ name, RefForm json name) → ¬ NodeShape IsElement json) ∧
    ∀ element, ofJson? json = some element ↔ Spells json element := by
  refine ⟨fun _ => ofJson?_eq_number_iff, fun _ => ofJson?_eq_ref_iff, exists_node_iff_nodeShape,
    ofJson?_eq_none_iff, ?_, ?_, decodes_iff_spells json⟩
  · rintro ⟨number, rfl⟩
    exact ⟨fun _ => (nomatch ·), (nomatch ·)⟩
  · rintro ⟨name, href⟩
    exact href.not_nodeShape

/-- A reference has no second member, so this is a node without any field. -/
example : ofJson? (.object [("ref", .string "x"), ("ref", .string "x")]) = some (.node {}) := by
  rfl

end Element

end Animation
