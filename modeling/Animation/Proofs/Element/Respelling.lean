import Animation.Proofs.Element.Grammar
import Mathlib.Logic.Relation

/-!
Spellings of one element. The members of an object can be in any order, and an
object that mentions no reference can have members that nobody knows and
members that say nothing; a node can be the array of its fields and a reference
the array of its name. None of this changes what a value is read as, wherever in
the value it is done. So an element can be written in many ways, all of which
are read as this element.
-/

namespace Animation

namespace Element

open Fields (types)

/-- The value that says nothing about a field of this type. -/
def nothing : FieldType → Json
  | .operands => .array []
  | _ => .null

/-- The item for a field in an array of all fields. -/
def itemOf (members : List (String × Json)) (entry : String × FieldType) : Json :=
  (Json.valuesOf entry.1 members).head?.getD (nothing entry.2)

/-- Members that an object can have or not have. -/
inductive Idle (members : List (String × Json)) : String → Json → Prop
  | unknown {name json} : name ∉ fieldNames → name ≠ "ref" → Idle members name json
  | nothing {name type} :
      (name, type) ∈ types → Json.valuesOf name members = [] → Idle members name (nothing type)

/-- One object somewhere in the value is spelled in another way. Members come
and go at the front of an object, and `permute` takes them anywhere else. -/
inductive Respells : Json → Json → Prop
  | permute {members others} :
      members.Perm others → Respells (.object members) (.object others)
  | add {members name json} :
      Json.valuesOf "ref" members = [] → Idle members name json →
      Respells (.object members) (.object ((name, json) :: members))
  | remove {members name json} :
      Json.valuesOf "ref" members = [] → Idle members name json →
      Respells (.object ((name, json) :: members)) (.object members)
  | nodeItems {members} :
      (∀ name, ¬ RefForm (.object members) name) →
      Respells (.object members) (.array (types.map (itemOf members)))
  | refItem {name} : Respells (.object [("ref", .string name)]) (.array [.string name])
  | member {before name json json' after} :
      Respells json json' →
      Respells (.object (before ++ (name, json) :: after))
        (.object (before ++ (name, json') :: after))
  | item {before json json' after} :
      Respells json json' →
      Respells (.array (before ++ json :: after)) (.array (before ++ json' :: after))

/-- The members of one object somewhere in the value stand in another order. -/
inductive Reorders : Json → Json → Prop
  | permute {members others} :
      members.Perm others → Reorders (.object members) (.object others)
  | member {before name json json' after} :
      Reorders json json' →
      Reorders (.object (before ++ (name, json) :: after))
        (.object (before ++ (name, json') :: after))
  | item {before json json' after} :
      Reorders json json' →
      Reorders (.array (before ++ json :: after)) (.array (before ++ json' :: after))

theorem Reorders.symm {json json' : Json} (h : Reorders json json') : Reorders json' json := by
  induction h with
  | permute h => exact .permute h.symm
  | member _ ih => exact .member ih
  | item _ ih => exact .item ih

theorem Reorders.respells {json json' : Json} (h : Reorders json json') : Respells json json' := by
  induction h with
  | permute h => exact .permute h
  | member _ ih => exact .member ih
  | item _ ih => exact .item ih

/-! ### One object -/

theorem refForm_object_iff {members : List (String × Json)} {name : String} :
    RefForm (.object members) name ↔ members = [("ref", .string name)] := by
  constructor
  · rintro ⟨⟩
    rfl
  · rintro rfl
    exact .object

/-- Two objects are read alike if they are the same reference or none, and if
they give each field the same. -/
theorem decodes_object {members others : List (String × Json)} {element : Element}
    (h : Decodes (.object members) element)
    (href : ∀ name, RefForm (.object members) name ↔ RefForm (.object others) name)
    (hgives : ∀ fields : Fields Element, ∀ entry ∈ fields.entries,
      Gives Decodes (Json.valuesOf entry.1 members) entry.2 →
        Gives Decodes (Json.valuesOf entry.1 others) entry.2) :
    Decodes (.object others) element := by
  cases element with
  | number value =>
      obtain ⟨_, ⟨⟩, _⟩ := ofJson?_eq_number_iff.mp h
  | ref name =>
      exact ofJson?_eq_ref_iff.mpr ((href name).mp (ofJson?_eq_ref_iff.mp h))
  | node fields =>
      cases ofJson?_eq_node_iff.mp h with
      | object hnone hfields =>
          refine ofJson?_eq_node_iff.mpr (.object (fun name => ?_) fun entry hentry => ?_)
          · exact fun h => hnone name ((href name).mpr h)
          · exact hgives fields entry hentry (hfields entry hentry)

theorem Gives.perm {spells : Json → Element → Prop} {values others : List Json}
    {content : Content Element} (h : Gives spells values content) (hperm : values.Perm others) :
    Gives spells others content := by
  cases h with
  | absent hblank =>
      rw [List.nil_perm.mp hperm]
      exact .absent hblank
  | present hfits =>
      rw [← List.singleton_perm.mp hperm]
      exact .present hfits

theorem fits_nothing_iff {content : Content Element} :
    Fits Decodes (nothing content.type) content ↔ content = .blank content.type := by
  constructor
  · intro h
    cases content with
    | text text =>
        cases h
        rfl
    | operand operand =>
        cases h with
        | noOperand => rfl
        | operand h => cases ofJson?_null.symm.trans h
    | operands elements =>
        cases h with
        | operands h =>
            cases h
            rfl
    | number value =>
        cases h
        rfl
  · intro h
    rw [h]
    cases content with
    | text text => exact .noText
    | operand operand => exact .noOperand
    | operands elements => exact .operands .nil
    | number value => exact .noNumber

/-- An idle member is no reference, and it gives no field anything. -/
theorem Idle.ne_ref {members : List (String × Json)} {name : String} {json : Json}
    (h : Idle members name json) : name ≠ "ref" := by
  cases h with
  | unknown _ hname => exact hname
  | nothing htype _ =>
      rintro rfl
      revert htype
      simp [types]

theorem Idle.gives_iff {members : List (String × Json)} {name : String} {json : Json}
    (h : Idle members name json) {fields : Fields Element} {entry : String × Content Element}
    (hentry : entry ∈ fields.entries) :
    Gives Decodes (Json.valuesOf entry.1 ((name, json) :: members)) entry.2 ↔
      Gives Decodes (Json.valuesOf entry.1 members) entry.2 := by
  rw [Json.valuesOf_cons]
  split
  · next heq =>
      cases h with
      | unknown hname _ =>
          refine absurd ?_ hname
          rw [heq, ← fields.map_fst_entries]
          exact List.mem_map_of_mem hentry
      | nothing htype habsent =>
          subst heq
          obtain rfl := type_of_mem_types hentry htype
          rw [habsent]
          constructor
          · rintro ⟨⟩
            exact .absent (fits_nothing_iff.mp ‹_›)
          · rintro (hblank | _)
            exact .present (fits_nothing_iff.mpr hblank)
  · rfl

theorem decodes_permute {members others : List (String × Json)} {element : Element}
    (h : Decodes (.object members) element) (hperm : members.Perm others) :
    Decodes (.object others) element := by
  refine decodes_object h (fun name => ?_) fun fields entry _ hgives => ?_
  · rw [refForm_object_iff, refForm_object_iff]
    constructor
    · rintro rfl
      exact (List.singleton_perm.mp hperm).symm
    · rintro rfl
      exact List.perm_singleton.mp hperm
  · exact hgives.perm (hperm.filterMap _)

/-- Among objects without a member `ref` there are no references. -/
theorem refForm_iff_of_valuesOf {members others : List (String × Json)}
    (hmembers : Json.valuesOf "ref" members = []) (hothers : Json.valuesOf "ref" others = [])
    (name : String) : RefForm (.object members) name ↔ RefForm (.object others) name := by
  have hnone : ∀ {members}, Json.valuesOf "ref" members = [] →
      ¬ RefForm (.object members) name := by
    rintro members h ⟨⟩
    simp [Json.valuesOf] at h
  exact iff_of_false (hnone hmembers) (hnone hothers)

theorem Idle.decodes_iff {members : List (String × Json)} {name : String} {json : Json}
    (h : Idle members name json) (href : Json.valuesOf "ref" members = []) {element : Element} :
    Decodes (.object ((name, json) :: members)) element ↔ Decodes (.object members) element := by
  have hadded : Json.valuesOf "ref" ((name, json) :: members) = [] := by
    rw [Json.valuesOf_cons, if_neg h.ne_ref, href]
  constructor
  · exact fun hdecodes => decodes_object hdecodes (refForm_iff_of_valuesOf hadded href)
      fun fields entry hentry => (h.gives_iff hentry).mp
  · exact fun hdecodes => decodes_object hdecodes (refForm_iff_of_valuesOf href hadded)
      fun fields entry hentry => (h.gives_iff hentry).mpr

theorem decodes_nodeItems {members : List (String × Json)} {element : Element}
    (h : Decodes (.object members) element) (href : ∀ name, ¬ RefForm (.object members) name) :
    Decodes (.array (types.map (itemOf members))) element := by
  obtain ⟨fields, rfl, hnode⟩ := h.exists_node (fun _ => (nomatch ·)) href
  cases hnode with
  | object _ hfields =>
      refine ofJson?_eq_node_iff.mpr (.array ?_)
      rw [← fields.map_type_entries, List.map_map, List.forall₂_map_right_iff, List.forall₂_same]
      intro entry hentry
      have hgives := hfields entry hentry
      cases hvalues : Json.valuesOf entry.1 members with
      | nil =>
          rw [hvalues] at hgives
          cases hgives with
          | absent hblank => simpa [itemOf, hvalues] using fits_nothing_iff.mpr hblank
      | cons json later =>
          rw [hvalues] at hgives
          cases hgives with
          | present hfits => simpa [itemOf, hvalues] using hfits

/-! ### Somewhere in the value -/

theorem Respells.ne_string {json json' : Json} (h : Respells json json') (text : String) :
    json ≠ .string text ∧ json' ≠ .string text := by
  constructor <;>
    · rintro rfl
      cases h

/-- What a reference holds is a string, and nothing else is respelled into one
or from one. -/
theorem not_refForm_member {before after : List (String × Json)} {name : String} {json : Json}
    (hjson : ∀ text, json ≠ .string text) (ref : String) :
    ¬ RefForm (.object (before ++ (name, json) :: after)) ref := by
  rw [refForm_object_iff]
  intro h
  have hmem : (name, json) ∈ [("ref", Json.string ref)] := h ▸ by simp
  obtain ⟨-, rfl⟩ := Prod.mk.inj (List.mem_singleton.mp hmem)
  exact hjson ref rfl

theorem not_refForm_item {before after : List Json} {json : Json}
    (hjson : ∀ text, json ≠ .string text) (ref : String) :
    ¬ RefForm (.array (before ++ json :: after)) ref := by
  intro h
  cases hitems : before ++ json :: after with
  | nil => simp at hitems
  | cons first rest =>
      rw [hitems] at h
      cases h
      have hmem : json ∈ [Json.string ref] := hitems ▸ by simp
      exact hjson ref (List.mem_singleton.mp hmem)

theorem Gives.replace {spells : Json → Element → Prop} {before after : List Json}
    {json json' : Json} {content : Content Element}
    (h : Gives spells (before ++ json :: after) content)
    (hfits : Fits spells json content → Fits spells json' content) :
    Gives spells (before ++ json' :: after) content := by
  rw [Element.gives_iff] at h ⊢
  obtain ⟨hlength, -, hpresent⟩ := h
  refine ⟨by simpa using hlength, by simp, ?_⟩
  simp only [List.forall_mem_append, List.forall_mem_cons] at hpresent ⊢
  exact ⟨hpresent.1, hfits hpresent.2.1, hpresent.2.2⟩

theorem decodes_member {before after : List (String × Json)} {name : String} {json json' : Json}
    (hpart : Respells json json')
    (hfits : ∀ {content : Content Element}, Fits Decodes json content → Fits Decodes json' content)
    {element : Element} (h : Decodes (.object (before ++ (name, json) :: after)) element) :
    Decodes (.object (before ++ (name, json') :: after)) element := by
  refine decodes_object h (fun ref => ?_) fun fields entry _ hgives => ?_
  · exact iff_of_false (not_refForm_member (fun text => (hpart.ne_string text).1) ref)
      (not_refForm_member (fun text => (hpart.ne_string text).2) ref)
  · rw [Json.valuesOf_append, Json.valuesOf_cons] at hgives ⊢
    by_cases heq : name = entry.1
    · rw [if_pos heq] at hgives ⊢
      exact hgives.replace hfits
    · rw [if_neg heq] at hgives ⊢
      exact hgives

theorem forall₂_replace {α β : Type} {related : α → β → Prop} {before after : List β}
    {that that' : β} (himp : ∀ {this}, related this that → related this that') :
    ∀ {these : List α}, List.Forall₂ related these (before ++ that :: after) →
      List.Forall₂ related these (before ++ that' :: after) := by
  induction before with
  | nil =>
      rintro _ (_ | ⟨hfirst, hrest⟩)
      exact .cons (himp hfirst) hrest
  | cons first before ih =>
      rintro _ (_ | ⟨hfirst, hrest⟩)
      exact .cons hfirst (ih hrest)

theorem decodes_item {before after : List Json} {json json' : Json} (hpart : Respells json json')
    (hfits : ∀ {content : Content Element}, Fits Decodes json content → Fits Decodes json' content)
    {element : Element} (h : Decodes (.array (before ++ json :: after)) element) :
    Decodes (.array (before ++ json' :: after)) element := by
  obtain ⟨fields, rfl, hnode⟩ := h.exists_node (fun _ => (nomatch ·))
    (not_refForm_item fun text => (hpart.ne_string text).1)
  cases hnode with
  | array hitems => exact ofJson?_eq_node_iff.mpr (.array (forall₂_replace hfits hitems))

theorem fits_object {members : List (String × Json)} {json : Json} {content : Content Element}
    (h : Fits Decodes (.object members) content)
    (hdecodes : ∀ {element}, Decodes (.object members) element → Decodes json element) :
    Fits Decodes json content := by
  cases h with
  | operand h => exact .operand (hdecodes h)

/-- A respelled value gives a field what the value gave it. This is more than
that it is read as the same element: the array that holds the respelled item can
be the list of operands of a field, and as such it is no element at all. -/
theorem Respells.fits {json json' : Json} (h : Respells json json') :
    ∀ {content : Content Element}, Fits Decodes json content → Fits Decodes json' content := by
  induction h with
  | permute hperm => exact fun h => fits_object h (decodes_permute · hperm)
  | add href hidle => exact fun h => fits_object h (hidle.decodes_iff href).mpr
  | remove href hidle => exact fun h => fits_object h (hidle.decodes_iff href).mp
  | nodeItems href => exact fun h => fits_object h (decodes_nodeItems · href)
  | @refItem name =>
      refine fun h => fits_object h fun h => ?_
      rw [Decodes, ofJson?_of_refForm .object] at h
      exact (ofJson?_of_refForm .array).trans h
  | member hpart ih => exact fun h => fits_object h (decodes_member hpart ih)
  | item hpart ih =>
      intro content h
      cases h with
      | operand h => exact .operand (decodes_item hpart ih h)
      | operands h =>
          refine .operands (forall₂_replace (fun h => ?_) h.flip).flip
          cases ih (.operand h) with
          | operand h => exact h

theorem Respells.decodes {json json' : Json} (h : Respells json json') {element : Element}
    (hdecodes : Decodes json element) : Decodes json' element := by
  cases h.fits (.operand hdecodes) with
  | operand h => exact h

/-- A value that is read as an element is read as this element however it is
respelled. -/
theorem decodes_of_respellings {json json' : Json}
    (h : Relation.ReflTransGen Respells json json') {element : Element}
    (hdecodes : Decodes json element) : Decodes json' element := by
  induction h with
  | refl => exact hdecodes
  | tail _ hstep ih => exact hstep.decodes ih

/-- The order of members matters to no value, accepted or refused. -/
theorem Reorders.ofJson?_eq {json json' : Json} (h : Reorders json json') :
    ofJson? json' = ofJson? json :=
  Option.ext fun _ => ⟨h.symm.respells.decodes, h.respells.decodes⟩

/-! ### Writing -/

def textToJson : Option String → Json
  | none => .null
  | some text => .string text

def numberToJson : Option Float → Json
  | none => .null
  | some value => .ofFloat value

mutual

/-- One way to write an element: all fields of a node are mentioned. -/
def toJson : Element → Json
  | .number value => .ofFloat value
  | .ref name => .object [("ref", .string name)]
  | .node ⟨kind, a, b, others, v, left, right, expr, ifNode, elseNode, source,
      target, nodes, args, callback, name, value⟩ =>
    .object (fieldNames.zip
      [textToJson kind, operandToJson a, operandToJson b, .array (operandsToJson others),
        operandToJson v, operandToJson left, operandToJson right, operandToJson expr,
        operandToJson ifNode, operandToJson elseNode, operandToJson source, textToJson target,
        .array (operandsToJson nodes), .array (operandsToJson args), textToJson callback,
        textToJson name, numberToJson value])

def operandToJson : Option Element → Json
  | none => .null
  | some element => toJson element

def operandsToJson : List Element → List Json
  | [] => []
  | element :: rest => toJson element :: operandsToJson rest

end

/-- The numbers in what a field holds are finite. -/
inductive FiniteContent (finite : Element → Prop) : Content Element → Prop
  | text {text} : FiniteContent finite (.text text)
  | operand {operand} :
      (∀ element ∈ operand, finite element) → FiniteContent finite (.operand operand)
  | operands {elements} :
      (∀ element ∈ elements, finite element) → FiniteContent finite (.operands elements)
  | number {number} :
      (∀ value ∈ number, value.isFinite = true) → FiniteContent finite (.number number)

/-- All numbers of the element are finite. JSON has no others. -/
inductive Finite : Element → Prop
  | number {value} : value.isFinite = true → Finite (.number value)
  | ref {name} : Finite (.ref name)
  | node {fields} :
      (∀ entry ∈ fields.entries, FiniteContent Finite entry.2) → Finite (.node fields)

theorem decodes_zip {items : List Json} {fields : Fields Element}
    (h : List.Forall₂ (fun entry json => Fits Decodes json entry.2) fields.entries items) :
    Decodes (.object (fieldNames.zip items)) (.node fields) := by
  have hlength : fieldNames.length = items.length := h.length_eq
  have href : ∀ name, ¬ RefForm (.object (fieldNames.zip items)) name := by
    intro name href
    have hone := congrArg List.length (refForm_object_iff.mp href)
    rw [List.length_zip, ← hlength] at hone
    cases hone
  have hitems := ofItems?_eq_some_iff.mpr (h.imp fun _ _ => read?_eq_some_iff.mpr)
  rw [ofItems?_eq, if_pos hlength] at hitems
  rw [Decodes, ofJson?_object href, repeatsField_zip, hitems]
  rfl

theorem fits_textToJson (text : Option String) : Fits Decodes (textToJson text) (.text text) := by
  cases text with
  | none => exact .noText
  | some text => exact .text

theorem fits_numberToJson {number : Option Float} (h : FiniteContent Finite (.number number)) :
    Fits Decodes (numberToJson number) (.number number) := by
  cases number with
  | none => exact .noNumber
  | some value =>
      cases h with
      | number h =>
          rw [numberToJson, Json.ofFloat, if_pos (h value rfl)]
          exact .number

mutual

theorem decodes_toJson : ∀ {element : Element}, element.Finite → Decodes element.toJson element
  | .number value, .number h => by
    rw [toJson, Json.ofFloat, if_pos h]
    exact ofJson?_eq_number_iff.mpr ⟨_, rfl, rfl⟩
  | .ref _, _ => ofJson?_of_refForm .object
  | .node ⟨kind, a, b, others, v, left, right, expr, ifNode, elseNode, source,
      target, nodes, args, callback, name, value⟩, .node h => by
    simp only [Fields.entries, List.forall_mem_cons] at h
    obtain ⟨-, ha, hb, hothers, hv, hleft, hright, hexpr, hif, helse, hsource, -, hnodes, hargs,
      -, -, hvalue, -⟩ := h
    refine decodes_zip ?_
    exact .cons (fits_textToJson kind) <| .cons (fits_operandToJson ha) <|
      .cons (fits_operandToJson hb) <| .cons (fits_operandsToJson hothers) <|
      .cons (fits_operandToJson hv) <| .cons (fits_operandToJson hleft) <|
      .cons (fits_operandToJson hright) <| .cons (fits_operandToJson hexpr) <|
      .cons (fits_operandToJson hif) <| .cons (fits_operandToJson helse) <|
      .cons (fits_operandToJson hsource) <| .cons (fits_textToJson target) <|
      .cons (fits_operandsToJson hnodes) <| .cons (fits_operandsToJson hargs) <|
      .cons (fits_textToJson callback) <| .cons (fits_textToJson name) <|
      .cons (fits_numberToJson hvalue) .nil

theorem fits_operandToJson : ∀ {operand : Option Element},
    FiniteContent Finite (.operand operand) → Fits Decodes (operandToJson operand) (.operand operand)
  | none, _ => .noOperand
  | some element, .operand h => .operand (decodes_toJson (h element rfl))

theorem fits_operandsToJson : ∀ {elements : List Element},
    FiniteContent Finite (.operands elements) →
      Fits Decodes (.array (operandsToJson elements)) (.operands elements)
  | elements, .operands h => .operands (forall₂_operandsToJson h)

theorem forall₂_operandsToJson : ∀ {elements : List Element},
    (∀ element ∈ elements, element.Finite) →
      List.Forall₂ Decodes (operandsToJson elements) elements
  | [], _ => .nil
  | element :: rest, h =>
    .cons (decodes_toJson (h element (by simp)))
      (forall₂_operandsToJson fun other hother => h other (by simp [hother]))

end

/-- All spellings of one element mean the same. A value that is read as an
element is read as this element however it is respelled, and the order of
members decides neither what a value is read as nor whether it is refused. What
an element with finite numbers is written as, in any spelling, is read as this
element. -/
theorem spellings_agree :
    (∀ (json json' : Json) (element : Element), ofJson? json = some element →
      Relation.ReflTransGen Respells json json' → ofJson? json' = some element) ∧
    (∀ json json' : Json, Relation.ReflTransGen Reorders json json' →
      ofJson? json' = ofJson? json) ∧
    ∀ element : Element, element.Finite → ∀ json : Json,
      Relation.ReflTransGen Respells element.toJson json → ofJson? json = some element := by
  refine ⟨fun _ _ _ hdecodes h => decodes_of_respellings h hdecodes, fun json json' h => ?_,
    fun _ hfinite _ h => decodes_of_respellings h (decodes_toJson hfinite)⟩
  induction h with
  | refl => rfl
  | tail _ hstep ih => exact hstep.ofJson?_eq.trans ih

/-- A node with a remark before everything else, its members in another order
and the reference in it as an array. -/
theorem spellings_agree_remark :
    ofJson? (.object [("remark", .bool true), ("v", .array [.string "x"]),
      ("kind", .string "floor")]) =
      some (.node { kind := some "floor", v := some (.ref "x") }) := by
  have hread :
      ofJson? (.object [("kind", .string "floor"), ("v", .object [("ref", .string "x")])]) =
        some (.node { kind := some "floor", v := some (.ref "x") }) := rfl
  refine spellings_agree.1 _ _ _ hread ?_
  have hitem := @Respells.member [] "v" _ _ [("kind", .string "floor")] (@Respells.refItem "x")
  refine .head (.permute (.swap _ _ _)) (.head hitem (.single ?_))
  exact .add rfl (.unknown (by decide) (by decide))

end Element

end Animation
