import Animation.Json.Outline
import Animation.Proofs.Element.Grammar
import Animation.Proofs.Element.Places

/-!
How deep containers are nested. An outline has a value only if no more of them
are inside each other than it may have, and every node of an element is a
container in JSON, so an element is no deeper than the value it is decoded
from. It can be less deep: lists of operands are containers too, and a node
keeps what its kind does not use.
-/

namespace Animation

namespace Json

mutual

/-- The largest number of containers that are inside each other. -/
def nesting : Json → Nat
  | .array items => nestingOfItems items + 1
  | .object members => nestingOfMembers members + 1
  | _ => 0

def nestingOfItems : List Json → Nat
  | [] => 0
  | item :: rest => max (nesting item) (nestingOfItems rest)

def nestingOfMembers : List (String × Json) → Nat
  | [] => 0
  | (_, value) :: rest => max (nesting value) (nestingOfMembers rest)

end

theorem nestingOfMembers_eq (members : List (String × Json)) :
    nestingOfMembers members = nestingOfItems (members.map Prod.snd) := by
  induction members with
  | nil => rfl
  | cons member rest ih => rw [nestingOfMembers, ih, List.map_cons, nestingOfItems]

theorem nesting_le_of_mem {item : Json} {items : List Json} (h : item ∈ items) :
    item.nesting ≤ nestingOfItems items := by
  induction items with
  | nil => cases h
  | cons first rest ih =>
      rcases List.mem_cons.mp h with rfl | hrest
      · exact Nat.le_max_left _ _
      · exact (ih hrest).trans (Nat.le_max_right _ _)

theorem nesting_item_lt {item : Json} {items : List Json} (h : item ∈ items) :
    item.nesting < (Json.array items).nesting :=
  Nat.lt_succ_of_le (nesting_le_of_mem h)

theorem nesting_value_lt {name : String} {value : Json} {members : List (String × Json)}
    (h : (name, value) ∈ members) : value.nesting < (Json.object members).nesting := by
  rw [nesting, nestingOfMembers_eq]
  exact Nat.lt_succ_of_le (nesting_le_of_mem (List.mem_map_of_mem h))

end Json

namespace Outline

mutual

/-- The reader keeps its limit. -/
theorem nesting_le_of_value? : ∀ {depth : Nat} {outline : Outline} {json : Json},
    outline.value? depth = some json → json.nesting ≤ depth
  | depth, .null, json, h => by
    cases h
    exact Nat.zero_le depth
  | _, .bool _, _, h => by
    cases h
    exact Nat.zero_le _
  | depth, .number numeral, json, h => by
    obtain ⟨value, -, rfl⟩ := Option.map_eq_some_iff.mp h
    exact Nat.zero_le depth
  | depth, .string text, json, h => by
    obtain ⟨value, -, rfl⟩ := Option.map_eq_some_iff.mp h
    exact Nat.zero_le depth
  | 0, .array _, _, h => by simp [value?] at h
  | depth + 1, .array items, json, h => by
    rw [value?] at h
    obtain ⟨values, hvalues, rfl⟩ := Option.map_eq_some_iff.mp h
    exact Nat.succ_le_succ (nesting_le_of_values? hvalues)
  | 0, .object _, _, h => by simp [value?] at h
  | depth + 1, .object members, json, h => by
    rw [value?] at h
    obtain ⟨values, hvalues, rfl⟩ := Option.map_eq_some_iff.mp h
    exact Nat.succ_le_succ (nesting_le_of_memberValues? hvalues)

theorem nesting_le_of_values? : ∀ {depth : Nat} {outlines : List Outline} {items : List Json},
    values? depth outlines = some items → Json.nestingOfItems items ≤ depth
  | depth, [], items, h => by
    cases h
    exact Nat.zero_le depth
  | depth, outline :: rest, items, h => by
    simp only [values?, Option.bind_eq_bind, Option.bind_eq_some_iff, Option.pure_def,
      Option.some.injEq] at h
    obtain ⟨first, hfirst, others, hothers, rfl⟩ := h
    exact Nat.max_le.mpr ⟨nesting_le_of_value? hfirst, nesting_le_of_values? hothers⟩

theorem nesting_le_of_memberValues? : ∀ {depth : Nat} {outlines : List (Option String × Outline)}
    {members : List (String × Json)},
    memberValues? depth outlines = some members → Json.nestingOfMembers members ≤ depth
  | depth, [], members, h => by
    cases h
    exact Nat.zero_le depth
  | depth, (name, outline) :: rest, members, h => by
    simp only [memberValues?, Option.bind_eq_bind, Option.bind_eq_some_iff, Option.pure_def,
      Option.some.injEq] at h
    obtain ⟨name, -, first, hfirst, others, hothers, rfl⟩ := h
    exact Nat.max_le.mpr ⟨nesting_le_of_value? hfirst, nesting_le_of_memberValues? hothers⟩

end

end Outline

/-! ### Elements -/

/-- The elements that a field holds. -/
def Content.elements {α : Type} : Content α → List α
  | .operand slot => slot.toList
  | .operands listed => listed
  | .text _ | .number _ => []

@[simp] theorem Content.elements_blank {α : Type} (type : FieldType) :
    (blank type : Content α).elements = [] := by
  cases type <;> rfl

/-- Whatever a kind has a place for is kept in one of the fields. -/
theorem Fields.exists_entry_of_filled {α : Type} {fields : Fields α} {kind : Kind} {operand : α}
    (h : .filled operand ∈ fields.places kind) :
    ∃ entry ∈ fields.entries, operand ∈ entry.2.elements := by
  cases kind with
  | binary op =>
      simp only [places, List.mem_cons, Place.filled_eq_required, Place.filled_mem_map] at h
      rcases h with h | h | h <;> simp [entries, Content.elements, h]
  | unary op =>
      simp only [places, List.mem_singleton, Place.filled_eq_required] at h
      simp [entries, Content.elements, h]
  | compare op =>
      simp only [places, List.mem_cons, Place.filled_eq_required, List.not_mem_nil, or_false] at h
      rcases h with h | h <;> simp [entries, Content.elements, h]
  | cond =>
      simp only [places, List.mem_cons, Place.filled_eq_required, Place.filled_mem_optional] at h
      rcases h with h | h | h <;> simp [entries, Content.elements, h]
  | set =>
      simp only [places, List.mem_singleton, Place.filled_eq_required] at h
      simp [entries, Content.elements, h]
  | block | call =>
      simp only [places, Place.filled_mem_map] at h
      simp [entries, Content.elements, h]
  | value | number => simp [places] at h

namespace Element

section

variable {α : Type} {spells : Json → α → Prop} {json : Json} {element : α}

theorem exists_item_of_forall₂ {items : List Json} {elements : List α}
    (h : List.Forall₂ spells items elements) (helement : element ∈ elements) :
    ∃ item ∈ items, spells item element := by
  induction h with
  | nil => cases helement
  | @cons item first items rest hitem _ ih =>
      rcases List.mem_cons.mp helement with rfl | hrest
      · exact ⟨item, List.mem_cons_self, hitem⟩
      · obtain ⟨item, hmember, hspells⟩ := ih hrest
        exact ⟨item, List.mem_cons_of_mem _ hmember, hspells⟩

/-- An element that a field holds was given as the value itself or as one of
its items. -/
theorem Fits.exists_part {content : Content α} (h : Fits spells json content)
    (helement : element ∈ content.elements) :
    ∃ part, part.nesting ≤ json.nesting ∧ spells part element := by
  cases h with
  | noText | text | noOperand | noNumber | number => simp [Content.elements] at helement
  | operand hspells =>
      obtain rfl := List.mem_singleton.mp helement
      exact ⟨json, Nat.le_refl _, hspells⟩
  | operands hitems =>
      obtain ⟨item, hitem, hspells⟩ := exists_item_of_forall₂ hitems helement
      exact ⟨item, Nat.le_of_lt (Json.nesting_item_lt hitem), hspells⟩

/-- A node is a container around everything that its fields hold. -/
theorem SpellsNode.exists_part {fields : Fields α} {entry : String × Content α}
    (h : SpellsNode spells json fields) (hentry : entry ∈ fields.entries)
    (helement : element ∈ entry.2.elements) :
    ∃ part, part.nesting < json.nesting ∧ spells part element := by
  cases h with
  | @object members _ _ hgives =>
      obtain ⟨-, hblank, hpresent⟩ := gives_iff.mp (hgives entry hentry)
      cases hvalues : Json.valuesOf entry.1 members with
      | nil =>
          rw [hblank hvalues, Content.elements_blank] at helement
          cases helement
      | cons value later =>
          have hvalue : value ∈ Json.valuesOf entry.1 members := by simp [hvalues]
          obtain ⟨part, hle, hspells⟩ := (hpresent value hvalue).exists_part helement
          exact ⟨part, hle.trans_lt (Json.nesting_value_lt (Json.mem_valuesOf.mp hvalue)), hspells⟩
  | array hitems =>
      obtain ⟨item, hitem, hfits⟩ := exists_item_of_forall₂ hitems.flip hentry
      obtain ⟨part, hle, hspells⟩ := hfits.exists_part helement
      exact ⟨part, hle.trans_lt (Json.nesting_item_lt hitem), hspells⟩

theorem SpellsNode.nesting_pos {fields : Fields α} (h : SpellsNode spells json fields) :
    0 < json.nesting := by
  cases h <;> exact Nat.succ_pos _

end

/-- Nodes are nested no deeper than the containers of the value that they are
read from. -/
theorem nesting_le_of_spells {json : Json} {element : Element} (h : Spells json element) :
    Tree.nesting element ≤ json.nesting := by
  induction element using Tree.operand_induction generalizing json with
  | step element ih =>
      cases h with
      | number | ref => exact (Tree.nesting_leaf rfl rfl).trans_le (Nat.zero_le _)
      | @node _ fields hnode =>
          have hpos := hnode.nesting_pos
          suffices hle : Tree.nesting (.node fields : Element) ≤ (json.nesting - 1) + 1 by omega
          rw [Tree.nesting_node_le rfl]
          intro operand hoperand
          have hplace := Tree.mem_operands.mp hoperand
          cases hkind : fields.kind? with
          | none =>
              rw [Tree.places_of_no_kind hkind] at hplace
              cases hplace
          | some kind =>
              rw [mem_operands_node hkind] at hoperand
              obtain ⟨entry, hentry, helement⟩ := Fields.exists_entry_of_filled hoperand
              obtain ⟨part, hless, hspells⟩ := hnode.exists_part hentry helement
              have := ih operand (Tree.mem_operands.mpr hplace) hspells
              omega

end Element

end Animation
