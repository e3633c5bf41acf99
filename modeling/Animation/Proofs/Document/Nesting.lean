import Animation.Proofs.Document.Acceptance
import Animation.Proofs.Document.Reading
import Animation.Proofs.Element.Respelling

/-!
Two limits on depth. The reader counts containers of a text, the compiler
counts nodes of the root; a document is one container more than its root, and
a container more is needed wherever operands are listed. So the reader gives
up first unless the compiler is told to be stricter.
-/

namespace Animation

namespace Document

/-! ### What the reader lets through -/

/-- The document itself is a container around its root. -/
theorem nesting_root_lt {json : Json} {document : Document} (h : ofJson? json = some document) :
    Tree.nesting document.root < json.nesting := by
  have hle : ∀ {part : Json}, Element.ofJson? part = some document.root →
      Tree.nesting document.root ≤ part.nesting := fun hpart =>
    Element.nesting_le_of_spells ((Element.decodes_iff_spells _ _).mp hpart)
  cases json with
  | object members =>
      rw [ofJson?_object] at h
      simp only [Option.bind_eq_bind, Option.bind_eq_some_iff, Option.pure_def,
        Option.some.injEq] at h
      obtain ⟨values, -, limits, -, root, hroot, rfl⟩ := h
      obtain ⟨part, hpart, hdecode⟩ := Json.exists_of_member? hroot
      exact (hle hdecode).trans_lt (Json.nesting_value_lt hpart)
  | array items =>
      unfold ofJson? at h
      split at h
      · next hobject => cases hobject
      · next hitems =>
          cases hitems
          simp only [Option.bind_eq_bind, Option.bind_eq_some_iff, Option.pure_def,
            Option.some.injEq] at h
          obtain ⟨values, -, limits, -, root, hroot, rfl⟩ := h
          exact (hle hroot).trans_lt (Json.nesting_item_lt (by simp))
      · cases h
  | null | bool value | number value | string value => cases h

/-- At most 127 containers are read, so at most 126 nodes are inside each
other in the root. -/
theorem nesting_root_le {text : String} {document : Document} (h : ofText? text = some document) :
    Tree.nesting document.root ≤ 126 := by
  simp only [ofText?, Option.bind_eq_bind, Option.bind_eq_some_iff] at h
  obtain ⟨outline, -, json, hjson, hdocument⟩ := h
  have hread : json.nesting ≤ 127 := Outline.nesting_le_of_value? hjson
  have hroot := nesting_root_lt hdocument
  omega

/-- So a limit of 126 is never reached. -/
theorem not_refusable_tooDeep {text : String} {document : Document}
    (h : ofText? text = some document) (hlimit : 126 ≤ document.limits.maxDepth) (world : World)
    (limit : UInt64) : ¬ document.Refusable world (.tooDeep limit) := by
  have hroot := nesting_root_le h
  rw [UInt64.le_iff_toNat_le] at hlimit
  intro hrefusable
  cases hrefusable with
  | flawed hflawed =>
      obtain ⟨_, _, hfaulty⟩ := hflawed
      cases hfaulty
  | tooDeep _ hdeep =>
      have hdeep := hlimit.trans_lt hdeep
      have h126 : (126 : UInt64).toNat = 126 := rfl
      omega

/-! ### What a stricter compiler refuses -/

/-- A node without operands inside so many others. -/
def nested : Nat → Element
  | 0 => .node { kind := some "block" }
  | n + 1 => .node { kind := some "abs", v := some (nested n) }

def nestedJson : Nat → Json
  | 0 => .object [("kind", .string "block")]
  | n + 1 => .object [("kind", .string "abs"), ("v", nestedJson n)]

theorem ofJson?_nestedJson (n : Nat) : Element.ofJson? (nestedJson n) = some (nested n) := by
  induction n with
  | zero => rfl
  | succ n ih =>
      have hform : ∀ name, ¬ Element.RefForm (nestedJson (n + 1)) name := by
        intro name hform
        have hmembers := Element.refForm_object_iff.mp hform
        simp at hmembers
      have hrepeats : Element.repeatsField [("kind", .string "abs"), ("v", nestedJson n)] = false :=
        rfl
      have hkind : Element.optional? Element.text? (.string "abs") = some (some "abs") := rfl
      have hoperand : Element.optional? (fun _ => some (nested n)) (nestedJson n) =
          some (some (nested n)) := by
        cases n <;> rfl
      rw [nestedJson, Element.ofJson?_object hform, hrepeats]
      simp [Element.ofMembers?, Element.setField?, ih, hkind, hoperand, nested]

theorem operands_nested_zero : Tree.operands (nested 0) = [] := rfl

theorem operands_nested (n : Nat) : Tree.operands (nested (n + 1)) = [nested n] := rfl

theorem nesting_nested (n : Nat) : Tree.nesting (nested n) = n + 1 := by
  induction n with
  | zero =>
      rw [Tree.nesting_eq, operands_nested_zero]
      rfl
  | succ n ih =>
      rw [Tree.nesting_eq, operands_nested, List.map_singleton, ih]
      rfl

theorem nesting_nestedJson (n : Nat) : (nestedJson n).nesting = n + 1 := by
  induction n with
  | zero => rfl
  | succ n ih => simp [nestedJson, Json.nesting, Json.nestingOfMembers, ih]

theorem exact_nestedJson (n : Nat) : (nestedJson n).Exact := by
  induction n with
  | zero => simp [nestedJson, Json.Exact, Json.ExactMembers]
  | succ n ih => simp [nestedJson, Json.Exact, Json.ExactMembers, ih]

theorem eq_nested_of_contains {n : Nat} {part : Element} (h : Tree.Contains (nested n) part) :
    ∃ k, part = nested k := by
  induction n with
  | zero =>
      rcases Tree.contains_iff.mp h with rfl | ⟨operand, hoperand, -⟩
      · exact ⟨0, rfl⟩
      · cases hoperand
  | succ n ih =>
      rcases Tree.contains_iff.mp h with rfl | ⟨operand, hoperand, hrest⟩
      · exact ⟨n + 1, rfl⟩
      · rw [operands_nested, List.mem_singleton] at hoperand
        exact ih (hoperand ▸ hrest)

theorem kind?_nested {n : Nat} {fields : Fields Element} (h : nested n = .node fields) :
    fields.kind? = some .block ∨ fields.kind? = some (.unary .abs) := by
  cases n with
  | zero =>
      cases h
      exact Or.inl rfl
  | succ n =>
      cases h
      exact Or.inr rfl

theorem not_faulty_nested {n : Nat} {bound hosted : String → Prop} {fault : Fault} :
    ¬ (nested n).Faulty bound hosted fault := by
  intro hfaulty
  generalize hnode : nested n = element at hfaulty
  cases hfaulty with
  | unbound _ => cases n <;> cases hnode
  | noKind hnone =>
      have hkind := kind?_nested hnode
      simp [Fields.kind?, hnone] at hkind
  | unknownKind htag hnone =>
      have hkind := kind?_nested hnode
      simp [Fields.kind?, htag, hnone] at hkind
  | noCell hkind hname _ =>
      rcases kind?_nested hnode with hnested | hnested
      all_goals
        cases hkind.symm.trans hnested
        cases hname
  | noCallback hkind hname _ =>
      rcases kind?_nested hnode with hnested | hnested
      all_goals
        cases hkind.symm.trans hnested
        cases hname
  | noNumber hkind _ =>
      rcases kind?_nested hnode with hnested | hnested <;> cases hkind.symm.trans hnested

theorem not_missing_nested {n : Nat} {field : Field} :
    .missing field ∉ Tree.places (nested n) := by
  intro hmissing
  cases n with
  | zero => cases hmissing
  | succ n =>
      have hplaces : Tree.places (nested (n + 1)) = [.filled (nested n)] := rfl
      rw [hplaces] at hmissing
      cases hmissing with
      | tail _ hrest => cases hrest

/-- Every operand is there and nothing has a name, so only its depth can be
held against it. -/
theorem refusable_nested {n : Nat} {limits : Limits} {world : World} {fault : Fault}
    (h : Refusable { limits, root := nested n } world fault) :
    fault = .tooDeep limits.maxDepth := by
  cases h with
  | flawed hflawed =>
      obtain ⟨part, hpart, hfaulty⟩ := hflawed
      obtain ⟨k, rfl⟩ := eq_nested_of_contains hpart
      exact absurd hfaulty not_faulty_nested
  | lacking _ hlacks =>
      obtain ⟨part, hpart, -, hmissing⟩ := hlacks
      obtain ⟨k, rfl⟩ := eq_nested_of_contains hpart
      exact absurd hmissing not_missing_nested
  | tooDeep => rfl

theorem compile_nested {n : Nat} {limits : Limits} (h : limits.maxDepth.toNat ≤ n) (world : World) :
    (Document.compile { limits, root := nested n } world).1 =
      .error (.tooDeep limits.maxDepth) := by
  cases hresult : (Document.compile { limits, root := nested n } world).1 with
  | ok program =>
      have hshallow : Tree.nesting (nested n) ≤ limits.maxDepth.toNat :=
        (acceptable_of_compile hresult).shallow
      rw [nesting_nested] at hshallow
      omega
  | error fault => rw [refusable_nested (refusable_of_compile hresult)]

/-- The default limit, and any other of 126 or more, is never what a document
that was read is refused for, whatever the host has bound. Each smaller limit
is what some document is refused for. -/
theorem too_deep_below_126 :
    126 ≤ ({} : Limits).maxDepth ∧
    (∀ text document, ofText? text = some document → 126 ≤ document.limits.maxDepth →
      ∀ world limit, (document.compile world).1 ≠ .error (.tooDeep limit)) ∧
    ∀ limit : UInt64, limit < 126 →
      ∃ text document, ofText? text = some document ∧ document.limits.maxDepth = limit ∧
        ∀ world, (document.compile world).1 = .error (.tooDeep limit) := by
  refine ⟨by decide, ?_, ?_⟩
  · intro text document htext hlimit world limit hcompile
    exact not_refusable_tooDeep htext hlimit world limit (refusable_of_compile hcompile)
  · intro limit hlimit
    have hnesting : (nestedJson limit.toNat).nesting ≤ 126 := by
      rw [nesting_nestedJson]
      exact UInt64.lt_iff_toNat_lt.mp hlimit
    obtain ⟨text, htext⟩ := exists_text { maxDepth := limit } (exact_nestedJson limit.toNat)
      (ofJson?_nestedJson limit.toNat) hnesting
    exact ⟨text, _, htext, rfl, compile_nested (Nat.le_refl _)⟩

end Document

end Animation
