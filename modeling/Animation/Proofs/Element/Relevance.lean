import Animation.Proofs.Element.Writing

/-!
What resolving depends on, and what it ends with. Of an element only the kinds
of its nodes and the fields that these kinds use have a part in the outcome,
and of the names only those that occur in such fields; so names that are bound
in addition change nothing. If something is wrong, the fault is the first on a
tour of the element: the kind of a node when it is entered, and the names and
the number of a node when everything in its places has been met.
-/

namespace Animation

namespace Names

/-- The fault of looking up a cell by this name, if nothing has this name. -/
def unbound? (names : Names) (name : String) : Option Fault :=
  if names.values.contains name then none else some (.unknownValue name)

/-- The fault of looking up a callback by this name. -/
def unhosted? (names : Names) (name : String) : Option Fault :=
  if names.callbacks.contains name then none else some (.unknownCallback name)

theorem fault?_value (names : Names) (name : String) :
    Walk.fault? (names.value name) = names.unbound? name := by
  rw [unbound?, value, Std.TreeMap.contains_eq_isSome_getElem?]
  cases names.values[name]? <;> rfl

theorem fault?_callback (names : Names) (name : String) :
    Walk.fault? (names.callback name) = names.unhosted? name := by
  rw [unhosted?, callback, Std.TreeMap.contains_eq_isSome_getElem?]
  cases names.callbacks[name]? <;> rfl

end Names

namespace Element

/-- The cell that a part of an element names by itself. -/
def valueName? : Element → Option String
  | .number _ => none
  | .ref name => some name
  | .node fields => fields.kind?.bind fields.valueName?

/-- The callback that a part of an element names by itself. -/
def callbackName? : Element → Option String
  | .node fields => fields.kind?.bind fields.callbackName?
  | _ => none

/-- Some part of the element names a cell by this name. Fields that are not used
hold no parts. -/
def NamesValue (element : Element) (name : String) : Prop :=
  ∃ part, Tree.Contains element part ∧ part.valueName? = some name

def NamesCallback (element : Element) (name : String) : Prop :=
  ∃ part, Tree.Contains element part ∧ part.callbackName? = some name

/-- What is wrong with the tag of a node. -/
def tagFault? : Option String → Option Fault
  | none => some .missingKind
  | some tag => if (Kind.ofTag? tag).isNone then some (.unknownKind tag) else none

/-- What is wrong with a node of this kind besides its operands. -/
def linkFault? (names : Names) (fields : Fields Element) (kind : Kind) : Option Fault :=
  ((fields.valueName? kind).bind names.unbound?).or <|
    ((fields.callbackName? kind).bind names.unhosted?).or <|
      if kind = .number ∧ fields.value.isNone then some (.missingOperand .number .value) else none

/-- What is wrong where a tour is, if something is. A missing operand is not a
fault of an element. -/
def faultAt? (names : Names) : Tree.Visit Element → Option Fault
  | .enter _ (.number _) | .leave (.number _) | .leave (.ref _) | .missing _ _ => none
  | .enter _ (.ref name) => names.unbound? name
  | .enter _ (.node fields) => tagFault? fields.kind
  | .leave (.node fields) => fields.kind?.bind (linkFault? names fields)

variable {names other : Names}

/-! ### Fields that are not used -/

mutual

theorem resolve_erase : ∀ element : Element, element.erase.resolve names = element.resolve names
  | .number _ => rfl
  | .ref _ => rfl
  | .node ⟨none, _, _, _, _, _, _, _, _, _, _, _, _, _, _, _, _⟩ => by
    simp only [erase, resolve]
  | .node ⟨some tag, a, b, others, v, left, right, expr, ifNode, elseNode, source,
      target, nodes, args, callback, name, value⟩ => by
    rw [erase]
    cases hkind : Kind.ofTag? tag with
    | none => simp only [resolve, hkind]
    | some kind =>
        cases kind with
        | binary op =>
            simp only [resolve, hkind, resolve?_erase a, resolve?_erase b, resolveAll_erase others]
        | unary op => simp only [resolve, hkind, resolve?_erase v]
        | compare op => simp only [resolve, hkind, resolve?_erase left, resolve?_erase right]
        | cond =>
            simp only [resolve, hkind, resolve?_erase expr, resolve?_erase ifNode,
              resolve?_erase elseNode]
        | set => simp only [resolve, hkind, resolve?_erase source]
        | block => simp only [resolve, hkind, resolveAll_erase nodes]
        | call => simp only [resolve, hkind, resolveAll_erase args]
        | value | number => simp only [resolve, hkind]

theorem resolve?_erase : ∀ slot : Option Element, resolve? names (erase? slot) = resolve? names slot
  | none => rfl
  | some element => by rw [erase?, resolve?, resolve?, resolve_erase element]

theorem resolveAll_erase : ∀ elements : List Element,
    resolveAll names (eraseAll elements) = resolveAll names elements
  | [] => rfl
  | element :: rest => by
    rw [eraseAll, resolveAll, resolveAll, resolve_erase element, resolveAll_erase rest]

end

/-! ### Names that do not occur -/

theorem link_congr {fields : Fields Element} {kind : Kind}
    (hvalue : ∀ name, fields.valueName? kind = some name → other.value name = names.value name)
    (hcallback : ∀ name, fields.callbackName? kind = some name →
      other.callback name = names.callback name) :
    link other fields kind = link names fields kind := by
  have hcell : valueOf? other (fields.valueName? kind) =
      valueOf? names (fields.valueName? kind) := by
    cases hname : fields.valueName? kind with
    | none => rfl
    | some name => simp only [valueOf?, hvalue name hname]
  have hhost : callbackOf? other (fields.callbackName? kind) =
      callbackOf? names (fields.callbackName? kind) := by
    cases hname : fields.callbackName? kind with
    | none => rfl
    | some name => simp only [callbackOf?, hcallback name hname]
  simp only [link, hcell, hhost]

/-- Tables that agree on the names that occur in an element resolve it alike. -/
theorem resolve_congr {element : Element}
    (hvalue : ∀ name, element.NamesValue name → other.value name = names.value name)
    (hcallback : ∀ name, element.NamesCallback name → other.callback name = names.callback name) :
    element.resolve other = element.resolve names := by
  induction element using Tree.operand_induction with
  | step element ih =>
      cases element with
      | number value => rfl
      | ref name =>
          have hname : (Element.ref name).NamesValue name := ⟨_, .refl, rfl⟩
          rw [resolve_ref, resolve_ref, hvalue name hname]
      | node fields =>
          cases hkind : fields.kind? with
          | none =>
              obtain ⟨fault, hfault⟩ := resolve_no_kind hkind
              rw [(hfault names).1, (hfault other).1]
          | some kind =>
              have hlink : link other fields kind = link names fields kind := by
                apply link_congr
                · intro name hname
                  exact hvalue name ⟨_, .refl, by simp [valueName?, hkind, hname]⟩
                · intro name hname
                  exact hcallback name ⟨_, .refl, by simp [callbackName?, hkind, hname]⟩
              have hwalk : (fields.places kind).mapM (fill other) =
                  (fields.places kind).mapM (fill names) := by
                apply Walk.mapM_congr
                intro place hplace
                cases place with
                | missing field => rfl
                | filled operand =>
                    have hoperand := (mem_operands_node hkind).mpr hplace
                    rw [fill, fill, ih operand hoperand]
                    · rintro name ⟨part, hpart, hname⟩
                      exact hvalue name ⟨part, .head hoperand hpart, hname⟩
                    · rintro name ⟨part, hpart, hname⟩
                      exact hcallback name ⟨part, .head hoperand hpart, hname⟩
              rw [resolve_node hkind, resolve_node hkind, hlink, hwalk]

/-! ### The first fault -/

theorem fault?_valueOf? (names : Names) (slot : Option String) :
    Walk.fault? (valueOf? names slot) = slot.bind names.unbound? := by
  cases slot with
  | none => rfl
  | some name => exact (Walk.fault?_map _ _).trans (names.fault?_value name)

theorem fault?_callbackOf? (names : Names) (slot : Option String) :
    Walk.fault? (callbackOf? names slot) = slot.bind names.unhosted? := by
  cases slot with
  | none => rfl
  | some name => exact (Walk.fault?_map _ _).trans (names.fault?_callback name)

theorem fault?_literalOf (kind : Kind) (value : Option Float) :
    Walk.fault? (literalOf kind value) =
      if kind = .number ∧ value.isNone then some (.missingOperand .number .value) else none := by
  cases value with
  | none => cases kind <;> rfl
  | some literal => cases kind <;> rfl

theorem fault?_link (names : Names) (fields : Fields Element) (kind : Kind) :
    Walk.fault? (link names fields kind) = linkFault? names fields kind := by
  rw [linkFault?, ← fault?_valueOf?, ← fault?_callbackOf?, ← fault?_literalOf, link]
  cases valueOf? names (fields.valueName? kind) with
  | error fault => rfl
  | ok cell =>
      cases callbackOf? names (fields.callbackName? kind) with
      | error fault => rfl
      | ok host => cases literalOf kind fields.value <;> rfl

theorem fault?_resolve_no_kind {fields : Fields Element} (h : fields.kind? = none)
    (names : Names) : Walk.fault? (resolve names (.node fields)) = tagFault? fields.kind := by
  rcases fields with ⟨tag, a, b, others, v, left, right, expr, ifNode, elseNode, source, target,
    nodes, args, callback, name, value⟩
  cases tag with
  | none =>
      rw [resolve]
      rfl
  | some tag =>
      have htag : Kind.ofTag? tag = none := h
      simp only [resolve, tagFault?, htag]
      rfl

theorem tagFault?_eq_none {fields : Fields Element} {kind : Kind} (h : fields.kind? = some kind) :
    tagFault? fields.kind = none := by
  obtain ⟨tag, hkind, htag⟩ := Option.bind_eq_some_iff.mp h
  simp [hkind, tagFault?, htag]

/-- The first fault on the tour is the one that resolving ends with. -/
theorem fault?_resolve (names : Names) (element : Element) (level : Nat) :
    Walk.fault? (element.resolve names) =
      (Tree.tour level element).findSome? (faultAt? names) := by
  induction element using Tree.operand_induction generalizing level with
  | step element ih =>
      rw [Tree.tour_eq]
      simp only [List.cons_append, List.findSome?_cons, List.findSome?_append,
        Walk.findSome?_flatMap, List.findSome?_nil]
      cases element with
      | number value => rfl
      | ref name =>
          rw [resolve_ref, Walk.fault?_map, Names.fault?_value]
          simp only [faultAt?]
          cases names.unbound? name <;> rfl
      | node fields =>
          cases hkind : fields.kind? with
          | none =>
              have hplaces : Tree.places (Element.node fields) = [] := Tree.places_of_no_kind hkind
              simp only [fault?_resolve_no_kind hkind, hplaces, faultAt?, hkind]
              cases tagFault? fields.kind <;> rfl
          | some kind =>
              have hplaces : Tree.places (Element.node fields) = fields.places kind :=
                places_node hkind
              have hwalk : (fields.places kind).findSome? (fun place =>
                    Walk.fault? (fill names place)) =
                  (fields.places kind).findSome? fun place =>
                    (Tree.Visit.ofPlace (.node fields) (Tree.tour (level + 1)) place).findSome?
                      (faultAt? names) := by
                apply Walk.findSome?_congr
                intro place hplace
                cases place with
                | missing field => rfl
                | filled operand =>
                    have hoperand := (mem_operands_node hkind).mpr hplace
                    exact (Walk.fault?_map _ _).trans (ih operand hoperand _)
              rw [resolve_node hkind, Walk.fault?_bind_map, Walk.fault?_mapM, fault?_link, hwalk,
                hplaces]
              simp only [faultAt?, hkind, tagFault?_eq_none hkind, Option.bind_some]
              cases linkFault? names fields kind <;> rfl

/-! ### More names -/

/-- An element that resolves names no cell in vain. -/
theorem binds_of_resolve {element : Element} {expression : Expression}
    (h : element.resolve names = .ok expression) {name : String} (hname : element.NamesValue name) :
    names.Binds name := by
  obtain ⟨part, hpart, hname⟩ := hname
  have hsound := not_faulty_of_resolve h hpart (.unknownValue name)
  apply Classical.byContradiction
  intro hunbound
  cases part with
  | number value => cases hname
  | ref other =>
      cases Option.some.inj hname
      exact hsound (.unbound hunbound)
  | node fields =>
      obtain ⟨kind, hkind, hvalue⟩ := Option.bind_eq_some_iff.mp hname
      exact hsound (.noCell hkind hvalue hunbound)

theorem hosts_of_resolve {element : Element} {expression : Expression}
    (h : element.resolve names = .ok expression) {name : String}
    (hname : element.NamesCallback name) : names.Hosts name := by
  obtain ⟨part, hpart, hname⟩ := hname
  have hsound := not_faulty_of_resolve h hpart (.unknownCallback name)
  apply Classical.byContradiction
  intro hunbound
  cases part with
  | number _ | ref _ => cases hname
  | node fields =>
      obtain ⟨kind, hkind, hcallback⟩ := Option.bind_eq_some_iff.mp hname
      exact hsound (.noCallback hkind hcallback hunbound)

/-- What resolving an element comes to depends on the kinds of its nodes, the
fields that these kinds use and the names in them, whatever else the element
carries and whatever other names stand for. So an element that resolves does so
alike when more names are bound. An element that does not resolve is refused
for what is the first fault on a tour of it. -/
theorem resolve_by_relevance (element : Element) (names : Names) :
    (∀ (twin : Element) (other : Names),
        twin.erase = element.erase →
        (∀ name, element.NamesValue name → other.value name = names.value name) →
        (∀ name, element.NamesCallback name → other.callback name = names.callback name) →
        twin.resolve other = element.resolve names) ∧
      (∀ (expression : Expression) (other : Names),
        element.resolve names = .ok expression →
        (∀ name cell, names.value name = .ok cell → other.value name = .ok cell) →
        (∀ name host, names.callback name = .ok host → other.callback name = .ok host) →
        element.resolve other = .ok expression) ∧
      ∀ fault, element.resolve names = .error fault ↔
        (Tree.tour 1 element).findSome? (faultAt? names) = some fault := by
  refine ⟨?_, ?_, ?_⟩
  · intro twin other htwin hvalue hcallback
    rw [← resolve_erase twin, htwin, resolve_erase, resolve_congr hvalue hcallback]
  · intro expression other hresolve hvalue hcallback
    rw [← hresolve]
    apply resolve_congr
    · intro name hname
      obtain ⟨cell, hcell⟩ := Names.binds_iff.mp (binds_of_resolve hresolve hname)
      rw [hcell, hvalue name cell hcell]
    · intro name hname
      cases hhost : names.callback name with
      | ok host => exact hcallback name host hhost
      | error fault =>
          exact absurd (hosts_of_resolve hresolve hname) (Names.callback_eq_error.mp hhost).1
  · intro fault
    rw [← Walk.fault?_eq_some, fault?_resolve names element 1]

/-- Of all that is wrong here the second argument comes first; what a node of
this kind does not use may be anything. -/
theorem resolve_by_relevance_second_argument :
    let names := ({} : Names).insertValue "x" ⟨0⟩
    let source : Element := .node
      { kind := some Kind.call.tag, args := [.ref "x", .ref "y"], callback := some "nobody" }
    let bare : Element := .node
      { kind := some Kind.set.tag, source := some source, target := some "z" }
    let burdened : Element := .node
      { kind := some Kind.set.tag, source := some source, target := some "z"
        a := some (.node { kind := some "none" }), nodes := [.node {}, .ref "w"] }
    burdened.resolve names = bare.resolve names ∧
      bare.resolve names = .error (.unknownValue "y") := by
  intro names source bare burdened
  obtain ⟨hagree, -, hfirst⟩ := resolve_by_relevance bare names
  have herase : burdened.erase = bare.erase := by
    simp only [burdened, bare, erase, Kind.ofTag?_tag]
  have htour : (Tree.tour 1 bare).findSome? (faultAt? names) = some (.unknownValue "y") := by
    simp [Tree.tour_eq, List.findSome?_cons, bare, source, Tree.places, places, Fields.kind?,
      Kind.ofTag?_tag, Fields.places, Place.required, Tree.Visit.ofPlace, faultAt?, tagFault?,
      Names.unbound?, names, Names.insertValue]
  exact ⟨hagree burdened names herase (fun _ _ => rfl) (fun _ _ => rfl), (hfirst _).mpr htour⟩

end Element

end Animation
