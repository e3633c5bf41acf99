import Animation.Element.Resolve
import Animation.Proofs.Element.Places
import Animation.Proofs.Expression.Places
import Animation.Proofs.Names

/-!
What resolving comes to. A node resolves by a walk over its places, in which
missing operands stay missing; after that the names of the node itself are
looked up, and what has been found is put together.
-/

namespace Animation.Element

/-- Resolves what is in a place. -/
def fill (names : Names) : Place Element → Except Fault (Place Expression)
  | .filled operand => .filled <$> operand.resolve names
  | .missing field => pure (.missing field)

/-- What a node has besides its operands. -/
structure Links where
  cell : Option Ref
  host : Option Callback
  literal : Float

def literalOf (kind : Kind) (value : Option Float) : Except Fault Float :=
  match kind, value with
  | .number, none => throw (.missingOperand .number .value)
  | _, value => pure (value.getD 0)

def link (names : Names) (fields : Fields Element) (kind : Kind) : Except Fault Links := do
  let cell ← valueOf? names (fields.valueName? kind)
  let host ← callbackOf? names (fields.callbackName? kind)
  let literal ← literalOf kind fields.value
  pure { cell, host, literal }

/-- A node of this kind. Other numbers of operands than the kind has places
for do not occur. -/
def assemble (kind : Kind) (links : Links) (places : List (Place Expression)) : Expression :=
  match kind, places with
  | .binary op, a :: b :: others =>
    .binary op a.operand? b.operand? (others.filterMap Place.operand?)
  | .unary op, [v] => .unary op v.operand?
  | .compare op, [left, right] => .compare op left.operand? right.operand?
  | .cond, expr :: ifNode :: rest =>
    .cond expr.operand? ifNode.operand? (rest.head?.bind Place.operand?)
  | .set, [source] => .set source.operand? links.cell
  | .block, nodes => .block (nodes.filterMap Place.operand?)
  | .call, args => .call (args.filterMap Place.operand?) links.host
  | .value, _ => .value links.cell
  | _, _ => .number links.literal

theorem resolve_number (names : Names) (value : Float) :
    resolve names (.number value) = .ok (.literal value) := rfl

theorem resolve_ref (names : Names) (name : String) :
    resolve names (.ref name) = .external <$> names.value name := rfl

theorem fill_required (names : Names) (field : Field) (slot : Option Element) :
    fill names (.required field slot) = Place.required field <$> resolve? names slot := by
  cases slot with
  | none => simp [Place.required, fill, resolve?]
  | some element => simp [Place.required, fill, resolve?]

theorem mapM_fill_optional (names : Names) (slot : Option Element) :
    (Place.optional slot).mapM (fill names) = Place.optional <$> resolve? names slot := by
  cases slot with
  | none => simp [Place.optional, resolve?]
  | some element => simp [Place.optional, fill, resolve?]

theorem mapM_fill_map (names : Names) (elements : List Element) :
    elements.mapM (fill names ∘ .filled) = List.map .filled <$> resolveAll names elements := by
  induction elements with
  | nil => simp [resolveAll]
  | cons element rest ih => simp [resolveAll, ih, fill]

theorem resolve_node {fields : Fields Element} {kind : Kind} (h : fields.kind? = some kind)
    (names : Names) :
    resolve names (.node fields) =
      (fields.places kind).mapM (fill names) >>= fun places =>
        (assemble kind · places) <$> link names fields kind := by
  rcases fields with ⟨tag, a, b, others, v, left, right, expr, ifNode, elseNode, source, target,
    nodes, args, callback, name, value⟩
  obtain ⟨tag, rfl, htag⟩ := Option.bind_eq_some_iff.mp h
  cases kind with
  | binary op =>
      simp [resolve, htag, Fields.places, fill_required, mapM_fill_map, link, assemble,
        Fields.valueName?, Fields.callbackName?, valueOf?, callbackOf?, literalOf]
  | unary op | compare op =>
      simp [resolve, htag, Fields.places, fill_required, link, assemble,
        Fields.valueName?, Fields.callbackName?, valueOf?, callbackOf?, literalOf]
  | cond =>
      simp [resolve, htag, Fields.places, fill_required, mapM_fill_optional, link, assemble,
        Fields.valueName?, Fields.callbackName?, valueOf?, callbackOf?, literalOf]
  | set =>
      simp [resolve, htag, Fields.places, fill_required, link, assemble,
        Fields.valueName?, Fields.callbackName?, callbackOf?, literalOf]
  | block =>
      simp [resolve, htag, Fields.places, mapM_fill_map, link, assemble,
        Fields.valueName?, Fields.callbackName?, valueOf?, callbackOf?, literalOf]
  | call =>
      simp [resolve, htag, Fields.places, mapM_fill_map, link, assemble,
        Fields.valueName?, Fields.callbackName?, valueOf?, literalOf]
  | value =>
      simp [resolve, htag, Fields.places, link, assemble,
        Fields.valueName?, Fields.callbackName?, callbackOf?, literalOf]
  | number =>
      cases value with
      | none =>
          simp [resolve, htag, Fields.places, link, Fields.valueName?, Fields.callbackName?,
            valueOf?, callbackOf?, literalOf]
          rfl
      | some literal =>
          simp [resolve, htag, Fields.places, link, assemble, Fields.valueName?,
            Fields.callbackName?, valueOf?, callbackOf?, literalOf]

/-! ### What is wrong with a node itself -/

theorem valueOf?_eq_error {names : Names} {slot : Option String} {fault : Fault} :
    valueOf? names slot = .error fault ↔
      ∃ name, slot = some name ∧ ¬ names.Binds name ∧ .unknownValue name = fault := by
  cases slot with
  | none => simp [valueOf?, pure, Except.pure]
  | some name => simp [valueOf?, Walk.map_eq_error, Names.value_eq_error]

theorem callbackOf?_eq_error {names : Names} {slot : Option String} {fault : Fault} :
    callbackOf? names slot = .error fault ↔
      ∃ name, slot = some name ∧ ¬ names.Hosts name ∧ .unknownCallback name = fault := by
  cases slot with
  | none => simp [callbackOf?, pure, Except.pure]
  | some name => simp [callbackOf?, Walk.map_eq_error, Names.callback_eq_error]

theorem literalOf_eq_error {kind : Kind} {value : Option Float} {fault : Fault} :
    literalOf kind value = .error fault ↔
      kind = .number ∧ value = none ∧ .missingOperand .number .value = fault := by
  cases value with
  | none => cases kind <;> simp [literalOf, throw, throwThe, MonadExceptOf.throw, pure, Except.pure]
  | some literal => cases kind <;> simp [literalOf, pure, Except.pure]

theorem faulty_of_link_error {names : Names} {fields : Fields Element} {kind : Kind}
    {fault : Fault} (hkind : fields.kind? = some kind) (h : link names fields kind = .error fault) :
    Faulty names.Binds names.Hosts (.node fields) fault := by
  simp only [link, Walk.bind_eq_error] at h
  rcases h with hcell | ⟨cell, -, hhost | ⟨host, -, hliteral | ⟨literal, -, hdone⟩⟩⟩
  · obtain ⟨name, hname, hunbound, rfl⟩ := valueOf?_eq_error.mp hcell
    exact .noCell hkind hname hunbound
  · obtain ⟨name, hname, hunbound, rfl⟩ := callbackOf?_eq_error.mp hhost
    exact .noCallback hkind hname hunbound
  · obtain ⟨rfl, hvalue, rfl⟩ := literalOf_eq_error.mp hliteral
    exact .noNumber hkind hvalue
  · cases hdone

theorem not_faulty_of_link {names : Names} {fields : Fields Element} {kind : Kind} {links : Links}
    (hkind : fields.kind? = some kind) (h : link names fields kind = .ok links) (fault : Fault) :
    ¬ Faulty names.Binds names.Hosts (.node fields) fault := by
  simp only [link, Walk.bind_eq_ok] at h
  obtain ⟨cell, hcell, host, hhost, literal, hliteral, -⟩ := h
  intro hfaulty
  cases hfaulty with
  | noKind hnone => simp [Fields.kind?, hnone] at hkind
  | unknownKind htag hunknown => simp [Fields.kind?, htag, hunknown] at hkind
  | noCell hthis hname hunbound =>
      cases hkind.symm.trans hthis
      rw [valueOf?_eq_error.mpr ⟨_, hname, hunbound, rfl⟩] at hcell
      cases hcell
  | noCallback hthis hname hunbound =>
      cases hkind.symm.trans hthis
      rw [callbackOf?_eq_error.mpr ⟨_, hname, hunbound, rfl⟩] at hhost
      cases hhost
  | noNumber hthis hvalue =>
      cases hkind.symm.trans hthis
      rw [literalOf_eq_error.mpr ⟨rfl, hvalue, rfl⟩] at hliteral
      cases hliteral

/-- Why a node has no kind is not a matter of names. -/
theorem resolve_no_kind {fields : Fields Element} (h : fields.kind? = none) :
    ∃ fault, ∀ names, resolve names (.node fields) = .error fault ∧
      Faulty names.Binds names.Hosts (.node fields) fault := by
  rcases fields with ⟨tag, a, b, others, v, left, right, expr, ifNode, elseNode, source, target,
    nodes, args, callback, name, value⟩
  cases tag with
  | none => exact ⟨.missingKind, fun names => ⟨by simp [resolve]; rfl, .noKind rfl⟩⟩
  | some tag =>
      have htag : Kind.ofTag? tag = none := h
      exact ⟨.unknownKind tag, fun names => ⟨by simp [resolve, htag]; rfl, .unknownKind rfl htag⟩⟩

/-! ### Whole trees -/

theorem fill_eq_ok {names : Names} {place : Place Element} {result : Place Expression} :
    fill names place = .ok result ↔
      Place.Alike (fun element expression => element.resolve names = .ok expression)
        place result := by
  cases place with
  | filled operand =>
      rw [fill, Walk.map_eq_ok]
      constructor
      · rintro ⟨expression, hoperand, rfl⟩
        exact .filled hoperand
      · rintro ⟨hoperand⟩
        exact ⟨_, hoperand, rfl⟩
  | missing field =>
      constructor
      · rintro ⟨⟩
        exact .missing
      · rintro ⟨⟩
        rfl

/-- The fault of an element is a fault of some part of it. -/
theorem faulty_of_resolve {names : Names} {element : Element} {fault : Fault}
    (h : element.resolve names = .error fault) :
    ∃ part, Tree.Contains element part ∧ Faulty names.Binds names.Hosts part fault := by
  induction element using Tree.operand_induction with
  | step element ih =>
      cases element with
      | number value =>
          rw [resolve_number] at h
          cases h
      | ref name =>
          rw [resolve_ref, Walk.map_eq_error, Names.value_eq_error] at h
          obtain ⟨hunbound, rfl⟩ := h
          exact ⟨_, Tree.contains_iff.mpr (Or.inl rfl), .unbound hunbound⟩
      | node fields =>
          cases hkind : fields.kind? with
          | none =>
              obtain ⟨other, hfault⟩ := resolve_no_kind hkind
              obtain ⟨herror, hfaulty⟩ := hfault names
              cases h.symm.trans herror
              exact ⟨_, Tree.contains_iff.mpr (Or.inl rfl), hfaulty⟩
          | some kind =>
              rw [resolve_node hkind, Walk.bind_eq_error] at h
              rcases h with hwalk | ⟨places, -, hlink⟩
              · obtain ⟨before, place, after, hplaces, -, hplace⟩ := Walk.mapM_eq_error.mp hwalk
                have hmember : place ∈ fields.places kind := by simp [hplaces]
                cases place with
                | missing field => cases hplace
                | filled operand =>
                    have hoperand := (mem_operands_node hkind).mpr hmember
                    obtain ⟨part, hpart, hfaulty⟩ :=
                      ih operand hoperand (Walk.map_eq_error.mp hplace)
                    exact ⟨part, Tree.contains_iff.mpr (Or.inr ⟨operand, hoperand, hpart⟩), hfaulty⟩
              · exact ⟨_, Tree.contains_iff.mpr (Or.inl rfl),
                  faulty_of_link_error hkind (Walk.map_eq_error.mp hlink)⟩

/-- No part of an element that resolves has a fault, be it in a branch that is
never taken. -/
theorem not_faulty_of_resolve {names : Names} {element : Element} {expression : Expression}
    (h : element.resolve names = .ok expression) {part : Element}
    (hpart : Tree.Contains element part) (fault : Fault) :
    ¬ Faulty names.Binds names.Hosts part fault := by
  induction element using Tree.operand_induction generalizing expression with
  | step element ih =>
      cases element with
      | number value =>
          rcases Tree.contains_iff.mp hpart with rfl | ⟨operand, hoperand, -⟩
          · rintro ⟨⟩
          · cases hoperand
      | ref name =>
          rw [resolve_ref, Walk.map_eq_ok] at h
          obtain ⟨cell, hcell, -⟩ := h
          rcases Tree.contains_iff.mp hpart with rfl | ⟨operand, hoperand, -⟩
          · rintro (hunbound | _)
            exact hunbound (Names.binds_of_value hcell)
          · cases hoperand
      | node fields =>
          cases hkind : fields.kind? with
          | none =>
              obtain ⟨other, hfault⟩ := resolve_no_kind hkind
              obtain ⟨herror, -⟩ := hfault names
              cases h.symm.trans herror
          | some kind =>
              rw [resolve_node hkind, Walk.bind_eq_ok] at h
              obtain ⟨results, hwalk, hlink⟩ := h
              obtain ⟨links, hlinks, -⟩ := Walk.map_eq_ok.mp hlink
              rcases Tree.contains_iff.mp hpart with rfl | ⟨operand, hoperand, hrest⟩
              · exact not_faulty_of_link hkind hlinks fault
              · have hplace := (mem_operands_node hkind).mp hoperand
                obtain ⟨result, hresult⟩ := Walk.exists_mapM_eq_ok.mp ⟨results, hwalk⟩ _ hplace
                obtain ⟨expression, hexpression, -⟩ := Walk.map_eq_ok.mp hresult
                exact ih operand hoperand hexpression hrest

/-- What is put together from the places of a node has these places again. -/
theorem assemble_fits {related : Element → Expression → Prop} {fields : Fields Element}
    {kind : Kind} {results : List (Place Expression)}
    (h : List.Forall₂ (Place.Alike related) (fields.places kind) results) (links : Links) :
    (assemble kind links results).kind? = some kind ∧
      (assemble kind links results).places = results := by
  cases kind with
  | binary op =>
      rcases h with _ | ⟨hfirst, _ | ⟨hsecond, hothers⟩⟩
      refine ⟨rfl, ?_⟩
      simp only [assemble, Expression.places, Place.alike_required hfirst,
        Place.alike_required hsecond, Place.alike_map hothers]
  | unary op | set =>
      rcases h with _ | ⟨hfirst, _ | _⟩
      refine ⟨rfl, ?_⟩
      simp only [assemble, Expression.places, Place.alike_required hfirst]
  | compare op =>
      rcases h with _ | ⟨hfirst, _ | ⟨hsecond, _ | _⟩⟩
      refine ⟨rfl, ?_⟩
      simp only [assemble, Expression.places, Place.alike_required hfirst,
        Place.alike_required hsecond]
  | cond =>
      rcases h with _ | ⟨hfirst, _ | ⟨hsecond, hthird⟩⟩
      refine ⟨rfl, ?_⟩
      simp only [assemble, Expression.places, Place.alike_required hfirst,
        Place.alike_required hsecond, Place.alike_optional hthird]
  | block | call =>
      refine ⟨rfl, ?_⟩
      simp only [assemble, Expression.places, Place.alike_map h]
  | value | number =>
      cases h
      exact ⟨rfl, rfl⟩

/-- Resolving keeps the shape of an element, and what is missing in it. -/
theorem shaped_resolve (names : Names) :
    Tree.Shaped fun element expression => Element.resolve names element = .ok expression := by
  intro element expression h
  cases element with
  | number value =>
      cases h
      exact ⟨rfl, rfl, .nil⟩
  | ref name =>
      rw [resolve_ref, Walk.map_eq_ok] at h
      obtain ⟨cell, -, rfl⟩ := h
      exact ⟨rfl, rfl, .nil⟩
  | node fields =>
      cases hkind : fields.kind? with
      | none =>
          obtain ⟨other, hfault⟩ := resolve_no_kind hkind
          obtain ⟨herror, -⟩ := hfault names
          cases h.symm.trans herror
      | some kind =>
          rw [resolve_node hkind, Walk.bind_eq_ok] at h
          obtain ⟨results, hwalk, hlink⟩ := h
          obtain ⟨links, -, rfl⟩ := Walk.map_eq_ok.mp hlink
          have halike := (Walk.mapM_eq_ok.mp hwalk).imp fun _ _ => fill_eq_ok.mp
          obtain ⟨hresult, hplaces⟩ := assemble_fits halike links
          refine ⟨?_, ?_, ?_⟩
          · exact (Tree.isNode_of_kind hresult).symm
          · exact hkind.trans hresult.symm
          · change List.Forall₂ _ (places _) (Expression.places _)
            rw [places_node hkind, hplaces]
            exact halike

/-! ### More names -/

theorem link_extends {names other : Names} (h : names.Extends other) {fields : Fields Element}
    {kind : Kind} {links : Links} (hlinks : link names fields kind = .ok links) :
    link other fields kind = .ok links := by
  have hvalue : ∀ slot cell, valueOf? names slot = .ok cell → valueOf? other slot = .ok cell := by
    intro slot cell hcell
    cases slot with
    | none => exact hcell
    | some name =>
        obtain ⟨found, hfound, rfl⟩ := Walk.map_eq_ok.mp hcell
        exact Walk.map_eq_ok.mpr ⟨found, h.values name found hfound, rfl⟩
  have hcallback : ∀ slot, callbackOf? other slot = callbackOf? names slot := by
    intro slot
    cases slot with
    | none => rfl
    | some name => simp only [callbackOf?, h.callback]
  simp only [link, Walk.bind_eq_ok] at hlinks ⊢
  obtain ⟨cell, hcell, host, hhost, hrest⟩ := hlinks
  exact ⟨cell, hvalue _ cell hcell, host, (hcallback _).trans hhost, hrest⟩

/-- An element that resolves keeps its meaning when more names are bound. -/
theorem resolve_extends {names other : Names} (h : names.Extends other) {element : Element}
    {expression : Expression} (hresolve : element.resolve names = .ok expression) :
    element.resolve other = .ok expression := by
  induction element using Tree.operand_induction generalizing expression with
  | step element ih =>
      cases element with
      | number value => exact hresolve
      | ref name =>
          rw [resolve_ref, Walk.map_eq_ok] at hresolve ⊢
          obtain ⟨cell, hcell, hexpression⟩ := hresolve
          exact ⟨cell, h.values name cell hcell, hexpression⟩
      | node fields =>
          cases hkind : fields.kind? with
          | none =>
              obtain ⟨fault, hfault⟩ := resolve_no_kind hkind
              obtain ⟨herror, -⟩ := hfault names
              cases hresolve.symm.trans herror
          | some kind =>
              rw [resolve_node hkind, Walk.bind_eq_ok] at hresolve ⊢
              obtain ⟨results, hwalk, hlink⟩ := hresolve
              obtain ⟨links, hlinks, rfl⟩ := Walk.map_eq_ok.mp hlink
              have hplaces := Walk.forall₂_mem (Walk.mapM_eq_ok.mp hwalk)
              refine ⟨results, Walk.mapM_eq_ok.mpr (hplaces.imp ?_), ?_⟩
              · intro place result hfill
                obtain ⟨hplace, hfill⟩ := hfill
                cases place with
                | missing field => exact hfill
                | filled operand =>
                    obtain ⟨found, hfound, rfl⟩ := Walk.map_eq_ok.mp hfill
                    have hoperand := (mem_operands_node hkind).mpr hplace
                    exact Walk.map_eq_ok.mpr ⟨found, ih operand hoperand hfound, rfl⟩
              · exact Walk.map_eq_ok.mpr ⟨links, link_extends h hlinks, rfl⟩

end Animation.Element
