import Animation.Proofs.Compiler.Likeness
import Animation.Proofs.Element.Resolution

/-!
Trees written down as elements. Each cell and each callback is written by a
name that stands for it, and it is left open which; besides that a tree is
written in one way, with the fields that are present in it and no others. What
is written resolves to the tree that it was written from, and every element
that resolves is the tree written down, but for fields that nobody looks at.
-/

namespace Animation

theorem Kind.tag_of_ofTag? {tag : String} {kind : Kind} (h : Kind.ofTag? tag = some kind) :
    kind.tag = tag := by
  simpa using List.find?_some h

namespace Names

/-- Everything that has a name stands for itself. -/
def named (names : Names) : Likeness where
  reads cell twin := cell = twin ∧ ∃ name, names.value name = .ok cell
  writes cell twin := cell = twin ∧ ∃ name, names.value name = .ok cell
  calls callback twin := callback = twin ∧ ∃ name, names.callback name = .ok callback

end Names

/-- All cells and callbacks of the tree have names. -/
def Expression.Named (names : Names) (expression : Expression) : Prop :=
  Expression.Alike names.named expression expression

namespace Element

inductive Writes (names : Names) : Expression → Element → Prop
  | literal {value} : Writes names (.literal value) (.number value)
  | external {cell name} :
      names.value name = .ok cell → Writes names (.external cell) (.ref name)
  | binary {op a a' b b' others others'} :
      Option.Rel (Writes names) a a' → Option.Rel (Writes names) b b' →
      List.Forall₂ (Writes names) others others' →
      Writes names (.binary op a b others)
        (.node { kind := some (Kind.binary op).tag, a := a', b := b', others := others' })
  | unary {op v v'} :
      Option.Rel (Writes names) v v' →
      Writes names (.unary op v) (.node { kind := some (Kind.unary op).tag, v := v' })
  | compare {op left left' right right'} :
      Option.Rel (Writes names) left left' → Option.Rel (Writes names) right right' →
      Writes names (.compare op left right)
        (.node { kind := some (Kind.compare op).tag, left := left', right := right' })
  | cond {expr expr' ifNode ifNode' elseNode elseNode'} :
      Option.Rel (Writes names) expr expr' → Option.Rel (Writes names) ifNode ifNode' →
      Option.Rel (Writes names) elseNode elseNode' →
      Writes names (.cond expr ifNode elseNode)
        (.node
          { kind := some Kind.cond.tag, expr := expr', ifNode := ifNode', elseNode := elseNode' })
  | set {source source' target target'} :
      Option.Rel (Writes names) source source' →
      Option.Rel (fun cell name => names.value name = .ok cell) target target' →
      Writes names (.set source target)
        (.node { kind := some Kind.set.tag, source := source', target := target' })
  | block {nodes nodes'} :
      List.Forall₂ (Writes names) nodes nodes' →
      Writes names (.block nodes) (.node { kind := some Kind.block.tag, nodes := nodes' })
  | call {args args' callback callback'} :
      List.Forall₂ (Writes names) args args' →
      Option.Rel (fun callback name => names.callback name = .ok callback) callback callback' →
      Writes names (.call args callback)
        (.node { kind := some Kind.call.tag, args := args', callback := callback' })
  | value {source name} :
      Option.Rel (fun cell name => names.value name = .ok cell) source name →
      Writes names (.value source) (.node { kind := some Kind.value.tag, name })
  | number {value} :
      Writes names (.number value) (.node { kind := some Kind.number.tag, value := some value })

mutual

/-- The element without the fields that the kinds of its nodes do not use. -/
def erase : Element → Element
  | .number value => .number value
  | .ref name => .ref name
  | .node ⟨none, _, _, _, _, _, _, _, _, _, _, _, _, _, _, _, _⟩ => .node {}
  | .node ⟨some tag, a, b, others, v, left, right, expr, ifNode, elseNode, source,
      target, nodes, args, callback, name, value⟩ =>
    match Kind.ofTag? tag with
    | none => .node { kind := some tag }
    | some (.binary _) =>
      .node { kind := some tag, a := erase? a, b := erase? b, others := eraseAll others }
    | some (.unary _) => .node { kind := some tag, v := erase? v }
    | some (.compare _) => .node { kind := some tag, left := erase? left, right := erase? right }
    | some .cond =>
      .node { kind := some tag, expr := erase? expr, ifNode := erase? ifNode,
              elseNode := erase? elseNode }
    | some .set => .node { kind := some tag, source := erase? source, target }
    | some .block => .node { kind := some tag, nodes := eraseAll nodes }
    | some .call => .node { kind := some tag, args := eraseAll args, callback }
    | some .value => .node { kind := some tag, name }
    | some .number => .node { kind := some tag, value }

def erase? : Option Element → Option Element
  | none => none
  | some element => some (erase element)

def eraseAll : List Element → List Element
  | [] => []
  | element :: rest => erase element :: eraseAll rest

end

variable {names : Names}

/-! ### From trees to elements -/

mutual

theorem exists_writes : ∀ {expression : Expression}, expression.Named names →
    ∃ element, Writes names expression element
  | .literal _, _ => ⟨_, .literal⟩
  | .external _, .external ⟨_, _, hname⟩ => ⟨_, .external hname⟩
  | .binary _ _ _ _, .binary ha hb hothers => by
    obtain ⟨_, ha⟩ := exists_writes? ha
    obtain ⟨_, hb⟩ := exists_writes? hb
    obtain ⟨_, hothers⟩ := exists_writesAll hothers
    exact ⟨_, .binary ha hb hothers⟩
  | .unary _ _, .unary hv => by
    obtain ⟨_, hv⟩ := exists_writes? hv
    exact ⟨_, .unary hv⟩
  | .compare _ _ _, .compare hleft hright => by
    obtain ⟨_, hleft⟩ := exists_writes? hleft
    obtain ⟨_, hright⟩ := exists_writes? hright
    exact ⟨_, .compare hleft hright⟩
  | .cond _ _ _, .cond hexpr hif helse => by
    obtain ⟨_, hexpr⟩ := exists_writes? hexpr
    obtain ⟨_, hif⟩ := exists_writes? hif
    obtain ⟨_, helse⟩ := exists_writes? helse
    exact ⟨_, .cond hexpr hif helse⟩
  | .set _ _, .set hsource htarget => by
    obtain ⟨_, hsource⟩ := exists_writes? hsource
    cases htarget with
    | none => exact ⟨_, .set hsource .none⟩
    | some htarget =>
        obtain ⟨-, _, hname⟩ := htarget
        exact ⟨_, .set hsource (.some hname)⟩
  | .block _, .block hnodes => by
    obtain ⟨_, hnodes⟩ := exists_writesAll hnodes
    exact ⟨_, .block hnodes⟩
  | .call _ _, .call hargs hcallback => by
    obtain ⟨_, hargs⟩ := exists_writesAll hargs
    cases hcallback with
    | none => exact ⟨_, .call hargs .none⟩
    | some hcallback =>
        obtain ⟨-, _, hname⟩ := hcallback
        exact ⟨_, .call hargs (.some hname)⟩
  | .value none, _ => ⟨_, .value .none⟩
  | .value (some _), .value (.some ⟨_, _, hname⟩) => ⟨_, .value (.some hname)⟩
  | .number _, _ => ⟨_, .number⟩

theorem exists_writes? : ∀ {slot : Option Expression},
    Option.Rel (Expression.Alike names.named) slot slot →
    ∃ written, Option.Rel (Writes names) slot written
  | none, _ => ⟨none, .none⟩
  | some _, .some h => by
    obtain ⟨_, h⟩ := exists_writes h
    exact ⟨_, .some h⟩

theorem exists_writesAll : ∀ {expressions : List Expression},
    List.Forall₂ (Expression.Alike names.named) expressions expressions →
    ∃ written, List.Forall₂ (Writes names) expressions written
  | [], _ => ⟨[], .nil⟩
  | _ :: _, .cons hfirst hrest => by
    obtain ⟨_, hfirst⟩ := exists_writes hfirst
    obtain ⟨_, hrest⟩ := exists_writesAll hrest
    exact ⟨_, .cons hfirst hrest⟩

end

theorem valueOf?_of_rel {cell : Option Ref} {name : Option String}
    (h : Option.Rel (fun cell name => names.value name = .ok cell) cell name) :
    valueOf? names name = .ok cell := by
  cases h with
  | none => rfl
  | some h => rw [valueOf?, h]; rfl

theorem callbackOf?_of_rel {callback : Option Callback} {name : Option String}
    (h : Option.Rel (fun callback name => names.callback name = .ok callback) callback name) :
    callbackOf? names name = .ok callback := by
  cases h with
  | none => rfl
  | some h => rw [callbackOf?, h]; rfl

mutual

theorem resolve_of_writes : ∀ {expression : Expression} {element : Element},
    Writes names expression element → resolve names element = .ok expression
  | .literal _, _, .literal => rfl
  | .external _, _, .external hname => by
    rw [resolve_ref, hname]
    rfl
  | .binary _ _ _ _, _, .binary ha hb hothers => by
    rw [resolve, Kind.ofTag?_tag]
    simp only [resolve?_of_writes ha, resolve?_of_writes hb, resolveAll_of_writes hothers]
    rfl
  | .unary _ _, _, .unary hv => by
    rw [resolve, Kind.ofTag?_tag]
    simp only [resolve?_of_writes hv]
    rfl
  | .compare _ _ _, _, .compare hleft hright => by
    rw [resolve, Kind.ofTag?_tag]
    simp only [resolve?_of_writes hleft, resolve?_of_writes hright]
    rfl
  | .cond _ _ _, _, .cond hexpr hif helse => by
    rw [resolve, Kind.ofTag?_tag]
    simp only [resolve?_of_writes hexpr, resolve?_of_writes hif, resolve?_of_writes helse]
    rfl
  | .set _ _, _, .set hsource htarget => by
    rw [resolve, Kind.ofTag?_tag]
    simp only [resolve?_of_writes hsource, valueOf?_of_rel htarget]
    rfl
  | .block _, _, .block hnodes => by
    rw [resolve, Kind.ofTag?_tag]
    simp only [resolveAll_of_writes hnodes]
    rfl
  | .call _ _, _, .call hargs hcallback => by
    rw [resolve, Kind.ofTag?_tag]
    simp only [resolveAll_of_writes hargs, callbackOf?_of_rel hcallback]
    rfl
  | .value _, _, .value hname => by
    rw [resolve, Kind.ofTag?_tag]
    simp only [valueOf?_of_rel hname]
    rfl
  | .number _, _, .number => by
    rw [resolve, Kind.ofTag?_tag]
    rfl

theorem resolve?_of_writes : ∀ {slot : Option Expression} {written : Option Element},
    Option.Rel (Writes names) slot written → resolve? names written = .ok slot
  | none, _, .none => rfl
  | some _, _, .some h => by
    rw [resolve?, resolve_of_writes h]
    rfl

theorem resolveAll_of_writes : ∀ {expressions : List Expression} {written : List Element},
    List.Forall₂ (Writes names) expressions written → resolveAll names written = .ok expressions
  | [], _, .nil => rfl
  | _ :: _, _, .cons hfirst hrest => by
    rw [resolveAll, resolve_of_writes hfirst, resolveAll_of_writes hrest]
    rfl

end

/-! ### From elements to trees -/

theorem rel_of_valueOf? {cell : Option Ref} {name : Option String}
    (h : valueOf? names name = .ok cell) :
    Option.Rel (fun cell name => names.value name = .ok cell) cell name := by
  cases name with
  | none =>
      cases h
      exact .none
  | some name =>
      obtain ⟨found, hfound, rfl⟩ := Walk.map_eq_ok.mp h
      exact .some hfound

theorem rel_of_callbackOf? {callback : Option Callback} {name : Option String}
    (h : callbackOf? names name = .ok callback) :
    Option.Rel (fun callback name => names.callback name = .ok callback) callback name := by
  cases name with
  | none =>
      cases h
      exact .none
  | some name =>
      obtain ⟨found, hfound, rfl⟩ := Walk.map_eq_ok.mp h
      exact .some hfound

mutual

theorem writes_erase : ∀ {element : Element} {expression : Expression},
    resolve names element = .ok expression → Writes names expression element.erase
  | .number _, _, h => by
    cases h
    exact .literal
  | .ref _, _, h => by
    obtain ⟨_, hname, rfl⟩ := Walk.map_eq_ok.mp h
    exact .external hname
  | .node ⟨none, _, _, _, _, _, _, _, _, _, _, _, _, _, _, _, _⟩, _, h => by
    simp only [resolve] at h
    cases h
  | .node ⟨some tag, a, b, others, v, left, right, expr, ifNode, elseNode, source,
      target, nodes, args, callback, name, value⟩, _, h => by
    rw [erase]
    cases hkind : Kind.ofTag? tag with
    | none =>
        simp only [resolve, hkind] at h
        cases h
    | some kind =>
        obtain rfl := Kind.tag_of_ofTag? hkind
        simp only [resolve, hkind] at h
        cases kind with
        | binary op =>
            obtain ⟨_, ha, h⟩ := Walk.bind_eq_ok.mp h
            obtain ⟨_, hb, h⟩ := Walk.bind_eq_ok.mp h
            obtain ⟨_, hothers, h⟩ := Walk.bind_eq_ok.mp h
            cases h
            exact .binary (writes_erase? ha) (writes_erase? hb) (writes_eraseAll hothers)
        | unary op =>
            obtain ⟨_, hv, h⟩ := Walk.bind_eq_ok.mp h
            cases h
            exact .unary (writes_erase? hv)
        | compare op =>
            obtain ⟨_, hleft, h⟩ := Walk.bind_eq_ok.mp h
            obtain ⟨_, hright, h⟩ := Walk.bind_eq_ok.mp h
            cases h
            exact .compare (writes_erase? hleft) (writes_erase? hright)
        | cond =>
            obtain ⟨_, hexpr, h⟩ := Walk.bind_eq_ok.mp h
            obtain ⟨_, hif, h⟩ := Walk.bind_eq_ok.mp h
            obtain ⟨_, helse, h⟩ := Walk.bind_eq_ok.mp h
            cases h
            exact .cond (writes_erase? hexpr) (writes_erase? hif) (writes_erase? helse)
        | set =>
            obtain ⟨_, hsource, h⟩ := Walk.bind_eq_ok.mp h
            obtain ⟨_, htarget, h⟩ := Walk.bind_eq_ok.mp h
            cases h
            exact .set (writes_erase? hsource) (rel_of_valueOf? htarget)
        | block =>
            obtain ⟨_, hnodes, h⟩ := Walk.bind_eq_ok.mp h
            cases h
            exact .block (writes_eraseAll hnodes)
        | call =>
            obtain ⟨_, hargs, h⟩ := Walk.bind_eq_ok.mp h
            obtain ⟨_, hcallback, h⟩ := Walk.bind_eq_ok.mp h
            cases h
            exact .call (writes_eraseAll hargs) (rel_of_callbackOf? hcallback)
        | value =>
            obtain ⟨_, hname, h⟩ := Walk.bind_eq_ok.mp h
            cases h
            exact .value (rel_of_valueOf? hname)
        | number =>
            cases value with
            | none => cases h
            | some literal =>
                cases h
                exact .number

theorem writes_erase? : ∀ {element : Option Element} {expression : Option Expression},
    resolve? names element = .ok expression →
    Option.Rel (Writes names) expression (erase? element)
  | none, _, h => by
    cases h
    exact .none
  | some _, _, h => by
    obtain ⟨_, helement, rfl⟩ := Walk.map_eq_ok.mp h
    exact .some (writes_erase helement)

theorem writes_eraseAll : ∀ {elements : List Element} {expressions : List Expression},
    resolveAll names elements = .ok expressions →
    List.Forall₂ (Writes names) expressions (eraseAll elements)
  | [], _, h => by
    cases h
    exact .nil
  | _ :: _, _, h => by
    rw [resolveAll] at h
    obtain ⟨_, hfirst, h⟩ := Walk.bind_eq_ok.mp h
    obtain ⟨_, hrest, h⟩ := Walk.bind_eq_ok.mp h
    cases h
    exact .cons (writes_erase hfirst) (writes_eraseAll hrest)

end

/-- Every tree whose cells and callbacks have names can be written as an
element, and whichever way it is written, the element resolves to this very
tree. An element that resolves, without the fields that are of no use, is a
way to write the tree that it resolves to. -/
theorem written_tree_resolves (names : Names) :
    (∀ expression : Expression, expression.Named names →
      ∃ element, Writes names expression element) ∧
    (∀ (expression : Expression) (element : Element), Writes names expression element →
      element.resolve names = .ok expression) ∧
    ∀ (element : Element) (expression : Expression), element.resolve names = .ok expression →
      Writes names expression element.erase :=
  ⟨fun _ => exists_writes, fun _ _ => resolve_of_writes, fun _ _ => writes_erase⟩

/-- Either name of a cell serves to write it. -/
theorem written_tree_resolves_two_names :
    let names := (({} : Names).insertValue "x" ⟨0⟩).insertValue "y" ⟨0⟩
    ∀ name ∈ ["x", "y"],
      resolve names (.node
          { kind := some (Kind.binary .add).tag, a := some (.ref name), b := some (.number 0) }) =
        .ok (.binary .add (some (.external ⟨0⟩)) (some (.literal 0)) []) := by
  intro names name hname
  have hvalue : names.value name = .ok ⟨0⟩ := by
    rw [Names.value_insertValue, Names.value_insertValue]
    rcases List.mem_pair.mp hname with rfl | rfl <;> rfl
  exact (written_tree_resolves names).2.1 _ _
    (.binary (.some (.external hvalue)) (.some .literal) .nil)

end Element

end Animation
