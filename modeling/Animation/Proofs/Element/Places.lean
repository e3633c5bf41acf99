import Animation.Element.Basic
import Animation.Fault
import Animation.Proofs.Tree

/-!
Elements as trees. Which places a node has depends on its kind: fields that
its kind does not use are not there, and without a kind there is no place at
all. What can be wrong with an element apart from its operands is said here
too.
-/

namespace Animation

namespace Fields

variable {α : Type}

/-- The kind that the tag of a node stands for. -/
def kind? (fields : Fields α) : Option Kind :=
  fields.kind.bind Kind.ofTag?

def places (fields : Fields α) : Kind → List (Place α)
  | .binary _ => .required .a fields.a :: .required .b fields.b :: fields.others.map .filled
  | .unary _ => [.required .v fields.v]
  | .compare _ => [.required .left fields.left, .required .right fields.right]
  | .cond =>
    .required .expr fields.expr :: .required .ifNode fields.ifNode ::
      Place.optional fields.elseNode
  | .set => [.required .source fields.source]
  | .block => fields.nodes.map .filled
  | .call => fields.args.map .filled
  | .value | .number => []

/-- The cell that a node of this kind names, if it names one. -/
def valueName? (fields : Fields α) : Kind → Option String
  | .set => fields.target
  | .value => fields.name
  | _ => none

/-- The callback that a node of this kind names, if it names one. -/
def callbackName? (fields : Fields α) : Kind → Option String
  | .call => fields.callback
  | _ => none

end Fields

namespace Element

def kind? : Element → Option Kind
  | .node fields => fields.kind?
  | _ => none

def isNode : Element → Bool
  | .node _ => true
  | _ => false

def places : Element → List (Place Element)
  | .node fields => (fields.kind?.map fields.places).getD []
  | _ => []

theorem places_node {fields : Fields Element} {kind : Kind} (h : fields.kind? = some kind) :
    places (.node fields) = fields.places kind := by
  simp [places, h]

theorem sizeOf_fields_lt {fields : Fields Element} {kind : Kind} {operand : Element}
    (h : .filled operand ∈ fields.places kind) : sizeOf operand < sizeOf fields := by
  rcases fields with ⟨tag, a, b, others, v, left, right, expr, ifNode, elseNode, source, target,
    nodes, args, callback, name, value⟩
  cases kind with
  | binary op =>
      simp only [Fields.places, List.mem_cons, Place.filled_eq_required,
        Place.filled_mem_map] at h
      rcases h with rfl | rfl | h
      · simp
        omega
      · simp
        omega
      · have := List.sizeOf_lt_of_mem h
        simp
        omega
  | unary op =>
      simp only [Fields.places, List.mem_singleton, Place.filled_eq_required] at h
      subst h
      simp
      omega
  | compare op =>
      simp only [Fields.places, List.mem_cons, Place.filled_eq_required, List.not_mem_nil,
        or_false] at h
      rcases h with rfl | rfl <;> simp <;> omega
  | cond =>
      simp only [Fields.places, List.mem_cons, Place.filled_eq_required,
        Place.filled_mem_optional] at h
      rcases h with rfl | rfl | rfl <;> simp <;> omega
  | set =>
      simp only [Fields.places, List.mem_singleton, Place.filled_eq_required] at h
      subst h
      simp
      omega
  | block | call =>
      simp only [Fields.places, Place.filled_mem_map] at h
      have := List.sizeOf_lt_of_mem h
      simp
      omega
  | value | number => simp [Fields.places] at h

instance : Tree Element where
  isNode := isNode
  kind? := kind?
  places := places
  isNode_of_kind {element _} h := by
    cases element with
    | node fields => rfl
    | _ => cases h
  places_of_no_kind {element} h := by
    cases element with
    | node fields =>
        have hkind : fields.kind? = none := h
        simp [places, hkind]
    | _ => rfl
  sizeOf_lt {element operand} h := by
    cases element with
    | node fields =>
        cases hkind : fields.kind? with
        | none => simp [places, hkind] at h
        | some kind =>
            rw [places_node hkind] at h
            have := sizeOf_fields_lt h
            simp
            omega
    | _ => simp [places] at h

theorem mem_operands_node {fields : Fields Element} {kind : Kind} {operand : Element}
    (h : fields.kind? = some kind) :
    operand ∈ Tree.operands (.node fields) ↔ .filled operand ∈ fields.places kind := by
  rw [Tree.mem_operands, ← places_node h]
  rfl

/-- What can be wrong with an element whatever its operands are like, where
cells are `bound` to some names and callbacks are `hosted` under some. -/
inductive Faulty (bound hosted : String → Prop) : Element → Fault → Prop
  | unbound {name : String} :
      ¬ bound name → Faulty bound hosted (.ref name) (.unknownValue name)
  | noKind {fields : Fields Element} :
      fields.kind = none → Faulty bound hosted (.node fields) .missingKind
  | unknownKind {fields : Fields Element} {tag : String} :
      fields.kind = some tag → Kind.ofTag? tag = none →
      Faulty bound hosted (.node fields) (.unknownKind tag)
  | noCell {fields : Fields Element} {kind : Kind} {name : String} :
      fields.kind? = some kind → fields.valueName? kind = some name → ¬ bound name →
      Faulty bound hosted (.node fields) (.unknownValue name)
  | noCallback {fields : Fields Element} {kind : Kind} {name : String} :
      fields.kind? = some kind → fields.callbackName? kind = some name → ¬ hosted name →
      Faulty bound hosted (.node fields) (.unknownCallback name)
  | noNumber {fields : Fields Element} :
      fields.kind? = some .number → fields.value = none →
      Faulty bound hosted (.node fields) (.missingOperand .number .value)

end Element

end Animation
