import Animation.Expression.Basic
import Animation.Proofs.Tree

/-!
The places of an expression. The nine families of nodes are told apart here,
so that a fact about all nodes need not be proved for each family.
-/

namespace Animation.Expression

def places : Expression → List (Place Expression)
  | .literal _ | .external _ => []
  | .binary _ a b others => .required .a a :: .required .b b :: others.map .filled
  | .unary _ v => [.required .v v]
  | .compare _ left right => [.required .left left, .required .right right]
  | .cond expr ifNode elseNode =>
    .required .expr expr :: .required .ifNode ifNode :: Place.optional elseNode
  | .set source _ => [.required .source source]
  | .block nodes => nodes.map .filled
  | .call args _ => args.map .filled
  | .value _ | .number _ => []

theorem sizeOf_lt {expression operand : Expression} (h : .filled operand ∈ expression.places) :
    sizeOf operand < sizeOf expression := by
  cases expression with
  | literal _ | external _ | value _ | number _ => simp [places] at h
  | binary op a b others =>
      simp only [places, List.mem_cons, Place.filled_eq_required, Place.filled_mem_map] at h
      rcases h with rfl | rfl | h
      · simp
        omega
      · simp
        omega
      · have := List.sizeOf_lt_of_mem h
        simp
        omega
  | unary op v =>
      simp only [places, List.mem_singleton, Place.filled_eq_required] at h
      subst h
      simp
      omega
  | compare op left right =>
      simp only [places, List.mem_cons, Place.filled_eq_required, List.not_mem_nil, or_false] at h
      rcases h with rfl | rfl <;> simp <;> omega
  | cond expr ifNode elseNode =>
      simp only [places, List.mem_cons, Place.filled_eq_required, Place.filled_mem_optional] at h
      rcases h with rfl | rfl | rfl <;> simp <;> omega
  | set source target =>
      simp only [places, List.mem_singleton, Place.filled_eq_required] at h
      subst h
      simp
      omega
  | block nodes | call nodes _ =>
      have := List.sizeOf_lt_of_mem (Place.filled_mem_map.mp h)
      simp
      omega

theorem places_leaf {expression : Expression} (h : expression.kind? = none) :
    expression.places = [] := by
  cases expression with
  | literal _ | external _ => rfl
  | _ => cases h

/-- Of expressions, exactly the nodes have a kind. -/
instance : Tree Expression where
  isNode expression := expression.kind?.isSome
  kind? := kind?
  places := places
  isNode_of_kind h := by rw [h]; rfl
  places_of_no_kind := places_leaf
  sizeOf_lt := sizeOf_lt

theorem isNode_of_kind {expression : Expression} {kind : Kind} (h : expression.kind? = some kind) :
    Tree.isNode expression = true :=
  Tree.isNode_of_kind h

theorem operands_leaf {expression : Expression} (h : expression.kind? = none) :
    Tree.operands expression = [] := by
  rw [Tree.operands, Tree.places_of_no_kind h]
  rfl

theorem nesting_leaf {expression : Expression} (h : expression.kind? = none) :
    Tree.nesting expression = 0 :=
  Tree.nesting_leaf (places_leaf h) (by simp [Tree.isNode, h])

theorem not_lacks_leaf {expression : Expression} (h : expression.kind? = none) (kind : Kind)
    (field : Field) : ¬ Tree.Lacks expression kind field := by
  have hplaces : Tree.places expression = [] := places_leaf h
  rw [Tree.lacks_iff, operands_leaf h, hplaces]
  simp

end Animation.Expression
