import Animation.Proofs.Compiler.Outcome

/-!
The outcome of compiling, said without compiling. A tree is toured from left
to right and depth first; a node can be too deep when it is entered, and a
required operand can be missing when its place is reached. The first fault on
the tour is the fault that a tree is refused for.

So the limit matters only to nodes that are beyond it: whoever raises it sees
either the same outcome as before or an end to a fault of the limit.
-/

namespace Animation.Compiler

/-- What is wrong where a tour is, if something is. -/
def faultAt? (limits : Limits) : Tree.Visit Expression → Option Fault
  | .enter level tree =>
    if Tree.isNode tree = true ∧ limits.maxDepth.toNat < level
    then some (.tooDeep limits.maxDepth) else none
  | .missing node field => (Tree.kind? node).map (.missingOperand · field)
  | .leave _ => none

theorem findSome?_tour_leaf {leaf : Expression} (h : leaf.kind? = none) (limits : Limits)
    (level : Nat) : (Tree.tour level leaf).findSome? (faultAt? limits) = none := by
  have hplaces : Tree.places leaf = [] := Tree.places_of_no_kind h
  have hleaf : Tree.isNode leaf = false := by simp [Tree.isNode, h]
  rw [Tree.tour_eq, hplaces]
  simp [faultAt?, hleaf]

/-- On a tour of a node, its own depth comes first and then what is in its
places, one after the other. -/
theorem findSome?_tour_node {node : Expression} {kind : Kind} (h : node.kind? = some kind)
    (limits : Limits) (level : Nat) :
    (Tree.tour level node).findSome? (faultAt? limits) =
      if limits.maxDepth.toNat < level then some (.tooDeep limits.maxDepth)
      else node.places.findSome? fun
        | .filled operand => (Tree.tour (level + 1) operand).findSome? (faultAt? limits)
        | .missing field => some (.missingOperand kind field) := by
  have hkind : Tree.kind? node = some kind := h
  have hnode : Tree.isNode node = true := Tree.isNode_of_kind h
  have hplace : ∀ place : Place Expression,
      (Tree.Visit.ofPlace node (Tree.tour (level + 1)) place).findSome? (faultAt? limits) =
        match place with
        | .filled operand => (Tree.tour (level + 1) operand).findSome? (faultAt? limits)
        | .missing field => some (.missingOperand kind field) := by
    rintro (operand | field)
    · rfl
    · simp [Tree.Visit.ofPlace, faultAt?, hkind]
  rw [Tree.tour_eq, hnode, Bool.toNat_true, List.cons_append, List.findSome?_cons]
  split
  · next fault hfault =>
      simp only [faultAt?, hnode, true_and] at hfault
      split at hfault
      · next hdeep => rw [if_pos hdeep, ← hfault]
      · cases hfault
  · next hnone =>
      have hroom : ¬ limits.maxDepth.toNat < level := by
        simpa [faultAt?, hnode] using hnone
      rw [if_neg hroom, List.findSome?_append, Walk.findSome?_flatMap]
      simp only [hplace, List.findSome?_singleton, faultAt?, Option.or_none]
      rfl

/-- The first fault on the tour is the one that compiling ends with. -/
theorem fault?_compile {expression : Expression} {compiler : Compiler}
    (hdepth : compiler.depth ≤ compiler.limits.maxDepth) :
    Walk.fault? (compiler.compile expression).1 =
      (Tree.tour (compiler.depth.toNat + 1) expression).findSome? (faultAt? compiler.limits) := by
  induction expression using Tree.operand_induction generalizing compiler with
  | step node ih =>
      cases hkind : node.kind? with
      | none =>
          rw [compile_leaf hkind, findSome?_tour_leaf hkind]
          rfl
      | some kind =>
          have hfull : compiler.limits.maxDepth ≤ compiler.depth ↔
              compiler.limits.maxDepth.toNat < compiler.depth.toNat + 1 := by
            rw [UInt64.le_iff_toNat_le]
            omega
          rw [compile_node hkind, findSome?_tour_node hkind]
          simp only [hfull]
          split
          · rfl
          · next hroom =>
              have hless : compiler.depth < compiler.limits.maxDepth := by
                rw [UInt64.lt_iff_toNat_lt]
                omega
              rw [Walk.fault?_map, Walk.fault?_mapM]
              apply Walk.findSome?_congr
              rintro (operand | field) hplace
              · have htour := ih operand (Tree.mem_operands.mpr hplace) (deeper_within hless)
                rw [depth_deeper hless] at htour
                exact htour
              · rfl

/-- With a higher limit a tree compiles as before, unless the limit was what
it was refused for. -/
theorem compile_higher {expression : Expression} {compiler : Compiler} {higher : Limits}
    (hdepth : compiler.depth ≤ compiler.limits.maxDepth)
    (hhigher : compiler.limits.maxDepth ≤ higher.maxDepth) :
    (compiler.compile expression).1 = .error (.tooDeep compiler.limits.maxDepth) ∨
      (Compiler.compile { compiler with limits := higher } expression).1 =
        (compiler.compile expression).1 := by
  induction expression using Tree.operand_induction generalizing compiler with
  | step node ih =>
      cases hkind : node.kind? with
      | none => exact Or.inr (by rw [compile_leaf hkind, compile_leaf hkind])
      | some kind =>
          rw [compile_node hkind, compile_node hkind]
          by_cases hfull : compiler.limits.maxDepth ≤ compiler.depth
          · exact Or.inl (if_pos hfull)
          · have hroom := UInt64.not_le.mp hfull
            have hhigh : ¬ higher.maxDepth ≤ compiler.depth := fun hle =>
              hfull (UInt64.le_trans hhigher hle)
            rw [if_neg hfull, if_neg hhigh]
            let raised := Compiler.fillOutcome { compiler.deeper with limits := higher } kind
            have hwalk :
                node.places.mapM (compiler.deeper.fillOutcome kind) =
                    .error (.tooDeep compiler.limits.maxDepth) ∨
                  node.places.mapM raised =
                    node.places.mapM (compiler.deeper.fillOutcome kind) := by
              apply Walk.mapM_agrees
              rintro (operand | field) hplace
              · exact ih operand (Tree.mem_operands.mpr hplace) (deeper_within hroom) hhigher
              · exact Or.inr rfl
            rcases hwalk with hfault | hagree
            · exact Or.inl (Walk.map_eq_error.mpr hfault)
            · exact Or.inr (congrArg (assemble node <$> ·) hagree)

/-- Which trees compile, and what the others are refused for. Where the limit
is zero only trees that are not nodes compile, and a higher limit has no effect
except on what is too deep for the lower one. -/
theorem outcome_by_tour (expression : Expression) (limits : Limits) :
    ((∃ program, expression.compile limits = .ok program) ↔
        (∀ kind field, ¬ Tree.Lacks expression kind field) ∧
          Tree.nesting expression ≤ limits.maxDepth.toNat) ∧
      (∀ fault, expression.compile limits = .error fault ↔
        (Tree.tour 1 expression).findSome? (faultAt? limits) = some fault) ∧
      (limits.maxDepth = 0 →
        ((∃ program, expression.compile limits = .ok program) ↔ expression.kind? = none)) ∧
      ∀ higher : Limits, limits.maxDepth ≤ higher.maxDepth →
        expression.compile limits = .error (.tooDeep limits.maxDepth) ∨
          expression.compile higher = expression.compile limits := by
  have hdepth : (0 : UInt64) ≤ limits.maxDepth := UInt64.zero_le
  have hsucceeds : (∃ program, expression.compile limits = .ok program) ↔
      (∀ kind field, ¬ Tree.Lacks expression kind field) ∧
        Tree.nesting expression ≤ limits.maxDepth.toNat := by
    have h := @compile_succeeds_iff expression { limits } hdepth
    rwa [UInt64.toNat_zero, Nat.zero_add] at h
  refine ⟨hsucceeds, ?_, ?_, fun higher hhigher => compile_higher hdepth hhigher⟩
  · intro fault
    rw [← Walk.fault?_eq_some]
    exact iff_of_eq (congrArg (· = some fault) (fault?_compile hdepth))
  · intro hzero
    constructor
    · rintro ⟨program, hcompile⟩
      cases hkind : expression.kind? with
      | none => rfl
      | some kind =>
          have hshallow := (hsucceeds.mp ⟨program, hcompile⟩).2
          have hpos := Tree.nesting_node_pos (Expression.isNode_of_kind hkind)
          rw [hzero] at hshallow
          exact absurd hshallow (Nat.not_le_of_lt hpos)
    · intro hleaf
      exact ⟨_, compile_leaf hleaf _⟩

/-- A missing operand is met before a node that is too deep, and after one. -/
example :
    let deep : Expression := .apply .abs (.apply .abs (.number 1))
    let first : Expression := .compare .eq none (some deep)
    let second : Expression := .compare .eq (some deep) none
    let limits : Limits := { maxDepth := 3 }
    first.compile limits = .error (.missingOperand (.compare .eq) .left) ∧
      second.compile limits = .error (.tooDeep 3) := ⟨rfl, rfl⟩

end Animation.Compiler
