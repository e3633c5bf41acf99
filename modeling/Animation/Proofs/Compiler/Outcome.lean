import Animation.Compiler
import Animation.Proofs.Expression.Places
import Animation.Proofs.Walk

/-!
What compiling comes to. Whatever a tree is like, the compiler is given back
as it was; and a node compiles by a walk over its places, one level further
inside, whose results are put together.

From these two facts follows which trees compile: those that lack no required
operand and are not nested too deep. A tree that does not compile is refused
for one of these two reasons, truthfully.
-/

namespace Animation.Compiler

variable {α β : Type}

/-- Whatever its outcome, the action gives back the compiler it was given. -/
def Restores (action : Action α) : Prop :=
  ∀ compiler, (action compiler).2 = compiler

theorem restores_pure (value : α) : Restores (pure value) := fun _ => rfl

theorem restores_throw (fault : Fault) : Restores (throw fault : Action α) := fun _ => rfl

/-- Whatever the state is that goes from step to step, a fault ends the steps
and leaves the state. -/
theorem bind_apply {σ : Type} (first : ExceptT Fault (StateM σ) α)
    (next : α → ExceptT Fault (StateM σ) β) (state : σ) :
    (first >>= next) state =
      match first state with
      | (.ok value, after) => next value after
      | (.error fault, after) => (.error fault, after) := by
  change ExceptT.bindCont next (first state).1 (first state).2 = _
  rcases first state with ⟨_ | _, after⟩ <;> rfl

theorem Restores.bind {first : Action α} {next : α → Action β} (hfirst : Restores first)
    (hnext : ∀ value, Restores (next value)) : Restores (first >>= next) := by
  intro compiler
  have hafter := hfirst compiler
  rw [bind_apply]
  rcases hrun : first compiler with ⟨fault | value, after⟩
  · rw [hrun] at hafter
    exact hafter
  · rw [hrun] at hafter
    subst hafter
    exact hnext _ _

/-- Between actions that restore the compiler, only outcomes are passed on. -/
theorem Restores.bind_fst {first : Action α} (hfirst : Restores first) (next : α → Action β)
    (compiler : Compiler) :
    ((first >>= next) compiler).1 =
      (first compiler).1 >>= fun value => (next value compiler).1 := by
  have hafter := hfirst compiler
  rw [bind_apply]
  rcases hrun : first compiler with ⟨fault | value, after⟩
  · rfl
  · rw [hrun] at hafter
    subst hafter
    rfl

theorem Restores.map {first : Action α} (hfirst : Restores first) (convert : α → β) :
    Restores (convert <$> first) := by
  rw [map_eq_pure_bind]
  exact hfirst.bind fun _ => restores_pure _

theorem Restores.map_fst {first : Action α} (hfirst : Restores first) (convert : α → β)
    (compiler : Compiler) :
    ((convert <$> first) compiler).1 = convert <$> (first compiler).1 := by
  rw [map_eq_pure_bind, hfirst.bind_fst]
  cases (first compiler).1 <;> rfl

theorem restores_mapM {visit : α → Action β} {items : List α}
    (hvisit : ∀ item ∈ items, Restores (visit item)) : Restores (items.mapM visit) := by
  induction items with
  | nil => exact restores_pure []
  | cons item rest ih =>
      obtain ⟨hitem, hrest⟩ := List.forall_mem_cons.mp hvisit
      rw [List.mapM_cons]
      exact hitem.bind fun _ => (ih hrest).bind fun _ => restores_pure _

theorem mapM_fst {visit : α → Action β} {items : List α}
    (hvisit : ∀ item ∈ items, Restores (visit item)) (compiler : Compiler) :
    ((items.mapM visit) compiler).1 = items.mapM fun item => (visit item compiler).1 := by
  induction items with
  | nil => rfl
  | cons item rest ih =>
      obtain ⟨hitem, hrest⟩ := List.forall_mem_cons.mp hvisit
      rw [List.mapM_cons, List.mapM_cons, hitem.bind_fst]
      simp only [(restores_mapM hrest).bind_fst, ih hrest]
      rfl

/-- The compiler one node further inside. -/
def deeper (compiler : Compiler) : Compiler :=
  { compiler with depth := compiler.depth + 1 }

/-- A node is left also when there is a fault in it: the depth that was added
on the way in is taken off again. -/
theorem inside_apply {body : Action α} (hbody : Restores body) (compiler : Compiler) :
    inside body compiler =
      (if compiler.limits.maxDepth ≤ compiler.depth
        then .error (.tooDeep compiler.limits.maxDepth)
        else (body compiler.deeper).1, compiler) := by
  have hafter := hbody compiler.deeper
  unfold inside
  split
  · rfl
  · change ((body compiler.deeper).1,
      { (body compiler.deeper).2 with depth := (body compiler.deeper).2.depth - 1 }) = _
    rw [hafter]
    simp [deeper]

theorem restores_inside {body : Action α} (hbody : Restores body) : Restores (inside body) := by
  intro compiler
  rw [inside_apply hbody]

/-- Compiles what is in a place of a node of this kind. -/
def fill (kind : Kind) : Place Expression → Action Program
  | .filled operand => program operand
  | .missing field => throw (.missingOperand kind field)

/-- A node's program, made from those of its operands. Other numbers of
operands than the node has places for do not occur. -/
def assemble : Expression → List Program → Program
  | .literal value, _ | .number value, _ => .constant value
  | .external source, _ | .value (some source), _ => .read source
  | .value none, _ => .constant Number.nan
  | .binary op .., first :: rest => .fold op first rest
  | .unary op _, [v] => .unary op v
  | .compare op .., [left, right] => .compare op left right
  | .cond .., [expr, ifNode] => .cond expr ifNode (.constant 0)
  | .cond .., [expr, ifNode, elseNode] => .cond expr ifNode elseNode
  | .set _ target, [source] => .set source target
  | .block _, nodes => .block nodes
  | .call _ callback, args => .call args callback
  | _, _ => .constant 0

theorem required_eq_fill (kind : Kind) (field : Field) (slot : Option Expression) :
    required kind field slot = fill kind (.required field slot) := by
  cases slot <;> simp [required, Place.required, fill]

theorem programs_eq_mapM (kind : Kind) (operands : List Expression) :
    programs operands = (operands.map .filled).mapM (fill kind) := by
  induction operands with
  | nil => simp [programs]
  | cons operand rest ih => simp [programs, ih, fill]

/-- Every family of nodes compiles in the same way: the places are filled from
left to right, one level further inside. -/
theorem program_node {node : Expression} {kind : Kind} (h : node.kind? = some kind) :
    program node = inside (assemble node <$> node.places.mapM (fill kind)) := by
  cases node with
  | literal _ | external _ => cases h
  | binary op a b others =>
      cases h
      simp [program, required_eq_fill, programs_eq_mapM (.binary op), Expression.places, assemble]
  | unary op v =>
      cases h
      simp [program, required_eq_fill, Expression.places, assemble]
  | compare op left right =>
      cases h
      simp [program, required_eq_fill, Expression.places, assemble]
  | cond expr ifNode elseNode =>
      cases h
      cases elseNode <;>
        simp [program, required_eq_fill, Expression.places, Place.optional, orZero, fill, assemble]
  | set source target =>
      cases h
      simp [program, required_eq_fill, Expression.places, assemble]
  | block nodes =>
      cases h
      simp only [program, programs_eq_mapM .block, Expression.places, bind_pure_comp]
      rfl
  | call args callback =>
      cases h
      simp only [program, programs_eq_mapM .call, Expression.places, bind_pure_comp]
      rfl
  | value source =>
      cases h
      cases source <;> simp [program, Expression.places, assemble]
  | number value =>
      cases h
      simp [program, Expression.places, assemble]

theorem restores_fill {kind : Kind} {node : Expression}
    (hoperands : ∀ operand ∈ Tree.operands node, Restores (program operand)) :
    ∀ place ∈ node.places, Restores (fill kind place) := by
  intro place hplace
  cases place with
  | filled operand => exact hoperands operand (Tree.mem_operands.mpr hplace)
  | missing field => exact restores_throw _

theorem restores_program (expression : Expression) : Restores (program expression) := by
  induction expression using Tree.operand_induction with
  | step expression ih =>
      cases hkind : expression.kind? with
      | some kind =>
          rw [program_node hkind]
          exact restores_inside ((restores_mapM (restores_fill ih)).map _)
      | none =>
          cases expression with
          | literal value => exact restores_pure _
          | external source => exact restores_pure _
          | _ => cases hkind

/-- A compiler is the same after compiling as before, with or without a fault. -/
theorem compile_snd (compiler : Compiler) (expression : Expression) :
    (compiler.compile expression).2 = compiler :=
  restores_program expression compiler

/-- What a place of a node comes to. -/
def fillOutcome (compiler : Compiler) (kind : Kind) : Place Expression → Except Fault Program
  | .filled operand => (compiler.compile operand).1
  | .missing field => .error (.missingOperand kind field)

theorem compile_node {node : Expression} {kind : Kind} (h : node.kind? = some kind)
    (compiler : Compiler) :
    (compiler.compile node).1 =
      if compiler.limits.maxDepth ≤ compiler.depth
      then .error (.tooDeep compiler.limits.maxDepth)
      else assemble node <$> node.places.mapM (compiler.deeper.fillOutcome kind) := by
  have hfill : ∀ place ∈ node.places, Restores (fill kind place) :=
    restores_fill fun operand _ => restores_program operand
  have hwalk : (fun place => (fill kind place compiler.deeper).1) =
      compiler.deeper.fillOutcome kind := by
    funext place
    cases place <;> rfl
  rw [compile, program_node h, inside_apply ((restores_mapM hfill).map _),
    (restores_mapM hfill).map_fst, mapM_fst hfill, hwalk]

theorem compile_leaf {expression : Expression} (h : expression.kind? = none)
    (compiler : Compiler) :
    (compiler.compile expression).1 = .ok (assemble expression []) := by
  cases expression with
  | literal value => rfl
  | external source => rfl
  | _ => cases h

/-! ### Which trees compile -/

theorem depth_deeper {compiler : Compiler} (h : compiler.depth < compiler.limits.maxDepth) :
    compiler.deeper.depth.toNat = compiler.depth.toNat + 1 := by
  have hbound := compiler.limits.maxDepth.toNat_lt
  rw [UInt64.lt_iff_toNat_lt] at h
  simp only [deeper, UInt64.toNat_add, UInt64.toNat_one]
  omega

theorem deeper_within {compiler : Compiler} (h : compiler.depth < compiler.limits.maxDepth) :
    compiler.deeper.depth ≤ compiler.deeper.limits.maxDepth := by
  rw [UInt64.le_iff_toNat_le, depth_deeper h]
  exact UInt64.lt_iff_toNat_lt.mp h

/-- The faults that compiling can find in a tree, from where the compiler is. -/
inductive Refuses (compiler : Compiler) (expression : Expression) : Fault → Prop
  | lacking {kind : Kind} {field : Field} :
      Tree.Lacks expression kind field →
      Refuses compiler expression (.missingOperand kind field)
  | tooDeep :
      compiler.limits.maxDepth.toNat < compiler.depth.toNat + Tree.nesting expression →
      Refuses compiler expression (.tooDeep compiler.limits.maxDepth)

/-- The fault of a tree that does not compile is in the tree. -/
theorem refuses_of_compile {expression : Expression} {compiler : Compiler} {fault : Fault}
    (hdepth : compiler.depth ≤ compiler.limits.maxDepth)
    (h : (compiler.compile expression).1 = .error fault) :
    Refuses compiler expression fault := by
  induction expression using Tree.operand_induction generalizing compiler with
  | step node ih =>
      cases hkind : node.kind? with
      | none =>
          rw [compile_leaf hkind] at h
          cases h
      | some kind =>
          rw [compile_node hkind] at h
          split at h
          · next hfull =>
              cases h
              have hpos := Tree.nesting_node_pos (Expression.isNode_of_kind hkind)
              rw [UInt64.le_iff_toNat_le] at hfull
              exact .tooDeep (by omega)
          · next hroom =>
              rw [UInt64.not_le] at hroom
              have hdeeper := depth_deeper hroom
              rw [Walk.map_eq_error, Walk.mapM_eq_error] at h
              obtain ⟨before, place, after, hplaces, -, hplace⟩ := h
              have hmember : place ∈ node.places := by simp [hplaces]
              cases place with
              | missing field =>
                  cases hplace
                  exact .lacking (Tree.lacks_iff.mpr (Or.inl ⟨hkind, hmember⟩))
              | filled operand =>
                  have hoperand := Tree.mem_operands.mpr hmember
                  cases ih operand hoperand (deeper_within hroom) hplace with
                  | lacking hlacks =>
                      exact .lacking (Tree.lacks_iff.mpr (Or.inr ⟨operand, hoperand, hlacks⟩))
                  | tooDeep hdeep =>
                      have hlt := Tree.nesting_operand_lt (Expression.isNode_of_kind hkind) hoperand
                      rw [hdeeper] at hdeep
                      exact .tooDeep (by simp only [deeper] at hdeep; omega)

/-- A tree that compiles has no fault in it. -/
theorem not_refuses_of_compile {expression : Expression} {compiler : Compiler} {program : Program}
    (hdepth : compiler.depth ≤ compiler.limits.maxDepth)
    (h : (compiler.compile expression).1 = .ok program) (fault : Fault) :
    ¬ Refuses compiler expression fault := by
  induction expression using Tree.operand_induction
    generalizing compiler program fault with
  | step node ih =>
      cases hkind : node.kind? with
      | none =>
          have hleaf := Expression.nesting_leaf hkind
          rw [UInt64.le_iff_toNat_le] at hdepth
          rintro (hlacks | hdeep)
          · exact Expression.not_lacks_leaf hkind _ _ hlacks
          · omega
      | some kind =>
          rw [compile_node hkind] at h
          split at h
          · cases h
          · next hroom =>
              rw [UInt64.not_le] at hroom
              have hdeeper := depth_deeper hroom
              have hinside := deeper_within hroom
              rw [UInt64.lt_iff_toNat_lt] at hroom
              obtain ⟨programs, hwalk, -⟩ := Walk.map_eq_ok.mp h
              have hfilled := Walk.exists_mapM_eq_ok.mp ⟨programs, hwalk⟩
              have hsound : ∀ operand ∈ Tree.operands node, ∀ fault,
                  ¬ Refuses compiler.deeper operand fault := by
                intro operand hoperand
                obtain ⟨result, hresult⟩ :=
                  hfilled _ (Tree.mem_operands.mp hoperand)
                exact ih operand hoperand hinside hresult
              rintro (hlacks | hdeep)
              · rcases Tree.lacks_iff.mp hlacks with
                  ⟨-, hmissing⟩ | ⟨operand, hoperand, hlacks⟩
                · obtain ⟨result, hresult⟩ := hfilled _ hmissing
                  cases hresult
                · exact hsound operand hoperand _ (.lacking hlacks)
              · have hshallow : Tree.nesting node ≤
                    (compiler.limits.maxDepth.toNat - compiler.depth.toNat - 1) + 1 := by
                  rw [Tree.nesting_node_le (Expression.isNode_of_kind hkind)]
                  intro operand hoperand
                  have hnot : ¬ _ := fun hdeep => hsound operand hoperand _ (.tooDeep hdeep)
                  rw [hdeeper] at hnot
                  simp only [deeper] at hnot
                  omega
                omega

/-- Which trees compile, said without compiling them. -/
theorem compile_succeeds_iff {expression : Expression} {compiler : Compiler}
    (hdepth : compiler.depth ≤ compiler.limits.maxDepth) :
    (∃ program, (compiler.compile expression).1 = .ok program) ↔
      (∀ kind field, ¬ Tree.Lacks expression kind field) ∧
        compiler.depth.toNat + Tree.nesting expression ≤ compiler.limits.maxDepth.toNat := by
  constructor
  · rintro ⟨program, h⟩
    have hsound := not_refuses_of_compile hdepth h
    exact ⟨fun kind field hlacks => hsound _ (.lacking hlacks),
      Nat.le_of_not_lt fun hdeep => hsound _ (.tooDeep hdeep)⟩
  · rintro ⟨hcomplete, hshallow⟩
    cases h : (compiler.compile expression).1 with
    | ok program => exact ⟨program, rfl⟩
    | error fault =>
        rcases refuses_of_compile hdepth h with hlacks | hdeep
        · exact absurd hlacks (hcomplete _ _)
        · omega

end Animation.Compiler
