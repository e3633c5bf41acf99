import Animation.Proofs.Compiler.Outcome

/-!
The counter of a compiler, watched. A compiler counts the nodes that it is
inside of, with a number of limited size that is raised on the way into a node
and lowered on the way out. Here the compiler is run once more with somebody
looking on, who notes the counter whenever it is about to change and whenever
a tree is begun or done with, together with the nodes around. That does not
change what the compiler does, and at every such moment the counter is right.
-/

namespace Animation.Compiler

/-- Compiles one expression after the other with the same compiler, whether or
not those before have compiled. -/
def compileEach : List Expression → Compiler → List (Except Fault Program) × Compiler
  | [], compiler => ([], compiler)
  | call :: rest, compiler =>
    let (outcome, after) := compiler.compile call
    let (outcomes, last) := compileEach rest after
    (outcome :: outcomes, last)

/-- What is about to happen, or has just happened. -/
inductive Step where
  /-- An expression is about to be compiled. -/
  | start
  /-- The counter is about to be raised. -/
  | raise
  /-- The counter is about to be lowered. -/
  | lower
  /-- An expression has been compiled or refused. -/
  | stop
  deriving DecidableEq, Repr

structure Moment where
  step : Step
  /-- The nodes that are being compiled, the innermost first. -/
  around : List Expression
  counter : UInt64

/-- A compiler and what has been noted about it, the oldest first. -/
structure Watch where
  compiler : Compiler
  moments : List Moment := []

theorem program_leaf {expression : Expression} (h : expression.kind? = none) :
    program expression = pure (assemble expression []) := by
  cases expression with
  | literal value => rfl
  | external source => rfl
  | _ => cases h

namespace Watch

def note (step : Step) (around : List Expression) (watch : Watch) : Watch :=
  { watch with moments := watch.moments ++ [⟨step, around, watch.compiler.depth⟩] }

/-- A computation of a compiler that is being watched. -/
abbrev Action := ExceptT Fault (StateM Watch)

variable {α β : Type}

/-- Does `body` one node further inside, if the limit allows. -/
def inside (node : Expression) (around : List Expression) (body : Action α) : Action α :=
  fun watch =>
    if watch.compiler.limits.maxDepth ≤ watch.compiler.depth then
      (.error (.tooDeep watch.compiler.limits.maxDepth), watch)
    else
      let begun := watch.note .raise around
      let (result, done) := body { begun with compiler := begun.compiler.deeper }
      let after := done.note .lower (node :: around)
      (result,
        { after with compiler := { after.compiler with depth := after.compiler.depth - 1 } })

/-- Does `body` and notes its beginning and its end. -/
def between (around : List Expression) (body : Action α) : Action α := fun watch =>
  let (result, after) := body (watch.note .start around)
  (result, after.note .stop around)

/-- Compiles an expression that has these nodes around it. -/
def program (around : List Expression) (expression : Expression) : Action Program :=
  between around <|
    match expression.kind? with
    | none => pure (assemble expression [])
    | some kind => inside expression around <|
      assemble expression <$> expression.places.attach.mapM fun
        | ⟨.filled operand, _⟩ => program (expression :: around) operand
        | ⟨.missing field, _⟩ => throw (.missingOperand kind field)
termination_by sizeOf expression
decreasing_by exact Expression.sizeOf_lt ‹_›

def compileEach : List Expression → Watch → List (Except Fault Program) × Watch
  | [], watch => ([], watch)
  | call :: rest, watch =>
    let (outcome, after) := program [] call watch
    let (outcomes, last) := compileEach rest after
    (outcome :: outcomes, last)

/-- Compiles what is in a place of a node of this kind. -/
def fill (around : List Expression) (kind : Kind) : Place Expression → Action Program
  | .filled operand => program around operand
  | .missing field => throw (.missingOperand kind field)

theorem mapM_attach {items : List α} {visit : { item // item ∈ items } → Action β}
    (other : α → Action β) (h : ∀ item, visit item = other item.1) :
    items.attach.mapM visit = items.mapM other := by
  obtain rfl : visit = other ∘ Subtype.val := funext h
  rw [← List.mapM_map, List.attach_map_subtype_val]

theorem program_leaf {expression : Expression} (h : expression.kind? = none)
    (around : List Expression) :
    program around expression = between around (pure (assemble expression [])) := by
  rw [program, h]

theorem program_node {node : Expression} {kind : Kind} (h : node.kind? = some kind)
    (around : List Expression) :
    program around node = between around (inside node around
      (assemble node <$> node.places.mapM (fill (node :: around) kind))) := by
  rw [program, h]
  change between around (inside node around (assemble node <$> List.mapM _ node.places.attach)) = _
  rw [mapM_attach (fill (node :: around) kind)]
  rintro ⟨_ | _, _⟩ <;> rfl

/-! ### Nobody is disturbed -/

/-- Watched, the compiler has the same outcome and is the same afterwards. -/
def Mirrors (watched : Action α) (action : Compiler.Action α) : Prop :=
  ∀ watch, (watched watch).1 = (action watch.compiler).1 ∧
    (watched watch).2.compiler = (action watch.compiler).2

theorem mirrors_pure (value : α) : Mirrors (pure value) (pure value) := fun _ => ⟨rfl, rfl⟩

theorem mirrors_throw (fault : Fault) : Mirrors (throw fault : Action α) (throw fault) :=
  fun _ => ⟨rfl, rfl⟩

theorem Mirrors.bind {first : Action α} {next : α → Action β} {plain : Compiler.Action α}
    {later : α → Compiler.Action β} (hfirst : Mirrors first plain)
    (hnext : ∀ value, Mirrors (next value) (later value)) :
    Mirrors (first >>= next) (plain >>= later) := by
  intro watch
  obtain ⟨houtcome, hafter⟩ := hfirst watch
  rw [bind_apply, bind_apply]
  rcases hwatched : first watch with ⟨fault | value, after⟩
  · rw [hwatched] at houtcome hafter
    rcases hplain : plain watch.compiler with ⟨other, last⟩
    rw [hplain] at houtcome hafter
    cases houtcome
    exact ⟨rfl, hafter⟩
  · rw [hwatched] at houtcome hafter
    rcases hplain : plain watch.compiler with ⟨other, last⟩
    rw [hplain] at houtcome hafter
    cases houtcome
    cases hafter
    exact hnext value after

theorem Mirrors.map {watched : Action α} {action : Compiler.Action α} (h : Mirrors watched action)
    (convert : α → β) : Mirrors (convert <$> watched) (convert <$> action) := by
  rw [map_eq_pure_bind, map_eq_pure_bind]
  exact h.bind fun value => mirrors_pure (convert value)

theorem mirrors_mapM {visit : α → Action β} {plain : α → Compiler.Action β} {items : List α}
    (h : ∀ item ∈ items, Mirrors (visit item) (plain item)) :
    Mirrors (items.mapM visit) (items.mapM plain) := by
  induction items with
  | nil => exact mirrors_pure []
  | cons item rest ih =>
      obtain ⟨hitem, hrest⟩ := List.forall_mem_cons.mp h
      rw [List.mapM_cons, List.mapM_cons]
      exact hitem.bind fun _ => (ih hrest).bind fun _ => mirrors_pure _

theorem Mirrors.inside {body : Action α} {action : Compiler.Action α} (h : Mirrors body action)
    (node : Expression) (around : List Expression) :
    Mirrors (inside node around body) (Compiler.inside action) := by
  intro watch
  unfold Watch.inside Compiler.inside
  split
  · exact ⟨rfl, rfl⟩
  · let begun := watch.note .raise around
    obtain ⟨houtcome, hafter⟩ := h { begun with compiler := begun.compiler.deeper }
    exact ⟨houtcome,
      congrArg (fun after : Compiler => { after with depth := after.depth - 1 }) hafter⟩

theorem Mirrors.between {body : Action α} {action : Compiler.Action α} (h : Mirrors body action)
    (around : List Expression) : Mirrors (between around body) action := by
  intro watch
  exact h (watch.note .start around)

theorem mirrors_program (expression : Expression) (around : List Expression) :
    Mirrors (program around expression) (Compiler.program expression) := by
  induction expression using Tree.operand_induction generalizing around with
  | step expression ih =>
      cases hkind : expression.kind? with
      | none =>
          rw [program_leaf hkind, Compiler.program_leaf hkind]
          exact (mirrors_pure _).between around
      | some kind =>
          rw [program_node hkind, Compiler.program_node hkind]
          apply Mirrors.between
          apply Mirrors.inside
          apply Mirrors.map
          apply mirrors_mapM
          rintro (operand | field) hplace
          · exact ih operand (Tree.mem_operands.mpr hplace) _
          · exact mirrors_throw _

theorem mirrors_compileEach (calls : List Expression) (watch : Watch) :
    (compileEach calls watch).1 = (Compiler.compileEach calls watch.compiler).1 ∧
      (compileEach calls watch).2.compiler = (Compiler.compileEach calls watch.compiler).2 := by
  induction calls generalizing watch with
  | nil => exact ⟨rfl, rfl⟩
  | cons call rest ih =>
      obtain ⟨houtcome, hafter⟩ := mirrors_program call [] watch
      obtain ⟨houtcomes, hlast⟩ := ih (program [] call watch).2
      rw [hafter] at houtcomes hlast
      exact ⟨congrArg₂ _ houtcome houtcomes, hlast⟩

/-! ### The counter is right -/

/-- A stack of nodes, each an operand of the next, down to one of the calls. -/
inductive Nested (calls : List Expression) : List Expression → Prop
  | nil : Nested calls []
  | call {node : Expression} :
      Tree.isNode node = true → node ∈ calls → Nested calls [node]
  | operand {node outer : Expression} {around : List Expression} :
      Tree.isNode node = true → node ∈ Tree.operands outer →
      Nested calls (outer :: around) → Nested calls (node :: outer :: around)

/-- At this moment the counter tells how many nodes are being compiled, it is
within the limit, and the change that is about to be made to it is exact. -/
structure Right (calls : List Expression) (limits : Limits) (moment : Moment) : Prop where
  nested : Nested calls moment.around
  counts : moment.counter.toNat = moment.around.length
  within : moment.counter ≤ limits.maxDepth
  raised : moment.step = .raise → (moment.counter + 1).toNat = moment.counter.toNat + 1
  lowered : moment.step = .lower → (moment.counter - 1).toNat + 1 = moment.counter.toNat

/-- The counter is right now, inside of these nodes, and was before. -/
structure Fits (calls : List Expression) (limits : Limits) (around : List Expression)
    (watch : Watch) : Prop where
  limit : watch.compiler.limits = limits
  counts : watch.compiler.depth.toNat = around.length
  within : watch.compiler.depth ≤ limits.maxDepth
  right : ∀ moment ∈ watch.moments, Right calls limits moment

/-- If the counter is right before the action, it is during and after it. -/
def Keeps (calls : List Expression) (limits : Limits) (around : List Expression)
    (action : Action α) : Prop :=
  ∀ watch, Fits calls limits around watch → Fits calls limits around (action watch).2

variable {calls around : List Expression} {limits : Limits} {watch : Watch}

theorem Fits.note (h : Fits calls limits around watch) (hnested : Nested calls around)
    (step : Step)
    (hraise : step = .raise → (watch.compiler.depth + 1).toNat = watch.compiler.depth.toNat + 1)
    (hlower : step = .lower → (watch.compiler.depth - 1).toNat + 1 = watch.compiler.depth.toNat) :
    Fits calls limits around (watch.note step around) where
  limit := h.limit
  counts := h.counts
  within := h.within
  right := by
    intro moment hmoment
    rcases List.mem_append.mp hmoment with hbefore | hnow
    · exact h.right moment hbefore
    · obtain rfl := List.mem_singleton.mp hnow
      exact ⟨hnested, h.counts, h.within, hraise, hlower⟩

theorem keeps_pure (value : α) : Keeps calls limits around (pure value) := fun _ h => h

theorem keeps_throw (fault : Fault) : Keeps calls limits around (throw fault : Action α) :=
  fun _ h => h

theorem Keeps.bind {first : Action α} {next : α → Action β}
    (hfirst : Keeps calls limits around first)
    (hnext : ∀ value, Keeps calls limits around (next value)) :
    Keeps calls limits around (first >>= next) := by
  intro watch h
  have hafter := hfirst watch h
  rw [bind_apply]
  rcases hrun : first watch with ⟨fault | value, after⟩
  · rw [hrun] at hafter
    exact hafter
  · rw [hrun] at hafter
    exact hnext value after hafter

theorem Keeps.map {action : Action α} (h : Keeps calls limits around action) (convert : α → β) :
    Keeps calls limits around (convert <$> action) := by
  rw [map_eq_pure_bind]
  exact h.bind fun value => keeps_pure (convert value)

theorem keeps_mapM {visit : α → Action β} {items : List α}
    (h : ∀ item ∈ items, Keeps calls limits around (visit item)) :
    Keeps calls limits around (items.mapM visit) := by
  induction items with
  | nil => exact keeps_pure []
  | cons item rest ih =>
      obtain ⟨hitem, hrest⟩ := List.forall_mem_cons.mp h
      rw [List.mapM_cons]
      exact hitem.bind fun _ => (ih hrest).bind fun _ => keeps_pure _

theorem Keeps.between {body : Action α} (h : Keeps calls limits around body)
    (hnested : Nested calls around) : Keeps calls limits around (between around body) := by
  intro watch hfits
  have hbegun := hfits.note hnested .start (by simp) (by simp)
  exact (h _ hbegun).note hnested .stop (by simp) (by simp)

theorem toNat_lowered {counter : UInt64} {count : Nat} (h : counter.toNat = count + 1) :
    (counter - 1).toNat + 1 = count + 1 := by
  have hone : (1 : UInt64) ≤ counter := by
    rw [UInt64.le_iff_toNat_le, h]
    exact Nat.succ_le_succ (Nat.zero_le count)
  rw [UInt64.toNat_sub_of_le _ _ hone, h]
  rfl

/-- The limit is looked at before the counter is raised, so that raising it is
exact even if the limit is the largest number there is; and the node is left
by the same way whatever happens in it. -/
theorem Keeps.inside {node : Expression} {body : Action α}
    (h : Keeps calls limits (node :: around) body) (hnested : Nested calls around)
    (hnode : Nested calls (node :: around)) :
    Keeps calls limits around (inside node around body) := by
  intro watch hfits
  unfold Watch.inside
  split
  · exact hfits
  · next hroom =>
      have hless := UInt64.not_le.mp hroom
      have hdeeper := depth_deeper hless
      have hbegun := hfits.note hnested .raise (fun _ => hdeeper) (by simp)
      have hinside : Fits calls limits (node :: around)
          { watch.note .raise around with compiler := watch.compiler.deeper } :=
        ⟨hfits.limit, hdeeper.trans (congrArg _ hfits.counts),
          hfits.limit ▸ deeper_within hless, hbegun.right⟩
      have hdone := h _ hinside
      have hlower := toNat_lowered hdone.counts
      have hexact := Nat.succ.inj hlower
      have hleft := hdone.note hnode .lower (by simp) fun _ => hlower.trans hdone.counts.symm
      refine ⟨hdone.limit, hexact, ?_, hleft.right⟩
      rw [UInt64.le_iff_toNat_le]
      exact hexact.trans_le (hfits.counts ▸ UInt64.le_iff_toNat_le.mp hfits.within)

theorem keeps_program (expression : Expression) (hnested : Nested calls around)
    (hnode : Tree.isNode expression = true → Nested calls (expression :: around)) :
    Keeps calls limits around (program around expression) := by
  induction expression using Tree.operand_induction generalizing around with
  | step expression ih =>
      cases hkind : expression.kind? with
      | none =>
          rw [program_leaf hkind]
          exact (keeps_pure _).between hnested
      | some kind =>
          have hinside := hnode (Expression.isNode_of_kind hkind)
          rw [program_node hkind]
          refine (((keeps_mapM ?_).map _).inside hnested hinside).between hnested
          rintro (operand | field) hplace
          · have hoperand := Tree.mem_operands.mpr hplace
            exact ih operand hoperand hinside fun hnode => .operand hnode hoperand hinside
          · exact keeps_throw _

theorem keeps_compileEach {queue : List Expression} (hqueue : ∀ call ∈ queue, call ∈ calls)
    (h : Fits calls limits [] watch) : Fits calls limits [] (compileEach queue watch).2 := by
  induction queue generalizing watch with
  | nil => exact h
  | cons call rest ih =>
      obtain ⟨hcall, hrest⟩ := List.forall_mem_cons.mp hqueue
      exact ih hrest (keeps_program call .nil (fun hnode => .call hnode hcall) watch h)

end Watch

theorem compileEach_eq (calls : List Expression) (compiler : Compiler) :
    compileEach calls compiler = (calls.map fun call => (compiler.compile call).1, compiler) := by
  induction calls with
  | nil => rfl
  | cons call rest ih => simp only [compileEach, compile_snd, ih, List.map_cons]

/-- A compiler can be used any number of times, whatever the limit is. Each call
comes to what it comes to with a compiler of its own, and the counter is at zero
again after it. In between, whenever the counter changes or an expression is
begun or done with, it tells how many nodes are being compiled, which are never
more than the limit allows, and raising and lowering it are exact. -/
theorem counter_counts (limits : Limits) (calls : List Expression) :
    let fresh : Compiler := { limits }
    let watched := Watch.compileEach calls { compiler := fresh }
    compileEach calls fresh = (calls.map (·.compile limits), fresh) ∧
      (watched.1, watched.2.compiler) = compileEach calls fresh ∧
      ∀ moment ∈ watched.2.moments, Watch.Right calls limits moment := by
  intro fresh watched
  have hbegin : Watch.Fits calls limits [] { compiler := fresh } :=
    ⟨rfl, rfl, UInt64.zero_le, by simp⟩
  obtain ⟨houtcomes, hlast⟩ := Watch.mirrors_compileEach calls { compiler := fresh }
  refine ⟨compileEach_eq calls fresh, Prod.ext houtcomes hlast, ?_⟩
  exact (Watch.keeps_compileEach (fun _ hcall => hcall) hbegin).right

/-- A node that is too deep: the counter is not raised for it, and it is lowered
for the node around, which has been refused for the same reason. -/
example :
    let deep : Expression := .apply .abs (.apply .abs (.number 1))
    let (_, watch) := Watch.program [] deep { compiler := { limits := { maxDepth := 1 } } }
    watch.moments.map (fun moment => (moment.step, moment.counter)) =
      [(.start, 0), (.raise, 0), (.start, 1), (.stop, 1), (.lower, 1), (.stop, 0)] := by
  cbv

end Animation.Compiler
