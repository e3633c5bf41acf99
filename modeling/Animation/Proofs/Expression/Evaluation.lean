import Animation.Proofs.Compiler.Outcome
import Animation.Proofs.Program.Outcome

/-!
What an expression means, without compiling it. The rules below evaluate a
tree from left to right and depth first, and each says what happens to the
store and which events it adds. Nothing is said of trees that lack an operand
where it is needed.

Compiling is right by these rules: one pass of the program that a tree
compiles to is the one evaluation that the tree has, from every store. The
outcome is the whole outcome, with every cell that a derived reading has
counted and every read, write and call in order.
-/

namespace Animation.Expression

mutual

inductive Evaluates : Expression → Store → Outcome Float → Prop
  | literal {value store} :
      Evaluates (.literal value) store ⟨value, store, []⟩
  | number {value store} :
      Evaluates (.number value) store ⟨value, store, []⟩
  /-- Without a reading there is NaN. -/
  | external {source store reading after} :
      store.read source = (reading, after) →
      Evaluates (.external source) store ⟨reading.getD Number.nan, after, [.read source]⟩
  | value {source store reading after} :
      store.read source = (reading, after) →
      Evaluates (.value (some source)) store ⟨reading.getD Number.nan, after, [.read source]⟩
  | noSource {store} :
      Evaluates (.value none) store ⟨Number.nan, store, []⟩
  /-- The operator is applied as soon as the next operand is there. -/
  | binary {op a b others store first second rest} :
      Evaluates a store first →
      Evaluates b first.store second →
      Accumulates op.apply (op.apply first.value second.value) others second.store rest →
      Evaluates (.binary op (some a) (some b) others) store
        ⟨rest.value, rest.store, first.events ++ (second.events ++ rest.events)⟩
  | unary {op v store operand} :
      Evaluates v store operand →
      Evaluates (.unary op (some v)) store
        ⟨op.apply operand.value, operand.store, operand.events⟩
  | compare {op left right store first second} :
      Evaluates left store first →
      Evaluates right first.store second →
      Evaluates (.compare op (some left) (some right)) store
        ⟨Number.ofBool (op.holds first.value second.value), second.store,
          first.events ++ second.events⟩
  | condTrue {expr ifNode elseNode store test branch} :
      Evaluates expr store test →
      Number.isTrue test.value = true →
      Evaluates ifNode test.store branch →
      Evaluates (.cond (some expr) (some ifNode) elseNode) store
        ⟨branch.value, branch.store, test.events ++ branch.events⟩
  | condFalse {expr ifNode elseNode store test branch} :
      Evaluates expr store test →
      Number.isTrue test.value = false →
      Evaluates elseNode test.store branch →
      Evaluates (.cond (some expr) ifNode (some elseNode)) store
        ⟨branch.value, branch.store, test.events ++ branch.events⟩
  | condNoElse {expr ifNode store test} :
      Evaluates expr store test →
      Number.isTrue test.value = false →
      Evaluates (.cond (some expr) ifNode none) store ⟨0, test.store, test.events⟩
  /-- A derived cell does not take what is written to it, and nobody asks. -/
  | set {source target store operand} :
      Evaluates source store operand →
      Evaluates (.set (some source) (some target)) store
        ⟨operand.value, operand.store.put target (some operand.value),
          operand.events ++ [.write target operand.value]⟩
  | noTarget {source store operand} :
      Evaluates source store operand →
      Evaluates (.set (some source) none) store operand
  | block {nodes store last} :
      Accumulates (fun _ latest => latest) 0 nodes store last →
      Evaluates (.block nodes) store last
  | call {args callback store values} :
      EvaluatesAll args store values →
      Evaluates (.call args (some callback)) store
        ⟨0, values.store.putEach (callback.writes values.value values.store),
          values.events ++ .call callback values.value ::
            Event.ofWrites (callback.writes values.value values.store)⟩
  | noCallback {args store values} :
      EvaluatesAll args store values →
      Evaluates (.call args none) store ⟨0, values.store, values.events⟩

/-- Operands one after the other, each combined with what there is so far. -/
inductive Accumulates :
    (Float → Float → Float) → Float → List Expression → Store → Outcome Float → Prop
  | nil {combine soFar store} :
      Accumulates combine soFar [] store ⟨soFar, store, []⟩
  | cons {combine soFar operand operands store first rest} :
      Evaluates operand store first →
      Accumulates combine (combine soFar first.value) operands first.store rest →
      Accumulates combine soFar (operand :: operands) store
        ⟨rest.value, rest.store, first.events ++ rest.events⟩

inductive EvaluatesAll : List Expression → Store → Outcome (List Float) → Prop
  | nil {store} :
      EvaluatesAll [] store ⟨[], store, []⟩
  | cons {operand operands store first rest} :
      Evaluates operand store first →
      EvaluatesAll operands first.store rest →
      EvaluatesAll (operand :: operands) store
        ⟨first.value :: rest.value, rest.store, first.events ++ rest.events⟩

end

/-- A program makes the same passes as an expression has evaluations. -/
def Runs (expression : Expression) (program : Program) : Prop :=
  ∀ store outcome, expression.Evaluates store outcome ↔ program.run store = outcome

theorem evaluatesAll_iff {operands : List Expression} {programs : List Program}
    (h : List.Forall₂ Runs operands programs) (store : Store) (outcome : Outcome (List Float)) :
    EvaluatesAll operands store outcome ↔ Program.runAll programs store = outcome := by
  induction h generalizing store outcome with
  | nil =>
      constructor
      · intro h
        cases h
        rfl
      · rintro rfl
        exact .nil
  | cons hfirst _ ih =>
      constructor
      · intro h
        cases h with
        | cons first rest =>
            have hrun := (hfirst _ _).mp first
            have hrest := (ih _ _).mp rest
            simp only [Program.runAll_cons, hrun, hrest]
      · rintro rfl
        exact .cons ((hfirst _ _).mpr rfl) ((ih _ _).mpr rfl)

theorem accumulates_iff {operands : List Expression} {programs : List Program}
    (h : List.Forall₂ Runs operands programs) (combine : Float → Float → Float) (soFar : Float)
    (store : Store) (outcome : Outcome Float) :
    Accumulates combine soFar operands store outcome ↔
      (List.foldl combine soFar <$> Program.runAll programs) store = outcome := by
  induction h generalizing soFar store outcome with
  | nil =>
      constructor
      · intro h
        cases h
        rfl
      · rintro rfl
        exact .nil
  | cons hfirst _ ih =>
      constructor
      · intro h
        cases h with
        | cons first rest =>
            have hrun := (hfirst _ _).mp first
            have hrest := (ih _ _ _).mp rest
            simp only [Pass.map_apply] at hrest
            simp only [Pass.map_apply, Program.runAll_cons, hrun, List.foldl_cons, ← hrest]
      · rintro rfl
        exact .cons ((hfirst _ _).mpr rfl) ((ih _ _ _).mpr rfl)

/-! ### One family after the other -/

theorem runs_binary {op : FoldOp} {a b : Expression} {others : List Expression}
    {first second : Program} {rest : List Program} (ha : Runs a first) (hb : Runs b second)
    (hothers : List.Forall₂ Runs others rest) :
    Runs (.binary op (some a) (some b) others) (.fold op first (second :: rest)) := by
  have hrest := accumulates_iff hothers op.apply
  intro store outcome
  simp only [Program.run_fold, Program.runAll_cons, List.foldl_cons]
  constructor
  · intro h
    cases h with
    | binary hx hy hz =>
        have hz := (hrest _ _ _).mp hz
        simp only [Pass.map_apply] at hz
        rw [(ha _ _).mp hx, (hb _ _).mp hy, ← hz]
  · rintro rfl
    exact .binary ((ha _ _).mpr rfl) ((hb _ _).mpr rfl) ((hrest _ _ _).mpr rfl)

theorem runs_unary {op : UnaryOp} {v : Expression} {program : Program} (hv : Runs v program) :
    Runs (.unary op (some v)) (.unary op program) := by
  intro store outcome
  simp only [Program.run_unary]
  constructor
  · intro h
    cases h with
    | unary hx => rw [(hv _ _).mp hx]
  · rintro rfl
    exact .unary ((hv _ _).mpr rfl)

theorem runs_compare {op : Comparison} {left right : Expression} {first second : Program}
    (hleft : Runs left first) (hright : Runs right second) :
    Runs (.compare op (some left) (some right)) (.compare op first second) := by
  intro store outcome
  simp only [Program.run_compare]
  constructor
  · intro h
    cases h with
    | compare hx hy =>
        rw [(hleft _ _).mp hx, (hright _ _).mp hy]
        rfl
  · rintro rfl
    exact .compare ((hleft _ _).mpr rfl) ((hright _ _).mpr rfl)

theorem runs_cond {expr ifNode elseNode : Expression} {test positive negative : Program}
    (hexpr : Runs expr test) (hif : Runs ifNode positive) (helse : Runs elseNode negative) :
    Runs (.cond (some expr) (some ifNode) (some elseNode)) (.cond test positive negative) := by
  intro store outcome
  simp only [Program.run_cond]
  constructor
  · intro h
    cases h with
    | condTrue hx htrue hy => simp only [(hexpr _ _).mp hx, htrue, if_true, (hif _ _).mp hy]
    | condFalse hx hfalse hy =>
        simp only [(hexpr _ _).mp hx, hfalse, Bool.false_eq_true, if_false, (helse _ _).mp hy]
  · rintro rfl
    have htest := (hexpr store _).mpr rfl
    cases hx : Number.isTrue (test.run store).value with
    | true =>
        simp only [if_true]
        exact .condTrue htest hx ((hif _ _).mpr rfl)
    | false =>
        simp only [Bool.false_eq_true, if_false]
        exact .condFalse htest hx ((helse _ _).mpr rfl)

theorem runs_cond_no_else {expr ifNode : Expression} {test positive : Program}
    (hexpr : Runs expr test) (hif : Runs ifNode positive) :
    Runs (.cond (some expr) (some ifNode) none) (.cond test positive (.constant 0)) := by
  intro store outcome
  simp only [Program.run_cond]
  constructor
  · intro h
    cases h with
    | condTrue hx htrue hy => simp only [(hexpr _ _).mp hx, htrue, if_true, (hif _ _).mp hy]
    | condNoElse hx hfalse =>
        simp only [(hexpr _ _).mp hx, hfalse, Bool.false_eq_true, if_false, Program.run_constant,
          List.append_nil]
  · rintro rfl
    have htest := (hexpr store _).mpr rfl
    cases hx : Number.isTrue (test.run store).value with
    | true =>
        simp only [if_true]
        exact .condTrue htest hx ((hif _ _).mpr rfl)
    | false =>
        simp only [Bool.false_eq_true, if_false, Program.run_constant, List.append_nil]
        exact .condNoElse htest hx

theorem runs_set {source : Expression} {program : Program} (target : Option Ref)
    (hsource : Runs source program) : Runs (.set (some source) target) (.set program target) := by
  intro store outcome
  cases target with
  | none =>
      rw [Program.run_set_none]
      constructor
      · intro h
        cases h with
        | noTarget hx => exact (hsource _ _).mp hx
      · rintro rfl
        exact .noTarget ((hsource _ _).mpr rfl)
  | some cell =>
      simp only [Program.run_set]
      constructor
      · intro h
        cases h with
        | set hx => rw [(hsource _ _).mp hx]
      · rintro rfl
        exact .set ((hsource _ _).mpr rfl)

theorem runs_block {nodes : List Expression} {programs : List Program}
    (hnodes : List.Forall₂ Runs nodes programs) : Runs (.block nodes) (.block programs) := by
  have hlast : ∀ values : List Float,
      values.foldl (fun _ latest => latest) 0 = values.getLastD 0 := by
    intro values
    induction values using List.reverseRecOn with
    | nil => rfl
    | append_singleton values last _ => simp
  have hall := accumulates_iff hnodes (fun _ latest => latest) 0
  intro store outcome
  simp only [Pass.map_apply, hlast] at hall
  simp only [Program.run_block]
  constructor
  · intro h
    cases h with
    | block hlast => exact (hall _ _).mp hlast
  · intro h
    exact .block ((hall _ _).mpr h)

theorem runs_call {args : List Expression} {programs : List Program} (callback : Option Callback)
    (hargs : List.Forall₂ Runs args programs) :
    Runs (.call args callback) (.call programs callback) := by
  have hall := evaluatesAll_iff hargs
  intro store outcome
  cases callback with
  | none =>
      simp only [Program.run_call_none]
      constructor
      · intro h
        cases h with
        | noCallback hargs => rw [(hall _ _).mp hargs]
      · rintro rfl
        exact .noCallback ((hall _ _).mpr rfl)
  | some host =>
      simp only [Program.run_call]
      constructor
      · intro h
        cases h with
        | call hargs => rw [(hall _ _).mp hargs]
      · rintro rfl
        exact .call ((hall _ _).mpr rfl)

/-- A leaf makes the passes that it has evaluations, without any operand. -/
theorem runs_leaf {leaf : Expression} (h : leaf.kind? = none) :
    Runs leaf (Compiler.assemble leaf []) := by
  intro store outcome
  cases leaf with
  | literal value =>
      constructor
      · intro h
        cases h
        rfl
      · rintro rfl
        exact .literal
  | external source =>
      constructor
      · intro h
        cases h with
        | external hread => simp only [Compiler.assemble, Program.run, Pass.read, hread]
      · rintro rfl
        exact .external rfl
  | _ => cases h

/-! ### All families at once -/

/-- There is an operand in this place, and the program is right for it. -/
def FilledBy (place : Place Expression) (program : Program) : Prop :=
  ∃ operand, .filled operand = place ∧ Runs operand program

theorem filledBy_required {field : Field} {slot : Option Expression} {program : Program}
    (h : FilledBy (.required field slot) program) :
    ∃ operand, slot = some operand ∧ Runs operand program := by
  obtain ⟨operand, hplace, hruns⟩ := h
  exact ⟨operand, Place.filled_eq_required.mp hplace, hruns⟩

theorem filledBy_map {operands : List Expression} {programs : List Program}
    (h : List.Forall₂ FilledBy (operands.map .filled) programs) :
    List.Forall₂ Runs operands programs := by
  refine (List.forall₂_map_left_iff.mp h).imp fun operand program hfilled => ?_
  obtain ⟨_, ⟨⟩, hruns⟩ := hfilled
  exact hruns

/-- A node is assembled from programs for its places, and runs as it means. -/
theorem runs_node {node : Expression} {programs : List Program}
    (h : List.Forall₂ FilledBy node.places programs) :
    Runs node (Compiler.assemble node programs) := by
  cases node with
  | literal _ | external _ =>
      cases h
      exact runs_leaf rfl
  | binary op a b others =>
      rcases h with _ | ⟨hfirst, _ | ⟨hsecond, hothers⟩⟩
      obtain ⟨a, rfl, ha⟩ := filledBy_required hfirst
      obtain ⟨b, rfl, hb⟩ := filledBy_required hsecond
      exact runs_binary ha hb (filledBy_map hothers)
  | unary op v =>
      rcases h with _ | ⟨hfirst, _ | _⟩
      obtain ⟨v, rfl, hv⟩ := filledBy_required hfirst
      exact runs_unary hv
  | compare op left right =>
      rcases h with _ | ⟨hfirst, _ | ⟨hsecond, _ | _⟩⟩
      obtain ⟨left, rfl, hleft⟩ := filledBy_required hfirst
      obtain ⟨right, rfl, hright⟩ := filledBy_required hsecond
      exact runs_compare hleft hright
  | cond expr ifNode elseNode =>
      rcases h with _ | ⟨hfirst, _ | ⟨hsecond, hthird⟩⟩
      obtain ⟨expr, rfl, hexpr⟩ := filledBy_required hfirst
      obtain ⟨ifNode, rfl, hif⟩ := filledBy_required hsecond
      cases elseNode with
      | none =>
          cases hthird
          exact runs_cond_no_else hexpr hif
      | some elseNode =>
          rcases hthird with _ | ⟨⟨_, ⟨⟩, helse⟩, _ | _⟩
          exact runs_cond hexpr hif helse
  | set source target =>
      rcases h with _ | ⟨hfirst, _ | _⟩
      obtain ⟨source, rfl, hsource⟩ := filledBy_required hfirst
      exact runs_set target hsource
  | block nodes => exact runs_block (filledBy_map h)
  | call args callback => exact runs_call callback (filledBy_map h)
  | value source =>
      cases h
      intro store outcome
      cases source with
      | none =>
          constructor
          · intro h
            cases h
            rfl
          · rintro rfl
            exact .noSource
      | some source =>
          constructor
          · intro h
            cases h with
            | value hread => simp only [Compiler.assemble, Program.run, Pass.read, hread]
          · rintro rfl
            exact .value rfl
  | number value =>
      cases h
      intro store outcome
      constructor
      · intro h
        cases h
        rfl
      · rintro rfl
        exact .number

theorem runs_of_compile {expression : Expression} {compiler : Compiler} {program : Program}
    (h : (compiler.compile expression).1 = .ok program) : Runs expression program := by
  induction expression using Tree.operand_induction generalizing compiler program with
  | step node ih =>
      cases hkind : node.kind? with
      | none =>
          rw [Compiler.compile_leaf hkind] at h
          cases h
          exact runs_leaf hkind
      | some kind =>
          rw [Compiler.compile_node hkind] at h
          split at h
          · cases h
          · obtain ⟨programs, hwalk, rfl⟩ := Walk.map_eq_ok.mp h
            rw [Walk.mapM_eq_ok] at hwalk
            apply runs_node
            refine (Walk.forall₂_mem hwalk).imp ?_
            rintro (operand | field) result ⟨hplace, hresult⟩
            · exact ⟨operand, rfl, ih operand (Tree.mem_operands.mpr hplace) hresult⟩
            · cases hresult

theorem evaluates_of_compile {expression : Expression} {compiler : Compiler} {program : Program}
    (h : (compiler.compile expression).1 = .ok program) (store : Store) :
    expression.Evaluates store (program.run store) :=
  (runs_of_compile h store _).mpr rfl

/-- Whatever compiler a tree compiles with and whatever the store holds, one
pass of its program is the evaluation of the tree: there is one, and only this
one, and it has the same value, leaves the same store and does the same things
in the same order. -/
theorem evaluates_iff_run (expression : Expression) (compiler : Compiler) (program : Program)
    (h : (compiler.compile expression).1 = .ok program) (store : Store)
    (outcome : Outcome Float) :
    expression.Evaluates store outcome ↔ program.run store = outcome :=
  runs_of_compile h store outcome

/-- A block that doubles a cell and then calls back with what the cell reads;
the callback stores its last argument in a second cell. -/
theorem evaluates_iff_run_store_then_call :
    let cell : Ref := ⟨0⟩
    let host := Callback.store "done" ⟨1⟩
    let tree : Expression :=
      .block [.store (.fold .add (.external cell) (.external cell) []) cell,
        .call [.literal 7, .external cell] (some host)]
    let program : Program :=
      .block [.set (.fold .add (.read cell) [.read cell]) (some cell),
        .call [.constant 7, .read cell] (some host)]
    (Compiler.compile { limits := { maxDepth := 3 } } tree).1 = .ok program ∧
      tree.Evaluates ⟨#[.slot (some 2), .slot none]⟩
        ⟨0, ⟨#[.slot (some (2 + 2)), .slot (some (2 + 2))]⟩,
          [.read cell, .read cell, .write cell (2 + 2), .read cell,
            .call host [7, 2 + 2], .write ⟨1⟩ (2 + 2)]⟩ := by
  intro cell host tree program
  have hcompile : (Compiler.compile { limits := { maxDepth := 3 } } tree).1 = .ok program := rfl
  exact ⟨hcompile, (evaluates_iff_run tree _ program hcompile _ _).mpr rfl⟩

end Animation.Expression
