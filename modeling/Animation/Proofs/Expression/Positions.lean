import Animation.Proofs.Expression.Operands

/-!
Positions in a tree. A position is a list of numbers, each of which tells
which place to go to next, counted from zero; the part there can be looked up
and replaced. An evaluation comes to a position, or it does not, and if it
does then with one store: each part is evaluated at most once in a pass.

What is at a position matters to a pass only through the evaluation of the
part that is there, from the store with which the pass comes to it.
-/

namespace Animation.Expression

/-- The tree with this in its places. Other lists than those with an operand
for each operand of the tree do not occur. -/
def withPlaces : Expression → List (Place Expression) → Expression
  | .binary op .., a :: b :: others =>
    .binary op a.operand? b.operand? (others.filterMap Place.operand?)
  | .unary op _, [v] => .unary op v.operand?
  | .compare op .., [left, right] => .compare op left.operand? right.operand?
  | .cond .., expr :: ifNode :: rest =>
    .cond expr.operand? ifNode.operand? (rest.head?.bind Place.operand?)
  | .set _ target, [source] => .set source.operand? target
  | .block _, nodes => .block (nodes.filterMap Place.operand?)
  | .call _ callback, args => .call (args.filterMap Place.operand?) callback
  | tree, _ => tree

/-- The part at a position, if there is one. -/
def part? : Expression → List Nat → Option Expression
  | tree, [] => some tree
  | tree, i :: path => (tree.places[i]?.bind Place.operand?).bind (part? · path)

/-- The tree with another part at a position. If there is no part at this
position, nothing is replaced. -/
def replace : Expression → List Nat → Expression → Expression
  | _, [], part => part
  | tree, i :: path, part =>
    match tree.places[i]?.bind Place.operand? with
    | some operand => tree.withPlaces (tree.places.set i (.filled (operand.replace path part)))
    | none => tree

/-- An evaluation of the node from the first store evaluates the operand in the
place of this number from the second store. -/
inductive Enters : Expression → Store → Nat → Expression → Store → Prop
  | inOrder {node before operand after store values} :
      node.kind? ≠ some .cond →
      node.places = before.map .filled ++ .filled operand :: after →
      EvaluatesAll before store values →
      Enters node store before.length operand values.store
  | condition {expr ifNode elseNode store} :
      Enters (.cond (some expr) ifNode elseNode) store 0 expr store
  | ifNode {expr ifNode elseNode store test} :
      Evaluates expr store test →
      Number.isTrue test.value = true →
      Enters (.cond (some expr) (some ifNode) elseNode) store 1 ifNode test.store
  | elseNode {expr ifNode elseNode store test} :
      Evaluates expr store test →
      Number.isTrue test.value = false →
      Enters (.cond (some expr) ifNode (some elseNode)) store 2 elseNode test.store

/-- An evaluation of the tree from the first store comes to this position with
the second store. -/
inductive Arrives : Expression → Store → List Nat → Store → Prop
  | here {tree store} : Arrives tree store [] store
  | inside {tree store i operand middle path found} :
      Enters tree store i operand middle →
      Arrives operand middle path found →
      Arrives tree store (i :: path) found

/-- Wherever the two trees compile, a pass of the second from this store is a
pass of the first: the same result, the same store after it, the same readings,
writings and calls. -/
def PassesAs (store : Store) (tree other : Expression) : Prop :=
  ∀ compiler again program changed, (Compiler.compile compiler tree).1 = .ok program →
    (Compiler.compile again other).1 = .ok changed → changed.run store = program.run store

/-! ### Other operands in the places of a node -/

variable {tree : Expression}

theorem withPlaces_fits {related : Expression → Expression → Prop}
    {places : List (Place Expression)}
    (h : List.Forall₂ (Place.Alike related) tree.places places) :
    (tree.withPlaces places).kind? = tree.kind? ∧ (tree.withPlaces places).places = places := by
  cases tree with
  | literal _ | external _ | value _ | number _ =>
      cases h
      exact ⟨rfl, rfl⟩
  | binary op a b others =>
      rcases h with _ | ⟨hfirst, _ | ⟨hsecond, hothers⟩⟩
      refine ⟨rfl, ?_⟩
      simp only [withPlaces, Expression.places, Place.alike_required hfirst,
        Place.alike_required hsecond, Place.alike_map hothers]
  | unary op v | set source target =>
      rcases h with _ | ⟨hfirst, _ | _⟩
      refine ⟨rfl, ?_⟩
      simp only [withPlaces, Expression.places, Place.alike_required hfirst]
  | compare op left right =>
      rcases h with _ | ⟨hfirst, _ | ⟨hsecond, _ | _⟩⟩
      refine ⟨rfl, ?_⟩
      simp only [withPlaces, Expression.places, Place.alike_required hfirst,
        Place.alike_required hsecond]
  | cond expr ifNode elseNode =>
      rcases h with _ | ⟨hfirst, _ | ⟨hsecond, hthird⟩⟩
      refine ⟨rfl, ?_⟩
      simp only [withPlaces, Expression.places, Place.alike_required hfirst,
        Place.alike_required hsecond, Place.alike_optional hthird]
  | block nodes | call args callback =>
      refine ⟨rfl, ?_⟩
      simp only [withPlaces, Expression.places, Place.alike_map h]

/-- What a tree has besides its operands stays, and with it the form of the
program. -/
theorem assemble_withPlaces (places : List (Place Expression)) (programs : List Program) :
    Compiler.assemble (tree.withPlaces places) programs = Compiler.assemble tree programs := by
  cases tree with
  | literal _ | external _ | value _ | number _ | block _ | call _ _ => rfl
  | binary op a b others =>
      rcases places with _ | ⟨_, _ | _⟩ <;> cases programs <;> rfl
  | unary op v =>
      rcases places with _ | ⟨_, _ | _⟩ <;> rcases programs with _ | ⟨_, _ | _⟩ <;> rfl
  | compare op left right =>
      rcases places with _ | ⟨_, _ | ⟨_, _ | _⟩⟩ <;>
        rcases programs with _ | ⟨_, _ | ⟨_, _ | _⟩⟩ <;> rfl
  | cond expr ifNode elseNode =>
      rcases places with _ | ⟨_, _ | _⟩ <;>
        rcases programs with _ | ⟨_, _ | ⟨_, _ | ⟨_, _ | _⟩⟩⟩ <;> rfl
  | set source target =>
      rcases places with _ | ⟨_, _ | _⟩ <;> rcases programs with _ | ⟨_, _ | _⟩ <;> rfl

/-! ### Coming to a position -/

theorem Enters.place {store middle : Store} {i : Nat} {operand : Expression}
    (h : Enters tree store i operand middle) : tree.places[i]? = some (.filled operand) := by
  cases h with
  | inOrder _ hplaces _ => simp [hplaces]
  | condition => rfl
  | ifNode _ _ => rfl
  | elseNode _ _ => rfl

/-- Of operands that are evaluated one after the other only their own passes
matter, each from the store that those before it leave. -/
theorem runAll_agree {operands : List Expression} {programs others : List Program}
    (hruns : List.Forall₂ Runs operands programs) (hlength : others.length = programs.length)
    {store : Store}
    (hsame : ∀ before operand after values program other,
      operands = before ++ operand :: after → EvaluatesAll before store values →
      programs[before.length]? = some program → others[before.length]? = some other →
      other.run values.store = program.run values.store) :
    Program.runAll others store = Program.runAll programs store := by
  induction hruns generalizing others store with
  | nil => rw [List.eq_nil_of_length_eq_zero hlength]
  | @cons operand program operands programs hfirst hrest ih =>
      cases others with
      | nil => cases hlength
      | cons other others =>
          have hhead : other.run store = program.run store :=
            hsame [] operand operands _ program other rfl .nil rfl rfl
          have htail : Program.runAll others (program.run store).store =
              Program.runAll programs (program.run store).store := by
            apply ih (Nat.succ.inj hlength)
            intro before next after values program' other' hoperands hvalues
            have hvalues := EvaluatesAll.cons ((hfirst store _).mpr rfl) hvalues
            have hlater := hsame (operand :: before) next after _ program' other'
              (congrArg _ hoperands) hvalues
            exact hlater
          simp only [Program.runAll_cons, hhead, htail]

/-- A pass of a node depends on no more than the passes of the operands that
are entered, from the stores with which they are entered. -/
theorem run_assemble_congr {filled : Place Expression → Program → Prop}
    {programs others : List Program} (hprograms : List.Forall₂ FilledBy tree.places programs)
    (hothers : List.Forall₂ filled tree.places others) {store : Store}
    (hsame : ∀ i operand middle program other, Enters tree store i operand middle →
      programs[i]? = some program → others[i]? = some other →
      other.run middle = program.run middle) :
    (Compiler.assemble tree others).run store = (Compiler.assemble tree programs).run store := by
  by_cases hkind : tree.kind? = some .cond
  · cases tree with
    | cond expr ifNode elseNode =>
        rcases hprograms with _ | ⟨hexpr, _ | ⟨hif, helse⟩⟩
        rcases hothers with _ | ⟨-, _ | ⟨-, hlast⟩⟩
        obtain ⟨expr, rfl, htest⟩ := filledBy_required hexpr
        obtain ⟨ifNode, rfl, -⟩ := filledBy_required hif
        have htest := (htest store _).mpr rfl
        have hfirst := hsame 0 _ _ _ _ .condition rfl rfl
        cases elseNode with
        | none =>
            cases helse
            cases hlast
            simp only [Compiler.assemble, Program.run_cond, hfirst]
            split
            · next htrue => simp only [hsame 1 _ _ _ _ (.ifNode htest htrue) rfl rfl]
            · rfl
        | some elseNode =>
            rcases helse with _ | ⟨-, _ | _⟩
            rcases hlast with _ | ⟨-, _ | _⟩
            simp only [Compiler.assemble, Program.run_cond, hfirst]
            split
            · next htrue => simp only [hsame 1 _ _ _ _ (.ifNode htest htrue) rfl rfl]
            · next hfalse =>
                rw [Bool.not_eq_true] at hfalse
                simp only [hsame 2 _ _ _ _ (.elseNode htest hfalse) rfl rfl]
    | _ => cases hkind
  · rw [run_assemble hprograms hkind, run_assemble hothers hkind]
    have hlength : others.length = programs.length :=
      hothers.length_eq.symm.trans hprograms.length_eq
    obtain ⟨operands, hplaces, hruns⟩ := exists_operands hprograms
    have hall : Program.runAll others store = Program.runAll programs store := by
      apply runAll_agree hruns hlength
      intro before operand after values program other hoperands hvalues
      apply hsame before.length operand
      exact .inOrder hkind (by rw [hplaces, hoperands, List.map_append, List.map_cons]) hvalues
    rw [Pass.bind_apply, Pass.bind_apply, hall]

/-! ### Each position at most once -/

/-- How many operands of the tree are evaluated before the one in this place.
Of the two branches of a choice neither comes before the other. -/
def precedents (tree : Expression) (i : Nat) : Nat :=
  if tree.kind? = some .cond then min i 1 else i

/-- The operand is entered with the store that the operands before it leave. -/
theorem Enters.middle_eq {programs : List Program}
    (hprograms : List.Forall₂ FilledBy tree.places programs) {store middle : Store} {i : Nat}
    {operand : Expression} (h : Enters tree store i operand middle) :
    middle = (Program.runAll (programs.take (tree.precedents i)) store).store := by
  have hchoice : ∀ {expr : Expression} {ifNode elseNode : Option Expression}
      {test : Outcome Float}, List.Forall₂ FilledBy (cond (some expr) ifNode elseNode).places
        programs → expr.Evaluates store test →
      test.store = (Program.runAll (programs.take 1) store).store := by
    intro expr ifNode elseNode test hplaces htest
    rcases hplaces with _ | ⟨hexpr, -⟩
    obtain ⟨_, ⟨⟩, hruns⟩ := filledBy_required hexpr
    rw [← (hruns _ _).mp htest]
    rfl
  cases h with
  | @inOrder _ before _ _ _ values hkind hplaces hvalues =>
      have htake := List.forall₂_take before.length hprograms
      rw [hplaces, List.take_left' (List.length_map _)] at htake
      rw [precedents, if_neg hkind, (evaluatesAll_iff (filledBy_map htake) _ _).mp hvalues]
  | condition => rfl
  | ifNode htest _ => exact hchoice hprograms htest
  | elseNode htest _ => exact hchoice hprograms htest

theorem compiledIn_of_place {places : List (Place Expression)} {programs : List Program}
    (h : List.Forall₂ CompiledIn places programs) {i : Nat} {operand : Expression}
    (hplace : places[i]? = some (.filled operand)) :
    ∃ program compiler, programs[i]? = some program ∧
      (Compiler.compile compiler operand).1 = .ok program := by
  obtain ⟨hbound, hget⟩ := List.getElem?_eq_some_iff.mp hplace
  have hless : i < programs.length := h.length_eq ▸ hbound
  obtain ⟨_, compiler, hfilled, hcompile⟩ := h.get hbound hless
  cases hfilled.trans hget
  exact ⟨_, compiler, List.getElem?_eq_getElem hless, hcompile⟩

/-- An evaluation comes to a position with one store only. -/
theorem Arrives.unique {compiler : Compiler} {program : Program}
    (hcompile : (compiler.compile tree).1 = .ok program) {store found other : Store}
    {path : List Nat} (h : Arrives tree store path found)
    (hother : Arrives tree store path other) : found = other := by
  induction h generalizing compiler program with
  | here =>
      cases hother
      rfl
  | inside henters _ ih =>
      cases hother with
      | inside hagain hrest =>
          obtain ⟨programs, hparts, -⟩ := parts_of_compile hcompile
          have hprograms := hparts.imp fun _ _ => CompiledIn.filledBy
          cases Option.some.inj (henters.place.symm.trans hagain.place)
          cases (henters.middle_eq hprograms).trans (hagain.middle_eq hprograms).symm
          obtain ⟨_, _, _, hoperand⟩ := compiledIn_of_place hparts henters.place
          exact ih hoperand hrest

/-! ### Another part at a position -/

theorem alike_set {places : List (Place Expression)} {i : Nat} {operand : Expression}
    (h : places[i]? = some (.filled operand)) (part : Expression) :
    List.Forall₂ (Place.Alike fun _ _ => True) places (places.set i (.filled part)) := by
  have hself : ∀ place : Place Expression, Place.Alike (fun _ _ => True) place place := by
    intro place
    cases place with
    | filled operand => exact .filled trivial
    | missing field => exact .missing
  induction places generalizing i with
  | nil => cases h
  | cons place rest ih =>
      cases i with
      | zero =>
          cases Option.some.inj h
          exact .cons (.filled trivial) (List.forall₂_same.mpr fun place _ => hself place)
      | succ i => exact .cons (hself place) (ih h)

theorem part?_cons {i : Nat} {path : List Nat} {part : Expression}
    (h : tree.part? (i :: path) = some part) :
    ∃ operand, tree.places[i]? = some (.filled operand) ∧ operand.part? path = some part := by
  obtain ⟨operand, hplace, hpart⟩ := Option.bind_eq_some_iff.mp h
  obtain ⟨place, hget, hoperand⟩ := Option.bind_eq_some_iff.mp hplace
  rw [Place.operand?_eq_some.mp hoperand] at hget
  exact ⟨operand, hget, hpart⟩

/-- Replacing a part leaves a pass as it is if the part itself makes the same
pass as the one before, from each store with which an evaluation comes to it. -/
theorem passesAs_replace {old part : Expression} {path : List Nat}
    (hold : tree.part? path = some old) {store : Store}
    (hsame : ∀ found, Arrives tree store path found → PassesAs found old part) :
    PassesAs store tree (tree.replace path part) := by
  induction path generalizing tree store with
  | nil =>
      cases Option.some.inj hold
      exact hsame store .here
  | cons i path ih =>
      intro compiler again program changed hcompile hchanged
      obtain ⟨operand, hplace, hpart⟩ := part?_cons hold
      let inner := operand.replace path part
      have hreplace : tree.replace (i :: path) part =
          tree.withPlaces (tree.places.set i (.filled inner)) := by
        simp only [replace, hplace, Option.bind_some, Place.operand?, inner]
      obtain ⟨programs, hparts, rfl⟩ := parts_of_compile hcompile
      rw [hreplace] at hchanged
      obtain ⟨others, hothers, rfl⟩ := parts_of_compile hchanged
      rw [(withPlaces_fits (alike_set hplace inner)).2] at hothers
      rw [assemble_withPlaces]
      have hlength : tree.places.length = others.length := by
        simpa using hothers.length_eq
      apply run_assemble_congr (hparts.imp fun _ _ => CompiledIn.filledBy)
        (Walk.forall₂_of_length_eq hlength)
      intro j next middle program other henters hprogram hother
      obtain ⟨_, _, hget, hcompile⟩ := compiledIn_of_place hparts henters.place
      cases Option.some.inj (hget.symm.trans hprogram)
      by_cases hj : j = i
      · -- In this operand is what has been replaced.
        subst hj
        cases Option.some.inj (henters.place.symm.trans hplace)
        have hset : (tree.places.set j (.filled inner))[j]? = some (.filled inner) :=
          List.getElem?_set_self (List.getElem?_eq_some_iff.mp hplace).1
        obtain ⟨_, _, hget, hchanged⟩ := compiledIn_of_place hothers hset
        cases Option.some.inj (hget.symm.trans hother)
        have hinside : ∀ found, Arrives operand middle path found → PassesAs found old part :=
          fun found harrives => hsame found (.inside henters harrives)
        exact ih hpart hinside _ _ _ _ hcompile hchanged
      · have hset : (tree.places.set i (.filled inner))[j]? = some (.filled next) := by
          rw [List.getElem?_set_ne (Ne.symm hj), henters.place]
        obtain ⟨_, _, hget, hchanged⟩ := compiledIn_of_place hothers hset
        cases Option.some.inj (hget.symm.trans hother)
        rw [(runs_of_compile hchanged).unique (runs_of_compile hcompile)]

end Animation.Expression
