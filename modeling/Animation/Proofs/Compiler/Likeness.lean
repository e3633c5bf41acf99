import Animation.Proofs.Compiler.Outcome
import Animation.Proofs.Program.Likeness

/-!
Trees that differ at most in the cells and callbacks they have compile to
programs that differ in these only, or have the same fault. Compiling looks at
neither cells nor callbacks.
-/

namespace Animation

/-- Both succeed, with related results, or both have the same fault. -/
inductive Walk.Alike {α β ε : Type} (related : α → β → Prop) : Except ε α → Except ε β → Prop
  | ok {result other} : related result other → Alike related (.ok result) (.ok other)
  | error {fault} : Alike related (.error fault) (.error fault)

namespace Walk

variable {α α' β β' ε : Type} {related : α → α' → Prop} {after : β → β' → Prop}

theorem Alike.bind {first : Except ε α} {first' : Except ε α'} {next : α → Except ε β}
    {next' : α' → Except ε β'} (hfirst : Alike related first first')
    (hnext : ∀ {value value'}, related value value' → Alike after (next value) (next' value')) :
    Alike after (first >>= next) (first' >>= next') := by
  cases hfirst with
  | ok hvalue => exact hnext hvalue
  | error => exact .error

theorem Alike.map {first : Except ε α} {first' : Except ε α'} {convert : α → β}
    {convert' : α' → β'} (hfirst : Alike related first first')
    (hconvert : ∀ {value value'}, related value value' → after (convert value) (convert' value')) :
    Alike after (convert <$> first) (convert' <$> first') := by
  cases hfirst with
  | ok hvalue => exact .ok (hconvert hvalue)
  | error => exact .error

theorem alike_mapM {visit : α → Except ε β} {visit' : α' → Except ε β'} {items : List α}
    {items' : List α'}
    (h : List.Forall₂ (fun item item' => Alike after (visit item) (visit' item')) items items') :
    Alike (List.Forall₂ after) (items.mapM visit) (items'.mapM visit') := by
  induction h with
  | nil => exact .ok .nil
  | cons hitem _ ih =>
      rw [List.mapM_cons, List.mapM_cons]
      exact hitem.bind fun hresult => ih.bind fun hresults => .ok (.cons hresult hresults)

end Walk

namespace Expression

open Place

inductive Alike (like : Likeness) : Expression → Expression → Prop
  | literal {value} : Alike like (.literal value) (.literal value)
  | external {source twin} :
      like.reads source twin → Alike like (.external source) (.external twin)
  | binary {op a a' b b' others others'} :
      Option.Rel (Alike like) a a' → Option.Rel (Alike like) b b' →
      List.Forall₂ (Alike like) others others' →
      Alike like (.binary op a b others) (.binary op a' b' others')
  | unary {op v v'} : Option.Rel (Alike like) v v' → Alike like (.unary op v) (.unary op v')
  | compare {op left left' right right'} :
      Option.Rel (Alike like) left left' → Option.Rel (Alike like) right right' →
      Alike like (.compare op left right) (.compare op left' right')
  | cond {expr expr' ifNode ifNode' elseNode elseNode'} :
      Option.Rel (Alike like) expr expr' → Option.Rel (Alike like) ifNode ifNode' →
      Option.Rel (Alike like) elseNode elseNode' →
      Alike like (.cond expr ifNode elseNode) (.cond expr' ifNode' elseNode')
  | set {source source' target target'} :
      Option.Rel (Alike like) source source' → Option.Rel like.writes target target' →
      Alike like (.set source target) (.set source' target')
  | block {nodes nodes'} :
      List.Forall₂ (Alike like) nodes nodes' → Alike like (.block nodes) (.block nodes')
  | call {args args' callback callback'} :
      List.Forall₂ (Alike like) args args' → Option.Rel like.calls callback callback' →
      Alike like (.call args callback) (.call args' callback')
  | value {source source'} :
      Option.Rel like.reads source source' → Alike like (.value source) (.value source')
  | number {value} : Alike like (.number value) (.number value)

variable {like : Likeness}

theorem Alike.kind? {this that : Expression} (h : Alike like this that) :
    this.kind? = that.kind? := by
  cases h <;> rfl

theorem Alike.places {this that : Expression} (h : Alike like this that) :
    List.Forall₂ (Place.Alike (Alike like)) this.places that.places := by
  cases h with
  | literal | external _ | value _ | number => exact .nil
  | binary ha hb hothers =>
      exact .cons (required_congr ha) (.cons (required_congr hb) (filled_congr hothers))
  | unary hv => exact .cons (required_congr hv) .nil
  | compare hleft hright => exact .cons (required_congr hleft) (.cons (required_congr hright) .nil)
  | cond hexpr hif helse =>
      exact .cons (required_congr hexpr) (.cons (required_congr hif) (optional_congr helse))
  | set hsource _ => exact .cons (required_congr hsource) .nil
  | block hnodes => exact filled_congr hnodes
  | call hargs _ => exact filled_congr hargs

end Expression

namespace Compiler

variable {like : Likeness}

theorem alike_assemble {this that : Expression} (h : Expression.Alike like this that)
    {programs programs' : List Program}
    (hprograms : List.Forall₂ (Program.Alike like) programs programs') :
    Program.Alike like (assemble this programs) (assemble that programs') := by
  cases h with
  | literal | number => exact .constant
  | external hcells => exact .read hcells
  | value hcells =>
      cases hcells with
      | none => exact .constant
      | some hcells => exact .read hcells
  | binary _ _ _ =>
      cases hprograms with
      | nil => exact .constant
      | cons hfirst hrest => exact .fold hfirst hrest
  | unary _ =>
      rcases hprograms with _ | ⟨hv, _ | _⟩
      · exact .constant
      · exact .unary hv
      · exact .constant
  | compare _ _ =>
      rcases hprograms with _ | ⟨hleft, _ | ⟨hright, _ | _⟩⟩
      · exact .constant
      · exact .constant
      · exact .compare hleft hright
      · exact .constant
  | cond _ _ _ =>
      rcases hprograms with _ | ⟨hexpr, _ | ⟨hif, _ | ⟨helse, _ | _⟩⟩⟩
      · exact .constant
      · exact .constant
      · exact .cond hexpr hif .constant
      · exact .cond hexpr hif helse
      · exact .constant
  | set _ htarget =>
      rcases hprograms with _ | ⟨hsource, _ | _⟩
      · exact .constant
      · exact .set hsource htarget
      · exact .constant
  | block _ => exact .block hprograms
  | call _ hcallback => exact .call hprograms hcallback

theorem alike_compile {this that : Expression} (h : Expression.Alike like this that)
    (compiler : Compiler) :
    Walk.Alike (Program.Alike like) (compiler.compile this).1 (compiler.compile that).1 := by
  induction this using Tree.operand_induction generalizing that compiler with
  | step this ih =>
      cases hkind : this.kind? with
      | none =>
          rw [compile_leaf hkind, compile_leaf (h.kind?.symm.trans hkind)]
          exact .ok (alike_assemble h .nil)
      | some kind =>
          rw [compile_node hkind, compile_node (h.kind?.symm.trans hkind)]
          split
          · exact .error
          · refine (Walk.alike_mapM ?_).map (alike_assemble h)
            refine (Walk.forall₂_mem h.places).imp ?_
            rintro _ _ ⟨hplace, halike⟩
            cases halike with
            | filled hoperand => exact ih _ (Tree.mem_operands.mpr hplace) hoperand _
            | missing => exact .error

end Compiler

end Animation
