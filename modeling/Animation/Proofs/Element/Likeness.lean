import Animation.Document
import Animation.Proofs.Compiler.Likeness
import Animation.Proofs.Element.Resolution

/-!
One element under two tables of names. Where every name stands for alike cells
and alike callbacks, or for nothing in both tables, the element resolves to
trees that are alike, and a document to programs that are alike.
-/

namespace Animation

/-- Every name has alike meanings, or none in either table. -/
structure Names.Alike (like : Likeness) (names other : Names) : Prop where
  value : ∀ name, Walk.Alike (fun cell twin => like.reads cell twin ∧ like.writes cell twin)
    (names.value name) (other.value name)
  callback : ∀ name, Walk.Alike like.calls (names.callback name) (other.callback name)

namespace Element

variable {like : Likeness} {names other : Names}

structure Links.Alike (like : Likeness) (links other : Links) : Prop where
  source : Option.Rel like.reads links.cell other.cell
  target : Option.Rel like.writes links.cell other.cell
  host : Option.Rel like.calls links.host other.host
  literal : links.literal = other.literal

theorem alike_valueOf? (h : Names.Alike like names other) (slot : Option String) :
    Walk.Alike (fun cell twin => Option.Rel like.reads cell twin ∧ Option.Rel like.writes cell twin)
      (valueOf? names slot) (valueOf? other slot) := by
  cases slot with
  | none => exact .ok ⟨.none, .none⟩
  | some name => exact (h.value name).map fun ⟨hreads, hwrites⟩ => ⟨.some hreads, .some hwrites⟩

theorem alike_callbackOf? (h : Names.Alike like names other) (slot : Option String) :
    Walk.Alike (Option.Rel like.calls) (callbackOf? names slot) (callbackOf? other slot) := by
  cases slot with
  | none => exact .ok .none
  | some name => exact (h.callback name).map fun hhost => .some hhost

theorem alike_link (h : Names.Alike like names other) (fields : Fields Element) (kind : Kind) :
    Walk.Alike (Links.Alike like) (link names fields kind) (link other fields kind) := by
  refine (alike_valueOf? h _).bind fun hcell => (alike_callbackOf? h _).bind fun hhost => ?_
  cases literalOf kind fields.value with
  | ok literal => exact .ok ⟨hcell.1, hcell.2, hhost, rfl⟩
  | error fault => exact .error

theorem alike_assemble {links links' : Links} (hlinks : links.Alike like links')
    {places places' : List (Place Expression)}
    (hplaces : List.Forall₂ (Place.Alike (Expression.Alike like)) places places') (kind : Kind) :
    Expression.Alike like (assemble kind links places) (assemble kind links' places') := by
  have hnumber : Expression.Alike like (.number links.literal) (.number links'.literal) := by
    rw [hlinks.literal]
    exact .number
  cases kind with
  | binary op =>
      rcases hplaces with _ | ⟨ha, _ | ⟨hb, hothers⟩⟩
      · exact hnumber
      · exact hnumber
      · exact .binary ha.operand? hb.operand? (Place.alike_operands hothers)
  | unary op =>
      rcases hplaces with _ | ⟨hv, _ | _⟩
      · exact hnumber
      · exact .unary hv.operand?
      · exact hnumber
  | compare op =>
      rcases hplaces with _ | ⟨hleft, _ | ⟨hright, _ | _⟩⟩
      · exact hnumber
      · exact hnumber
      · exact .compare hleft.operand? hright.operand?
      · exact hnumber
  | cond =>
      rcases hplaces with _ | ⟨hexpr, _ | ⟨hif, _ | ⟨helse, _⟩⟩⟩
      · exact hnumber
      · exact hnumber
      · exact .cond hexpr.operand? hif.operand? .none
      · exact .cond hexpr.operand? hif.operand? helse.operand?
  | set =>
      rcases hplaces with _ | ⟨hsource, _ | _⟩
      · exact hnumber
      · exact .set hsource.operand? hlinks.target
      · exact hnumber
  | block => exact .block (Place.alike_operands hplaces)
  | call => exact .call (Place.alike_operands hplaces) hlinks.host
  | value => exact .value hlinks.source
  | number => exact hnumber

theorem alike_resolve (h : Names.Alike like names other) (element : Element) :
    Walk.Alike (Expression.Alike like) (element.resolve names) (element.resolve other) := by
  induction element using Tree.operand_induction with
  | step element ih =>
      cases element with
      | number value => exact .ok .literal
      | ref name => exact (h.value name).map fun hcell => .external hcell.1
      | node fields =>
          cases hkind : fields.kind? with
          | none =>
              obtain ⟨fault, hfault⟩ := resolve_no_kind hkind
              rw [(hfault names).1, (hfault other).1]
              exact .error
          | some kind =>
              rw [resolve_node hkind, resolve_node hkind]
              have hplaces : Walk.Alike (List.Forall₂ (Place.Alike (Expression.Alike like)))
                  ((fields.places kind).mapM (fill names))
                  ((fields.places kind).mapM (fill other)) := by
                apply Walk.alike_mapM
                rw [List.forall₂_same]
                intro place hplace
                cases place with
                | filled operand =>
                    have hoperand := (mem_operands_node hkind).mpr hplace
                    exact (ih operand hoperand).map fun hexpression => .filled hexpression
                | missing field => exact .ok .missing
              exact hplaces.bind fun hresults =>
                (alike_link h fields kind).map fun hlinks => alike_assemble hlinks hresults kind

end Element

namespace Document

variable {like : Likeness} {names other : Names}

theorem alike_program (h : Names.Alike like names other) (document : Document) :
    Walk.Alike (Program.Alike like) (document.program names) (document.program other) :=
  (Element.alike_resolve h document.root).bind fun hroot => Compiler.alike_compile hroot _

end Document

end Animation
