import Animation.Proofs.Compiler.Outcome
import Animation.Proofs.Document.Declaration
import Animation.Proofs.Element.Resolution

/-!
Which documents compile, said without resolving or compiling anything. The
conditions are on the parts of the root: what its nodes use, and nothing that
they carry besides. Resolving is over before compiling begins, so a document
that cannot be resolved is refused for that, whatever else is wrong with it.
-/

namespace Animation.Document

/-- A declared name counts as bound, and whether it was bound does not matter. -/
def Bound (document : Document) (world : World) (name : String) : Prop :=
  world.names.Binds name ∨ name ∈ document.values

/-- Some part of the root cannot be resolved, because of this fault. -/
def Flawed (document : Document) (world : World) (fault : Fault) : Prop :=
  ∃ part, Tree.Contains document.root part ∧
    part.Faulty (document.Bound world) world.names.Hosts fault

structure Acceptable (document : Document) (world : World) : Prop where
  resolvable : ∀ fault, ¬ document.Flawed world fault
  complete : ∀ kind field, ¬ Tree.Lacks document.root kind field
  shallow : Tree.nesting document.root ≤ document.limits.maxDepth.toNat

/-- Faults that a document can be refused for. The other two are named only
where there is nothing to resolve any more. -/
inductive Refusable (document : Document) (world : World) : Fault → Prop
  | flawed {fault : Fault} :
      document.Flawed world fault → Refusable document world fault
  | lacking {kind : Kind} {field : Field} :
      (∀ fault, ¬ document.Flawed world fault) → Tree.Lacks document.root kind field →
      Refusable document world (.missingOperand kind field)
  | tooDeep :
      (∀ fault, ¬ document.Flawed world fault) →
      document.limits.maxDepth.toNat < Tree.nesting document.root →
      Refusable document world (.tooDeep document.limits.maxDepth)

theorem flawed_iff {document : Document} {world : World} {fault : Fault} :
    document.Flawed world fault ↔
      ∃ part, Tree.Contains document.root part ∧
        part.Faulty (document.declareValues world).names.Binds
          (document.declareValues world).names.Hosts fault := by
  have hbinds : (document.declareValues world).names.Binds = document.Bound world := by
    funext name
    exact propext binds_declareValues
  have hhosts : (document.declareValues world).names.Hosts = world.names.Hosts := by
    funext name
    rw [Names.Hosts, Names.Hosts, (document.declares world).names.callbacks]
  rw [Flawed, hbinds, hhosts]

/-- What an expression is refused for, the element it comes from is to blame. -/
theorem refusable_of_compile {document : Document} {world : World} {fault : Fault}
    (h : (document.compile world).1 = .error fault) : document.Refusable world fault := by
  rw [compile_fst, program, Walk.bind_eq_error] at h
  rcases h with hresolve | ⟨expression, hresolve, hcompile⟩
  · exact .flawed (flawed_iff.mpr (Element.faulty_of_resolve hresolve))
  · have hsound : ∀ fault, ¬ document.Flawed world fault := by
      intro fault hflawed
      obtain ⟨part, hpart, hfaulty⟩ := flawed_iff.mp hflawed
      exact Element.not_faulty_of_resolve hresolve hpart fault hfaulty
    have hshape := Element.shaped_resolve (document.declareValues world).names
    cases Compiler.refuses_of_compile UInt64.zero_le hcompile with
    | lacking hlacks => exact .lacking hsound ((hshape.lacks_iff hresolve).mpr hlacks)
    | tooDeep hdeep =>
        rw [← hshape.nesting_eq hresolve] at hdeep
        exact .tooDeep hsound (by simpa using hdeep)

theorem acceptable_of_compile {document : Document} {world : World} {program : Program}
    (h : (document.compile world).1 = .ok program) : document.Acceptable world := by
  rw [compile_fst, Document.program, Walk.bind_eq_ok] at h
  obtain ⟨expression, hresolve, hcompile⟩ := h
  have hshape := Element.shaped_resolve (document.declareValues world).names
  obtain ⟨hcomplete, hshallow⟩ :=
    (Compiler.compile_succeeds_iff UInt64.zero_le).mp ⟨program, hcompile⟩
  refine ⟨?_, ?_, ?_⟩
  · intro fault hflawed
    obtain ⟨part, hpart, hfaulty⟩ := flawed_iff.mp hflawed
    exact Element.not_faulty_of_resolve hresolve hpart fault hfaulty
  · intro kind field hlacks
    exact hcomplete kind field ((hshape.lacks_iff hresolve).mp hlacks)
  · rw [hshape.nesting_eq hresolve]
    simpa using hshallow

theorem not_refusable_of_acceptable {document : Document} {world : World}
    (h : document.Acceptable world) (fault : Fault) : ¬ document.Refusable world fault := by
  intro hrefusable
  cases hrefusable with
  | flawed hflawed => exact h.resolvable fault hflawed
  | lacking _ hlacks => exact h.complete _ _ hlacks
  | tooDeep _ hdeep => exact absurd h.shallow (Nat.not_le_of_lt hdeep)

/-- A document compiles exactly if every part of its root can be resolved, no
required operand is missing and nodes are not nested too deep. One that does
not compile is refused for a fault it has, and for one of resolving if it has
any. -/
theorem compile_accepts_iff (document : Document) (world : World) :
    ((∃ program, (document.compile world).1 = .ok program) ↔ document.Acceptable world) ∧
      ∀ fault, (document.compile world).1 = .error fault →
        document.Refusable world fault ∧
          ((∃ other, document.Flawed world other) → document.Flawed world fault) := by
  refine ⟨⟨?_, ?_⟩, ?_⟩
  · rintro ⟨program, h⟩
    exact acceptable_of_compile h
  · intro hacceptable
    cases h : (document.compile world).1 with
    | ok program => exact ⟨program, rfl⟩
    | error fault =>
        exact absurd (refusable_of_compile h) (not_refusable_of_acceptable hacceptable fault)
  · intro fault h
    have hrefusable := refusable_of_compile h
    refine ⟨hrefusable, ?_⟩
    rintro ⟨other, hother⟩
    cases hrefusable with
    | flawed hflawed => exact hflawed
    | lacking hsound _ => exact absurd hother (hsound other)
    | tooDeep hsound _ => exact absurd hother (hsound other)

/-- A branch that is never taken has to be right like any other. -/
example :
    let branch : Element := .node { kind := some "call", callback := some "beep" }
    let root : Element := .node {
      kind := some "cond", expr := some (.number 1), ifNode := some (.number 2),
      elseNode := some branch }
    (Document.compile { root } {}).1 = .error (.unknownCallback "beep") := rfl

end Animation.Document
