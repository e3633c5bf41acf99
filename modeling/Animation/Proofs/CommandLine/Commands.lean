import Animation.Proofs.CommandLine.Reports
import Animation.Proofs.Document.Reading

/-!
The two commands as a whole. Everything that can go wrong does so before the
first pass: reading the text, compiling the document, assigning to a name that
is not declared. The two commands go through the same stages in the same
order, and checking ends where the assignments would begin.
-/

namespace Animation.CommandLine

variable {read : String → Except FileFault ByteArray} {path : String} {bytes : ByteArray}

/-- The bytes are the text of this document. -/
def Holds (bytes : ByteArray) (document : Document) : Prop :=
  ∃ text, String.fromUTF8? bytes = some text ∧ Document.ofText? text = some document

/-- The document compiles where there is nothing but the log. -/
def Compiles (document : Document) : Prop :=
  ∃ program, (document.compile hostWorld).1 = .ok program

/-- A document that is given as a text can be kept in a file. -/
theorem holds_toUTF8 {text : String} {document : Document}
    (h : Document.ofText? text = some document) : Holds text.toUTF8 document := by
  have hvalid : text.toUTF8.IsValidUTF8 := text.isValidUTF8
  refine ⟨text, ?_, h⟩
  rw [String.fromUTF8?, dif_pos hvalid]
  rfl

theorem Holds.unique {document other : Document} (h : Holds bytes document)
    (hother : Holds bytes other) : document = other := by
  obtain ⟨text, htext, hdocument⟩ := h
  obtain ⟨text', htext', hdocument'⟩ := hother
  cases htext.symm.trans htext'
  exact Option.some.inj (hdocument.symm.trans hdocument')

/-! ### The stages in common -/

/-- Opening a file that can be read gives its document, or says what is wrong
with its content. -/
theorem openDocument_cases (hread : read path = .ok bytes) :
    (∃ document, Holds bytes document ∧ openDocument read path = .ok document) ∨
      (∀ document, ¬ Holds bytes document) ∧
        (openDocument read path = .error (.encoding path) ∨
          openDocument read path = .error (.parse path)) := by
  cases htext : String.fromUTF8? bytes with
  | none =>
      refine .inr ⟨?_, .inl ?_⟩
      · rintro document ⟨text, hvalid, -⟩
        cases htext.symm.trans hvalid
      · simp only [openDocument, hread, Except.mapError, bind, Except.bind, htext]
  | some text =>
      cases hdocument : Document.ofText? text with
      | none =>
          refine .inr ⟨?_, .inr ?_⟩
          · rintro document ⟨text', hvalid, hparses⟩
            cases htext.symm.trans hvalid
            cases hdocument.symm.trans hparses
          · simp only [openDocument, hread, Except.mapError, bind, Except.bind, htext, hdocument]
      | some document =>
          refine .inl ⟨document, ⟨text, htext, hdocument⟩, ?_⟩
          simp only [openDocument, hread, Except.mapError, bind, Except.bind, htext, hdocument]

theorem compileDocument_cases (document : Document) :
    (∃ program, (document.compile hostWorld).1 = .ok program ∧
      compileDocument document = .ok (program, document.declareValues hostWorld)) ∨
      ∃ fault, (document.compile hostWorld).1 = .error fault ∧
        compileDocument document = .error (.compile fault) := by
  cases hprogram : (document.compile hostWorld).1 with
  | ok program =>
      refine .inl ⟨program, rfl, ?_⟩
      rw [Document.compile_fst] at hprogram
      rw [compileDocument, Document.compile_eq_ok hprogram]
  | error fault =>
      refine .inr ⟨fault, rfl, ?_⟩
      have hcompile : document.compile hostWorld =
          (.error fault, (document.compile hostWorld).2) := Prod.ext hprogram rfl
      rw [compileDocument, hcompile]

/-- The stages that the commands have in common lead to a program, or both
commands fail, for the same reason. -/
theorem prepare_cases (hread : read path = .ok bytes) :
    (∃ document program, Holds bytes document ∧ (document.compile hostWorld).1 = .ok program ∧
      check read path = .ok () ∧ ∀ ticks assignments, eval read path ticks assignments =
        (assignAll (document.declareValues hostWorld) assignments).map
          fun start => report { program } start 0 ticks) ∨
      ∃ failure, (∀ document, Holds bytes document → ¬ Compiles document) ∧
        (∀ name, failure ≠ .readOnly name) ∧ check read path = .error failure ∧
        ∀ ticks assignments, eval read path ticks assignments = .error failure := by
  rcases openDocument_cases hread with ⟨document, hholds, hopen⟩ | ⟨hnone, hopen⟩
  · rcases compileDocument_cases document with
      ⟨program, hprogram, hcompile⟩ | ⟨fault, hfault, hcompile⟩
    · refine .inl ⟨document, program, hholds, hprogram, ?_, ?_⟩
      · simp only [check, hopen, hcompile, bind, Except.bind, pure, Except.pure]
      · intro ticks assignments
        simp only [eval, hopen, hcompile, bind, Except.bind, pure, Except.pure]
        cases assignAll (document.declareValues hostWorld) assignments <;> rfl
    · refine .inr ⟨.compile fault, ?_, ?_, ?_, ?_⟩
      · rintro other hother ⟨program, hprogram⟩
        cases hholds.unique hother
        cases hfault.symm.trans hprogram
      · exact fun name => Failure.noConfusion
      · simp only [check, hopen, hcompile, bind, Except.bind]
      · intro ticks assignments
        simp only [eval, hopen, hcompile, bind, Except.bind]
  · have hfails : ∃ failure, openDocument read path = .error failure ∧
        ∀ name, failure ≠ .readOnly name := by
      cases hopen with
      | inl h => exact ⟨_, h, fun name => Failure.noConfusion⟩
      | inr h => exact ⟨_, h, fun name => Failure.noConfusion⟩
    obtain ⟨failure, hopen, hother⟩ := hfails
    refine .inr ⟨failure, fun document hholds => absurd hholds (hnone document), hother, ?_, ?_⟩
    · simp only [check, hopen, bind, Except.bind]
    · intro ticks assignments
      simp only [eval, hopen, bind, Except.bind]

/-! ### Evaluating -/

/-- What a command shows of so many passes of a program: a line for each pass
on the one stream, and a line for each call of the log on the other. -/
structure Outcome.Shows (outcome : Outcome) (ticks : Nat) (declared : List String)
    (program : Program) (start : World) : Prop where
  code : outcome.code = 0
  output : ∃ reports : List Report, reports.length = ticks ∧
    outcome.output = reports.map (fun report => report.toJson.write) ∧
    ∀ tick (report : Report), reports[tick]? = some report →
      report.Shows tick declared program start
  errors : outcome.errors =
    (Event.calls (start.perform (Player.play { program } ticks)).2.1).map fun call => logLine call.2
  calls : ∀ call ∈ Event.calls (start.perform (Player.play { program } ticks)).2.1,
    call.1 = .record "log"
  lines : ∀ line ∈ outcome.output ++ outcome.errors, OneLine line.toList

end Animation.CommandLine
