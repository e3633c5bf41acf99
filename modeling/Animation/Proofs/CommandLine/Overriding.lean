import Animation.CommandLine.Arguments
import Animation.Proofs.CommandLine.Commands

/-!
Overriding a declared value from the command line. The name in an assignment
ends at the first equals sign and is trimmed, so a name can be written in an
assignment exactly if it has no equals sign in it and no white space at its
ends. Every declared name like that can be overridden, and only the cell of
that name is written to.
-/

namespace Animation.Text

theorem mem_of_mem_trim {text : List Char} {c : Char} (h : c ∈ trim text) : c ∈ text := by
  rw [trim, List.mem_reverse] at h
  have hrest := (List.dropWhile_sublist _).subset h
  exact (List.dropWhile_sublist _).subset (List.mem_reverse.mp hrest)

end Animation.Text

namespace Animation.CommandLine

/-! ### Names in assignments -/

/-- The parts are those around an equals sign with none before it. -/
theorem splitEquals?_eq_some_iff {text before after : List Char} :
    splitEquals? text = some (before, after) ↔
      '=' ∉ before ∧ text = before ++ '=' :: after := by
  induction text generalizing before with
  | nil => simp [splitEquals?]
  | cons c rest ih =>
      by_cases hequals : c = '='
      · rw [splitEquals?, if_pos hequals]
        constructor
        · rintro ⟨⟩
          exact ⟨List.not_mem_nil, by rw [hequals, List.nil_append]⟩
        · rintro ⟨hnone, htext⟩
          cases before with
          | nil => cases htext; rfl
          | cons d before =>
              cases htext
              exact absurd (hequals ▸ List.mem_cons_self) hnone
      · rw [splitEquals?, if_neg hequals, Option.map_eq_some_iff]
        constructor
        · rintro ⟨⟨before, after⟩, hsplit, ⟨⟩⟩
          obtain ⟨hnone, htext⟩ := ih.mp hsplit
          refine ⟨?_, by rw [htext, List.cons_append]⟩
          exact List.not_mem_cons_of_ne_of_not_mem (Ne.symm hequals) hnone
        · rintro ⟨hnone, htext⟩
          cases before with
          | nil => cases htext; exact absurd rfl hequals
          | cons d before =>
              cases htext
              exact ⟨_, ih.mpr ⟨List.not_mem_of_not_mem_cons hnone, rfl⟩, rfl⟩

theorem ofText_eq_ok_iff {text : String} {assignment : Assignment} :
    Assignment.ofText text = .ok assignment ↔
      ∃ before after, '=' ∉ before ∧ text.toList = before ++ '=' :: after ∧
        assignment.name = String.ofList (Text.trim before) ∧
        Decimal.read? (String.ofList (Text.trim after)) = some assignment.value := by
  obtain ⟨name, value⟩ := assignment
  cases hsplit : splitEquals? text.toList with
  | none =>
      refine iff_of_false (by simp only [Assignment.ofText, hsplit]; exact nofun) ?_
      rintro ⟨before, after, hnone, htext, -⟩
      cases hsplit.symm.trans (splitEquals?_eq_some_iff.mpr ⟨hnone, htext⟩)
  | some parts =>
      obtain ⟨before, after⟩ := parts
      obtain ⟨hnone, htext⟩ := splitEquals?_eq_some_iff.mp hsplit
      simp only [Assignment.ofText, hsplit]
      constructor
      · intro h
        split at h
        · next hvalue =>
            cases h
            exact ⟨before, after, hnone, htext, rfl, hvalue⟩
        · cases h
      · rintro ⟨before', after', hnone', htext', rfl, hvalue⟩
        cases hsplit.symm.trans (splitEquals?_eq_some_iff.mpr ⟨hnone', htext'⟩)
        rw [hvalue]

variable {name value : String} {x : Float}

/-- A name comes back from an assignment to it exactly if splitting and
trimming leave it as it is. -/
theorem ofText_written_iff
    (hvalue : Decimal.read? (String.ofList (Text.trim value.toList)) = some x) :
    Assignment.ofText (name ++ "=" ++ value) = .ok ⟨name, x⟩ ↔
      '=' ∉ name.toList ∧ Text.trim name.toList = name.toList := by
  have htext : (name ++ "=" ++ value).toList = name.toList ++ '=' :: value.toList := by simp
  rw [ofText_eq_ok_iff, htext]
  constructor
  · rintro ⟨before, after, hnone, hparts, hname, -⟩
    have htrim : Text.trim before = name.toList := by
      rw [show name = _ from hname, String.toList_ofList]
    have hnot : '=' ∉ name.toList := fun hmem =>
      hnone (Text.mem_of_mem_trim (htrim.symm ▸ hmem))
    have hsplit := splitEquals?_eq_some_iff.mpr ⟨hnone, hparts⟩
    rw [splitEquals?_eq_some_iff.mpr ⟨hnot, rfl⟩] at hsplit
    cases hsplit
    exact ⟨hnot, htrim⟩
  · rintro ⟨hnone, htrim⟩
    exact ⟨_, _, hnone, rfl, by rw [htrim, String.ofList_toList], hvalue⟩

/-! ### The option -/

namespace Reader

/-- The reader after it has also taken this assignment. -/
def assigned (reader : Reader) (assignment : Assignment) : Reader :=
  { reader with
    taken := { reader.taken with assignments := reader.taken.assignments ++ [assignment] } }

variable {reader ready : Reader} {text : String} {assignment : Assignment}

theorem take_assignment (h : Assignment.ofText text = .ok assignment)
    (hready : reader.settle = .ok ready) :
    reader.take .assignment (some text) = .ok (ready.assigned assignment) := by
  simp only [take, hready, bind, Except.bind, Taken.take, h, pure, Except.pure, assigned]

/-- Settling changes neither the level nor whether there are options to come. -/
theorem settle_kept (h : reader.settle = .ok ready) :
    ready.level = reader.level ∧ ready.separated = reader.separated ∧ ready.pending = none := by
  unfold settle at h
  split at h
  · next hpending =>
      cases h
      exact ⟨rfl, rfl, hpending⟩
  · next flag value _ =>
      cases htaken : reader.taken.take flag value with
      | error stop => rw [htaken] at h; cases h
      | ok taken => rw [htaken] at h; cases h; exact ⟨rfl, rfl, rfl⟩

theorem find_set : Level.eval.flags.find? (fun flag => flag.name == "set") = some .assignment := by
  decide

/-- The text is attached to the option. -/
theorem step_attached (hlevel : reader.level = .eval) (hopen : reader.separated = false)
    (h : Assignment.ofText text = .ok assignment) (hready : reader.settle = .ok ready) :
    reader.step ("--set=" ++ text) = .ok (ready.assigned assignment) := by
  have hshape : Shape.ofArgument ("--set=" ++ text) = .long "set" (some text) := by
    simp [Shape.ofArgument, splitEquals?]
  simp only [step, hopen, hshape, long, hlevel, find_set, Flag.valueName?]
  exact take_assignment h hready

/-- The text follows the option, and does not look like an option itself. -/
theorem step_following (hlevel : reader.level = .eval) (hopen : reader.separated = false)
    (hplain : text.toList.head? ≠ some '-') (h : Assignment.ofText text = .ok assignment)
    (hready : reader.settle = .ok ready) :
    (do (← (← reader.step "--set").step text).settle) = .ok (ready.assigned assignment) := by
  obtain ⟨-, hopen', hsettled⟩ := settle_kept hready
  have hshape : Shape.ofArgument text = .plain := by
    unfold Shape.ofArgument
    split
    all_goals simp_all
  have hoption : Shape.ofArgument "--set" = .long "set" none := rfl
  have hfirst : reader.step "--set" = .ok { ready with pending := some (.assignment, none) } := by
    simp only [step, hopen, hoption, long, hlevel, find_set, Flag.valueName?, hready, Except.map]
    rfl
  have hsecond : Reader.step { ready with pending := some (.assignment, none) } text =
      .ok { ready with pending := some (.assignment, some text) } := by
    simp only [step, hopen', hopen, hshape, plain]
    rfl
  have hlast : Reader.settle { ready with pending := some (.assignment, some text) } =
      .ok (ready.assigned assignment) := by
    simp only [settle, Taken.take, h, Except.map, assigned, hsettled]
  simp only [hfirst, hsecond, hlast, bind, Except.bind]

end Reader

/-! ### What is overridden -/

/-- One cell has changed: that of this name and of no other, which now holds
this number. -/
structure Overrides (name : String) (x : Float) (before after : World) : Prop where
  names : after.names = before.names
  cell : ∃ cell, before.names.value name = .ok cell ∧
    after.store.cells[cell.index]? = some (.slot (some x)) ∧
    (∀ i, i ≠ cell.index → after.store.cells[i]? = before.store.cells[i]?) ∧
    ∀ other, before.names.value other = .ok cell → other = name

theorem mem_overridden {document : Document} {assignments : List Assignment} {name : String} :
    name ∈ (overridden document assignments).values ↔ name ∈ document.values := by
  rw [Std.TreeMap.mem_iff_isSome_getElem?, getElem?_overridden, Option.isSome_map,
    Std.TreeMap.mem_iff_isSome_getElem?]

theorem overrides_assign {document : Document} {before : World} {name : String}
    (h : document.Loaded hostWorld before) (hdeclared : name ∈ document.values) (x : Float) :
    Overrides name x before (before.assign name x).2 := by
  obtain ⟨cell, hcell⟩ := Names.binds_iff.mp ((h.binds name).mpr (.inr hdeclared))
  obtain ⟨_, -, -, hslot, honly⟩ := h.slot_of_new (not_binds_hostWorld name) hcell
  have htaken : before.store.isSlot cell = true := Store.isSlot_iff.mpr ⟨_, hslot⟩
  have hassign : before.assign name x =
      (.ok true, { before with store := before.store.put cell (some x) }) := by
    simp only [World.assign, hcell, Store.write, htaken]
  rw [hassign]
  refine ⟨rfl, cell, hcell, ?_, ?_, honly⟩
  · rw [Store.getElem?_put, if_pos ⟨rfl, htaken⟩]
  · exact fun i hi => Store.getElem?_put_of_ne hi.symm _

/-- Assignments after these ones begin in the world to which these ones led. -/
theorem assignAll_append {world between : World} {early : List Assignment}
    (h : assignAll world early = .ok between) (late : List Assignment) :
    assignAll world (early ++ late) = assignAll between late := by
  induction early generalizing world with
  | nil => cases h; rfl
  | cons assignment rest ih =>
      rw [List.cons_append]
      simp only [assignAll] at h ⊢
      split at h
      · cases h
      · split at h
        · next htaken => rw [if_pos htaken, ih h]
        · cases h

variable {read : String → Except FileFault ByteArray} {path : String} {bytes : ByteArray}
  {document : Document} {program : Program} {name value : String} {x : Float}

/-- Let a file hold a document that compiles and declares a name without equals
signs in it and white space at its ends, and let a text be a number `x`, with or
without white space around it. Then `name=text` is read as the assignment of
`x` to this very name, wherever among the options of an evaluation it is given
to `--set`, attached or as the next argument; as the latter it must not begin
with a hyphen. And in whatever world the assignments before it have led to, it
puts `x` into the cell of this name and changes nothing else; the assignments
after it, and then the passes, begin there. -/
theorem assignment_overrides (hread : read path = .ok bytes) (hholds : Holds bytes document)
    (hcompile : (document.compile hostWorld).1 = .ok program) (hdeclared : name ∈ document.values)
    (hvalue : Decimal.read? (String.ofList (Text.trim value.toList)) = some x)
    (hequals : '=' ∉ name.toList) (hends : Text.trim name.toList = name.toList) :
    let text := name ++ "=" ++ value
    Assignment.ofText text = .ok ⟨name, x⟩ ∧
      (∀ reader ready : Reader, reader.level = .eval → reader.separated = false →
        reader.settle = .ok ready →
        reader.step ("--set=" ++ text) = .ok (ready.assigned ⟨name, x⟩) ∧
          (name.toList.head? ≠ some '-' →
            (do (← (← reader.step "--set").step text).settle) = .ok (ready.assigned ⟨name, x⟩))) ∧
      ∀ early : List Assignment, (∀ assignment ∈ early, assignment.name ∈ document.values) →
        ∃ before after, assignAll (document.declareValues hostWorld) early = .ok before ∧
          Overrides name x before after ∧
          ∀ late ticks, eval read path ticks (early ++ ⟨name, x⟩ :: late) =
            (assignAll after late).map fun start => report { program } start 0 ticks := by
  intro text
  have htext : Assignment.ofText text = .ok ⟨name, x⟩ :=
    (ofText_written_iff hvalue).mpr ⟨hequals, hends⟩
  refine ⟨htext, ?_, ?_⟩
  · intro reader ready hlevel hopen hready
    refine ⟨Reader.step_attached hlevel hopen htext hready, fun hhyphen => ?_⟩
    refine Reader.step_following hlevel hopen ?_ htext hready
    cases hname : name.toList with
    | nil => simp [text, hname]
    | cons c rest => simpa [text, hname] using hhyphen
  · intro early hearly
    have hloaded := document.loaded_declareValues closed_hostWorld.sound
    rcases assignAll_cases hloaded early with
      ⟨-, before, hbefore, -, hbetween⟩ | ⟨assignment, hmem, hnot, -⟩
    · have hin : name ∈ (overridden document early).values := mem_overridden.mpr hdeclared
      have htaken := (hbetween.assign x hin (not_binds_hostWorld name)).1
      refine ⟨before, _, hbefore, overrides_assign hbetween hin x, fun late ticks => ?_⟩
      rcases prepare_cases hread with ⟨other, twin, hother, htwin, -, heval⟩ | ⟨_, hnone, -⟩
      · cases hholds.unique hother
        cases hcompile.symm.trans htwin
        rw [heval, assignAll_append hbefore, assignAll_taken htaken]
      · exact absurd ⟨program, hcompile⟩ (hnone document hholds)
    · exact absurd (hearly assignment hmem) hnot

/-- A value that has been assigned to before, and a number with blanks. -/
theorem assignment_overrides_speed :
    let text := (Json.object [("values", .object [("speed", .null)]),
      ("root", .object [("ref", .string "speed")])]).write
    let read : String → Except FileFault ByteArray := fun _ => .ok text.toUTF8
    let document : Document :=
      { values := Std.TreeMap.ofList [("speed", none)], root := .ref "speed" }
    Assignment.ofText "speed= 2 " = .ok ⟨"speed", 2⟩ ∧
      ∃ before after, assignAll (document.declareValues hostWorld) [⟨"speed", 3⟩] = .ok before ∧
        Overrides "speed" 2 before after ∧
        eval read "speed.json" 1 [⟨"speed", 3⟩, ⟨"speed", 2⟩] =
          .ok (report { program := .read ⟨0⟩ } after 0 1) := by
  intro text read document
  have hholds : Holds text.toUTF8 document := by
    apply holds_toUTF8
    rw [Document.ofText?_write]
    · rfl
    · simp [Json.Exact, Json.ExactMembers]
    · decide
    · simp
    · decide
  have hdeclared : "speed" ∈ document.values := by decide
  have hread : read "speed.json" = .ok text.toUTF8 := rfl
  have hcompile : (document.compile hostWorld).1 = .ok (.read ⟨0⟩) := rfl
  have hvalue : Decimal.read? (String.ofList (Text.trim " 2 ".toList)) = some 2 := rfl
  obtain ⟨htext, -, hworlds⟩ :=
    assignment_overrides hread hholds hcompile hdeclared hvalue (by decide) (by decide)
  obtain ⟨before, after, hbefore, hafter, heval⟩ := hworlds [⟨"speed", 3⟩] (by simp [hdeclared])
  exact ⟨htext, before, after, hbefore, hafter, heval [] 1⟩

/-- Of names with an equals sign, a blank at an end or a hyphen in front, none
can be overridden by its assignment as it is: the first is split, the second
means another name, and the third looks like an option. -/
theorem assignment_goes_astray :
    let document : Document :=
      { values := Std.TreeMap.ofList
          [("a=b", some (0 : Float)), (" a", some 0), ("a", some 0), ("-a", some 0)]
        root := .ref " a" }
    (document.compile hostWorld).1 = .ok (.read ⟨0⟩) ∧ "a=b" ∈ document.values ∧
      " a" ∈ document.values ∧ "-a" ∈ document.values ∧ Decimal.read? "1" = some 1 ∧
      Assignment.ofText ("a=b" ++ "=" ++ "1") = .error .badNumber ∧
      Assignment.ofText (" a" ++ "=" ++ "1") = .ok ⟨"a", 1⟩ ∧
      (∃ after, assignAll (document.declareValues hostWorld) [⟨"a", 1⟩] = .ok after ∧
        (after.read " a").1 = .ok (some 0) ∧ (after.read "a").1 = .ok (some 1)) ∧
      readArguments ["eval", "--in", "a.json", "--set", "-a" ++ "=" ++ "1"] =
        .error (.unexpected "-a") := by
  intro document
  exact ⟨rfl, by decide, by decide, by decide, rfl, rfl, rfl, ⟨_, rfl, rfl, rfl⟩, rfl⟩

end Animation.CommandLine
