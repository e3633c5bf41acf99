import Animation.Json.Write

/-!
Written numbers and other JSON values are one line each. Strings may have line
breaks in them, but these are escaped like all control characters.
-/

namespace Animation

/-- There is no line break in the text. -/
def OneLine (text : List Char) : Prop := '\n' ∉ text

@[simp] theorem oneLine_nil : OneLine [] := List.not_mem_nil

@[simp] theorem oneLine_cons {c : Char} {text : List Char} :
    OneLine (c :: text) ↔ '\n' ≠ c ∧ OneLine text := by
  simp [OneLine]

@[simp] theorem oneLine_append {text after : List Char} :
    OneLine (text ++ after) ↔ OneLine text ∧ OneLine after := by
  simp [OneLine]

theorem oneLine_intercalate {separator : String} (hseparator : OneLine separator.toList)
    {texts : List String} (h : ∀ text ∈ texts, OneLine text.toList) :
    OneLine (separator.intercalate texts).toList := by
  induction texts with
  | nil => simp
  | cons text rest ih =>
      obtain ⟨htext, hrest⟩ := List.forall_mem_cons.mp h
      cases rest with
      | nil => rwa [String.intercalate_singleton]
      | cons next rest =>
          rw [String.intercalate_cons_cons, String.toList_append, String.toList_append,
            oneLine_append, oneLine_append]
          exact ⟨⟨htext, hseparator⟩, ih hrest⟩

@[simp] theorem oneLine_toDigits (n : Nat) : OneLine (Nat.toDigits 10 n) := by
  intro hmem
  exact absurd (Nat.isDigit_of_mem_toDigits (by decide) (by decide) hmem) (by decide)

namespace Layout

@[simp] theorem oneLine_zeros (count : Nat) : OneLine (zeros count) := by
  simp [OneLine, zeros]

section

variable {digits : List Char}

theorem oneLine_take (h : OneLine digits) (count : Nat) : OneLine (digits.take count) :=
  fun hmem => h (List.mem_of_mem_take hmem)

theorem oneLine_drop (h : OneLine digits) (count : Nat) : OneLine (digits.drop count) :=
  fun hmem => h (List.mem_of_mem_drop hmem)

theorem oneLine_positional (h : OneLine digits) (leading : Int) :
    OneLine (positional digits leading) := by
  unfold positional
  dsimp only
  split
  · simp [h]
  · split
    · simp [h]
    · simp [oneLine_take h, oneLine_drop h]

theorem oneLine_scientific (h : OneLine digits) (plus : Bool) (leading : Int) :
    OneLine (scientific plus digits leading) := by
  have hsign : OneLine (if leading < 0 then ['-'] else if plus then ['+'] else []) := by
    split
    · simp
    · split <;> simp
  simp only [scientific, oneLine_append, oneLine_cons]
  refine ⟨⟨⟨oneLine_take h 1, ?_⟩, by decide, hsign⟩, oneLine_toDigits _⟩
  split
  · simp
  · exact oneLine_cons.mpr ⟨by decide, oneLine_drop h 1⟩

end

theorem oneLine_write (layout : Layout) (x : Float) : OneLine (layout.write x).toList := by
  have hsign : OneLine (if Number.signBit x then "-" else "").toList := by
    split <;> simp
  have hdecimal (value : Decimal) : OneLine (layout.decimal value) := by
    unfold decimal
    dsimp only
    split
    · exact oneLine_positional (oneLine_toDigits _) _
    · exact oneLine_scientific (oneLine_toDigits _) _ _
  unfold write
  dsimp only
  split
  · simp
  · simp [hsign]
  · simp [hsign]
  · simp [hsign, hdecimal]

end Layout

namespace Quoted

theorem oneLine_escape (c : Char) : OneLine (escape c) := by
  have hhex (n : Nat) : '\n' ≠ hexChar n := by
    have hall : ∀ d < 16, '\n' ≠ Nat.digitChar d := by decide
    exact hall _ (Nat.mod_lt n (by decide))
  unfold escape
  split
  iterate 7 · simp
  · next hbreak _ _ =>
      split
      · simp [hhex]
      · simpa [eq_comm] using hbreak

theorem oneLine_encode (text : String) : OneLine (encode text).toList := by
  have hbody : OneLine (text.toList.flatMap escape) := by
    intro hmem
    obtain ⟨c, -, hc⟩ := List.mem_flatMap.mp hmem
    exact oneLine_escape c hc
  simp [encode, hbody]

end Quoted

theorem JsonNumber.oneLine_write (number : JsonNumber) : OneLine number.write.toList := by
  cases number with
  | natural value => simp [write]
  | negative magnitude => simp [write]
  | real value => exact Layout.oneLine_write _ value

namespace Json

theorem oneLine_comma : OneLine ",".toList := by simp

mutual

theorem oneLine_write : ∀ json : Json, OneLine json.write.toList
  | .null | .bool true | .bool false => by simp [write]
  | .number value => value.oneLine_write
  | .string text => Quoted.oneLine_encode text
  | .array items => by
    have hitems := oneLine_intercalate oneLine_comma (oneLine_writeItems items)
    rw [write, String.toList_append, String.toList_append]
    simp only [oneLine_append]
    exact ⟨⟨by simp, hitems⟩, by simp⟩
  | .object members => by
    have hmembers := oneLine_intercalate oneLine_comma (oneLine_writeMembers members)
    rw [write, String.toList_append, String.toList_append]
    simp only [oneLine_append]
    exact ⟨⟨by simp, hmembers⟩, by simp⟩

theorem oneLine_writeItems : ∀ items : List Json, ∀ text ∈ writeItems items, OneLine text.toList
  | [], _, h => nomatch h
  | item :: rest, text, h => by
    rcases List.mem_cons.mp h with rfl | hrest
    · exact oneLine_write item
    · exact oneLine_writeItems rest text hrest

theorem oneLine_writeMembers : ∀ members : List (String × Json),
    ∀ text ∈ writeMembers members, OneLine text.toList
  | [], _, h => nomatch h
  | (name, value) :: rest, text, h => by
    rcases List.mem_cons.mp h with rfl | hrest
    · simp only [String.toList_append, oneLine_append]
      exact ⟨⟨Quoted.oneLine_encode name, by simp⟩, oneLine_write value⟩
    · exact oneLine_writeMembers rest text hrest

end

end Json

end Animation
