import Animation.Json.Outline
import Animation.Proofs.Json.Lexemes
import Animation.Proofs.Json.Nesting

/-!
What is written is read back. The scanner sees one character at a time and may
not know yet that a word is over, so a text counts as scanned when the scanner
could stop there; texts that are scanned can then be put one after the other.
The builder is followed in the same way, token by token and from any stack of
open containers.

All of this is about values whose numbers are whole. How they are spelled does
not matter for the containers around them.
-/

namespace Animation

namespace Token

open Scanner

/-! ### Scanning -/

/-- Scanned from anywhere between two tokens, the text has these tokens. -/
def Scans (text : List Char) (tokens : List Token) : Prop :=
  ∀ done, ∃ scanner, text.foldlM Scanner.step { done } = some scanner ∧
    scanner.finish? = some (done.reverse ++ tokens)

theorem scan?_of_scans {text : String} {tokens : List Token} (h : Scans text.toList tokens) :
    scan? text = some tokens := by
  obtain ⟨scanner, hrun, hfinish⟩ := h []
  rw [scan?, hrun]
  exact hfinish

theorem scans_nil : Scans [] [] := by
  intro done
  exact ⟨{ done }, rfl, by simp [finish?]⟩

/-- Where the text could end, the next token can begin. -/
theorem step_of_finish? {scanner : Scanner} {tokens : List Token} {c : Char}
    (h : scanner.finish? = some tokens) (hends : endsWord c = true) :
    scanner.step c = some (start tokens.reverse c) := by
  obtain ⟨done, inside⟩ := scanner
  cases inside with
  | nothing =>
      obtain rfl : done.reverse = tokens := Option.some.inj h
      simp [Scanner.step]
  | word read =>
      obtain ⟨token, hword, hcons⟩ := Option.bind_eq_some_iff.mp h
      obtain rfl : (token :: done).reverse = tokens := Option.some.inj hcons
      simp [Scanner.step, hends, hword]
  | quoted read | escape read => cases h

theorem Scans.append {text after : List Char} {tokens later : List Token}
    (h : Scans text tokens) (hafter : Scans after later)
    (hends : ∀ c ∈ after.head?, endsWord c = true) :
    Scans (text ++ after) (tokens ++ later) := by
  intro done
  obtain ⟨scanner, hrun, hfinish⟩ := h done
  obtain ⟨last, hlast, hstop⟩ := hafter (done.reverse ++ tokens).reverse
  rw [List.reverse_reverse, List.append_assoc] at hstop
  rw [List.foldlM_append, hrun]
  cases after with
  | nil =>
      cases hlast
      refine ⟨scanner, rfl, ?_⟩
      rw [hfinish, ← hstop]
      simp [finish?]
  | cons c rest =>
      refine ⟨last, ?_, hstop⟩
      rw [Option.bind_eq_bind, Option.bind_some, List.foldlM_cons,
        step_of_finish? hfinish (hends c rfl), ← hlast]
      rfl

theorem start_punctuation {c : Char} {token : Token} (h : punctuation? c = some token)
    (done : List Token) : start done c = { done := token :: done } := by
  unfold punctuation? at h
  split at h <;> cases h <;> rfl

theorem Scans.punctuation {c : Char} {token : Token} {text : List Char} {tokens : List Token}
    (h : punctuation? c = some token) (htext : Scans text tokens) :
    Scans (c :: text) (token :: tokens) := by
  intro done
  obtain ⟨scanner, hrun, hfinish⟩ := htext (token :: done)
  refine ⟨scanner, ?_, by simpa using hfinish⟩
  rw [List.foldlM_cons, Scanner.step, start_punctuation h]
  exact hrun

theorem foldlM_word (done : List Token) {text : List Char}
    (h : ∀ c ∈ text, endsWord c = false) (read : List Char) :
    text.foldlM Scanner.step { done, inside := .word read } =
      some { done, inside := .word (text.reverse ++ read) } := by
  induction text generalizing read with
  | nil => rfl
  | cons c text ih =>
      obtain ⟨hc, htext⟩ := List.forall_mem_cons.mp h
      rw [List.foldlM_cons, List.reverse_cons, List.append_assoc]
      simp only [Scanner.step, hc]
      exact ih htext (c :: read)

theorem start_word {c : Char} (h : endsWord c = false) (done : List Token) :
    start done c = { done, inside := .word [c] } := by
  simp only [endsWord, Bool.or_eq_false_iff, beq_eq_false_iff_ne, Option.isSome_eq_false_iff,
    Option.isNone_iff_eq_none] at h
  simp [start, h]

theorem scans_word {text : List Char} {token : Token} (hne : text ≠ [])
    (h : ∀ c ∈ text, endsWord c = false) (htoken : ofWord? text = some token) :
    Scans text [token] := by
  intro done
  obtain ⟨c, rest, rfl⟩ := List.exists_cons_of_ne_nil hne
  obtain ⟨hc, hrest⟩ := List.forall_mem_cons.mp h
  refine ⟨{ done, inside := .word (rest.reverse ++ [c]) }, ?_, by simp [finish?, htoken]⟩
  rw [List.foldlM_cons, Scanner.step, start_word hc]
  exact foldlM_word done hrest [c]

theorem scans_null : Scans "null".toList [.null] := by
  apply scans_word
  · simp
  · simp [endsWord, isBlank, punctuation?]
  · rfl

theorem scans_true : Scans "true".toList [.bool true] := by
  apply scans_word
  · simp
  · simp [endsWord, isBlank, punctuation?]
  · rfl

theorem scans_false : Scans "false".toList [.bool false] := by
  apply scans_word
  · simp
  · simp [endsWord, isBlank, punctuation?]
  · rfl

theorem hexChar_plain (n : Nat) :
    Quoted.hexChar n ≠ '"' ∧ Quoted.hexChar n ≠ '\\' ∧ ¬ (Quoted.hexChar n).toNat < 0x20 := by
  have hall : ∀ d < 16, Nat.digitChar d ≠ '"' ∧ Nat.digitChar d ≠ '\\' ∧
      ¬ (Nat.digitChar d).toNat < 0x20 := by decide
  exact hall _ (Nat.mod_lt n (by decide))

/-- What is written for a character does not end the string. -/
theorem foldlM_escape (done : List Token) (read : List Char) (c : Char) :
    (Quoted.escape c).foldlM Scanner.step { done, inside := .quoted read } =
      some { done, inside := .quoted ((Quoted.escape c).reverse ++ read) } := by
  unfold Quoted.escape
  split
  iterate 7 · rfl
  · next hquote hslash _ _ _ _ _ =>
      split
      · simp [Scanner.step, hexChar_plain]
      · next hcontrol => simp_all [Scanner.step]

theorem foldlM_body (done : List Token) (read text : List Char) :
    (text.flatMap Quoted.escape).foldlM Scanner.step { done, inside := .quoted read } =
      some { done, inside := .quoted ((text.flatMap Quoted.escape).reverse ++ read) } := by
  induction text generalizing read with
  | nil => rfl
  | cons c text ih =>
      rw [List.flatMap_cons, List.foldlM_append, foldlM_escape, List.reverse_append,
        List.append_assoc]
      exact ih _

theorem scans_encode (text : String) :
    Scans (Quoted.encode text).toList [.string (some text)] := by
  intro done
  refine ⟨{ done := .string (some text) :: done }, ?_, by simp [finish?]⟩
  have hdecode := Quoted.decode?_escape text.toList
  rw [Quoted.encode, String.toList_ofList, List.cons_append, List.foldlM_cons]
  have hopen : Scanner.step { done } '"' = some { done, inside := .quoted [] } := rfl
  rw [hopen, Option.bind_eq_bind, Option.bind_some, List.foldlM_append, foldlM_body]
  simp [Scanner.step, hdecode]

theorem endsWord_head {c : Char} (h : endsWord c = true) (text : List Char) :
    ∀ first ∈ (c :: text).head?, endsWord first = true := by
  intro first hfirst
  cases hfirst
  exact h

/-- A word that is a numeral is none of the three names. -/
theorem ofWord?_of_ofChars? {word : List Char} {numeral : Numeral}
    (h : Numeral.ofChars? word = some numeral) : ofWord? word = some (.number numeral) := by
  unfold ofWord?
  split
  · next hnull =>
      subst hnull
      cases h
  · split
    · next htrue =>
        subst htrue
        cases h
    · split
      · next hfalse =>
          subst hfalse
          cases h
      · rw [h]
        rfl

theorem endsWord_of_isDigit {c : Char} (h : c.isDigit = true) : endsWord c = false := by
  have hpunctuation : punctuation? c = none := by
    unfold punctuation?
    split <;> first | rfl | cases h
  have hother : ∀ other : Char, other.isDigit = false → c ≠ other := by
    rintro other hother rfl
    cases h.symm.trans hother
  simp [endsWord, isBlank, hpunctuation, hother ' ' rfl, hother '\t' rfl, hother '\n' rfl,
    hother '\r' rfl, hother '"' rfl]

theorem endsWord_of_mem_toDigits {n : Nat} {c : Char} (h : c ∈ Nat.toDigits 10 n) :
    endsWord c = false :=
  endsWord_of_isDigit (Nat.isDigit_of_mem_toDigits (by decide) (by decide) h)

theorem endsWord_number {number : JsonNumber} (h : number.Exact) :
    ∀ c ∈ number.write.toList, endsWord c = false := by
  intro c hc
  cases number with
  | natural value =>
      rw [JsonNumber.write, Nat.toString_eq_repr, Nat.toList_repr] at hc
      exact endsWord_of_mem_toDigits hc
  | negative magnitude =>
      rw [JsonNumber.write, Nat.toString_eq_repr, String.toList_append, Nat.toList_repr] at hc
      rcases List.mem_cons.mp hc with rfl | hdigit
      · rfl
      · exact endsWord_of_mem_toDigits hdigit
  | real value => cases h

theorem scans_number {number : JsonNumber} (h : number.Exact) :
    ∃ numeral, Scans number.write.toList [.number numeral] ∧ numeral.value? = some number := by
  obtain ⟨numeral, hread, hvalue⟩ := JsonNumber.exists_numeral h
  refine ⟨numeral, scans_word ?_ (endsWord_number h) (ofWord?_of_ofChars? hread), hvalue⟩
  intro hnil
  rw [hnil] at hread
  cases hread

end Token

/-! ### Building -/

namespace Outline

open Builder

variable {tokens later : List Token} {outline : Outline}

/-- The tokens are one value. -/
def Builds (tokens : List Token) (outline : Outline) : Prop :=
  ∀ stack, tokens.foldlM Builder.step (.value stack) = some (.after outline stack)

/-- The tokens are the items that are left in an array, and its end. -/
def BuildsItems (tokens : List Token) (outlines : List Outline) : Prop :=
  ∀ done stack, tokens.foldlM Builder.step (.value (.array done :: stack)) =
    some (.after (.array (done.reverse ++ outlines)) stack)

/-- The tokens are the members that are left in an object, and its end. -/
def BuildsMembers (tokens : List Token) (outlines : List (Option String × Outline)) : Prop :=
  ∀ done stack, tokens.foldlM Builder.step (.name done stack) =
    some (.after (.object (done.reverse ++ outlines)) stack)

theorem ofTokens?_of_builds (h : Builds tokens outline) : ofTokens? tokens = some outline := by
  rw [ofTokens?, h]
  rfl

theorem Builds.item (h : Builds tokens outline) :
    BuildsItems (tokens ++ [.closeArray]) [outline] := by
  intro done stack
  rw [List.foldlM_append, h, ← List.reverse_cons]
  rfl

theorem Builds.items {outlines : List Outline} (h : Builds tokens outline)
    (hlater : BuildsItems later outlines) :
    BuildsItems (tokens ++ .comma :: later) (outline :: outlines) := by
  intro done stack
  have hrest := hlater (outline :: done) stack
  rw [List.reverse_cons, List.append_assoc] at hrest
  rw [List.foldlM_append, h]
  exact hrest

theorem Builds.member (h : Builds tokens outline) (name : Option String) :
    BuildsMembers (.string name :: .colon :: (tokens ++ [.closeObject])) [(name, outline)] := by
  intro done stack
  change (tokens ++ [Token.closeObject]).foldlM Builder.step (.value (.object done name :: stack)) = _
  rw [List.foldlM_append, h, ← List.reverse_cons]
  rfl

theorem Builds.members {outlines : List (Option String × Outline)} (h : Builds tokens outline)
    (name : Option String) (hlater : BuildsMembers later outlines) :
    BuildsMembers (.string name :: .colon :: (tokens ++ .comma :: later))
      ((name, outline) :: outlines) := by
  intro done stack
  have hrest := hlater ((name, outline) :: done) stack
  rw [List.reverse_cons, List.append_assoc] at hrest
  change (tokens ++ Token.comma :: later).foldlM Builder.step (.value (.object done name :: stack)) = _
  rw [List.foldlM_append, h]
  exact hrest

/-- A container may begin with whatever may come next in it. -/
theorem BuildsItems.array {outlines : List Outline} (h : BuildsItems tokens outlines) :
    Builds (.openArray :: tokens) (.array outlines) := by
  intro stack
  have hitems := h [] stack
  cases tokens with
  | nil => cases hitems
  | cons token rest =>
      have hfirst : Builder.step (.firstItem stack) token =
          Builder.step (.value (.array [] :: stack)) token := by
        cases token with
        | closeArray => cases hitems
        | _ => rfl
      change (Builder.step (.firstItem stack) token >>= _) = _
      rw [hfirst]
      exact hitems

theorem BuildsMembers.object {outlines : List (Option String × Outline)}
    (h : BuildsMembers tokens outlines) : Builds (.openObject :: tokens) (.object outlines) := by
  intro stack
  have hmembers := h [] stack
  cases tokens with
  | nil => cases hmembers
  | cons token rest =>
      have hfirst : Builder.step (.firstName stack) token = Builder.step (.name [] stack) token := by
        cases token with
        | string text => rfl
        | _ => cases hmembers
      change (Builder.step (.firstName stack) token >>= _) = _
      rw [hfirst]
      exact hmembers

end Outline

/-! ### Values -/

namespace Json

open Token Outline

mutual

/-- Whether all numbers in it are whole. -/
def Exact : Json → Prop
  | .number value => value.Exact
  | .array items => ExactItems items
  | .object members => ExactMembers members
  | _ => True

def ExactItems : List Json → Prop
  | [] => True
  | item :: rest => Exact item ∧ ExactItems rest

def ExactMembers : List (String × Json) → Prop
  | [] => True
  | (_, value) :: rest => Exact value ∧ ExactMembers rest

end

variable {text after : List Char} {json : Json}

/-- The text is well formed, and it is this value wherever there is room for
its containers. -/
def Reads (text : List Char) (json : Json) : Prop :=
  ∃ tokens outline, Scans text tokens ∧ Builds tokens outline ∧
    ∀ depth, json.nesting ≤ depth → outline.value? depth = some json

/-- The text has the items that are left in an array, and its end. -/
def ReadsItems (text : List Char) (items : List Json) : Prop :=
  ∃ tokens outlines, Scans text tokens ∧ BuildsItems tokens outlines ∧
    ∀ depth, nestingOfItems items ≤ depth → values? depth outlines = some items

/-- The text has the members that are left in an object, and its end. -/
def ReadsMembers (text : List Char) (members : List (String × Json)) : Prop :=
  ∃ tokens outlines, Scans text tokens ∧ BuildsMembers tokens outlines ∧
    ∀ depth, nestingOfMembers members ≤ depth → memberValues? depth outlines = some members

theorem ofText?_of_reads {text : String} (h : Reads text.toList json) :
    ∃ outline, Outline.ofText? text = some outline ∧
      ∀ depth, json.nesting ≤ depth → outline.value? depth = some json := by
  obtain ⟨tokens, outline, hscans, hbuilds, hvalue⟩ := h
  refine ⟨outline, ?_, hvalue⟩
  rw [Outline.ofText?, scan?_of_scans hscans]
  exact ofTokens?_of_builds hbuilds

theorem Reads.item (h : Reads text json) : ReadsItems (text ++ [']']) [json] := by
  obtain ⟨tokens, outline, hscans, hbuilds, hvalue⟩ := h
  have hend : Scans [']'] [.closeArray] := scans_nil.punctuation rfl
  refine ⟨_, _, hscans.append hend (endsWord_head rfl _), hbuilds.item, ?_⟩
  intro depth hdepth
  have hitem : json.nesting ≤ depth := (Nat.le_max_left _ _).trans hdepth
  simp [values?, hvalue depth hitem]

theorem Reads.items {items : List Json} (h : Reads text json) (hafter : ReadsItems after items) :
    ReadsItems (text ++ ',' :: after) (json :: items) := by
  obtain ⟨tokens, outline, hscans, hbuilds, hvalue⟩ := h
  obtain ⟨later, outlines, hlater, hrest, hvalues⟩ := hafter
  have hcomma : Scans (',' :: after) (.comma :: later) := hlater.punctuation rfl
  refine ⟨_, _, hscans.append hcomma (endsWord_head rfl _), hbuilds.items hrest, ?_⟩
  intro depth hdepth
  have hitem : json.nesting ≤ depth := (Nat.le_max_left _ _).trans hdepth
  have hitems : nestingOfItems items ≤ depth := (Nat.le_max_right _ _).trans hdepth
  simp [values?, hvalue depth hitem, hvalues depth hitems]

theorem ReadsItems.array {items : List Json} (h : ReadsItems text items) :
    Reads ('[' :: text) (.array items) := by
  obtain ⟨tokens, outlines, hscans, hbuilds, hvalues⟩ := h
  refine ⟨_, _, hscans.punctuation rfl, hbuilds.array, ?_⟩
  intro depth hdepth
  cases depth with
  | zero => cases hdepth
  | succ depth => simp [value?, hvalues depth (Nat.le_of_succ_le_succ hdepth)]

theorem Reads.member (h : Reads text json) (name : String) :
    ReadsMembers ((Quoted.encode name).toList ++ ':' :: (text ++ ['}'])) [(name, json)] := by
  obtain ⟨tokens, outline, hscans, hbuilds, hvalue⟩ := h
  have hend : Scans ['}'] [.closeObject] := scans_nil.punctuation rfl
  have hcolon : Scans (':' :: (text ++ ['}'])) (.colon :: (tokens ++ [.closeObject])) :=
    (hscans.append hend (endsWord_head rfl _)).punctuation rfl
  refine ⟨_, _, (scans_encode name).append hcolon (endsWord_head rfl _),
    hbuilds.member (some name), ?_⟩
  intro depth hdepth
  have hmember : json.nesting ≤ depth := (Nat.le_max_left _ _).trans hdepth
  simp [memberValues?, hvalue depth hmember]

theorem Reads.members {members : List (String × Json)} (h : Reads text json) (name : String)
    (hafter : ReadsMembers after members) :
    ReadsMembers ((Quoted.encode name).toList ++ ':' :: (text ++ ',' :: after))
      ((name, json) :: members) := by
  obtain ⟨tokens, outline, hscans, hbuilds, hvalue⟩ := h
  obtain ⟨later, outlines, hlater, hrest, hvalues⟩ := hafter
  have hcomma : Scans (',' :: after) (.comma :: later) := hlater.punctuation rfl
  have hcolon : Scans (':' :: (text ++ ',' :: after)) (.colon :: (tokens ++ .comma :: later)) :=
    (hscans.append hcomma (endsWord_head rfl _)).punctuation rfl
  refine ⟨_, _, (scans_encode name).append hcolon (endsWord_head rfl _),
    hbuilds.members (some name) hrest, ?_⟩
  intro depth hdepth
  have hmember : json.nesting ≤ depth := (Nat.le_max_left _ _).trans hdepth
  have hmembers : nestingOfMembers members ≤ depth := (Nat.le_max_right _ _).trans hdepth
  simp [memberValues?, hvalue depth hmember, hvalues depth hmembers]

theorem ReadsMembers.object {members : List (String × Json)} (h : ReadsMembers text members) :
    Reads ('{' :: text) (.object members) := by
  obtain ⟨tokens, outlines, hscans, hbuilds, hvalues⟩ := h
  refine ⟨_, _, hscans.punctuation rfl, hbuilds.object, ?_⟩
  intro depth hdepth
  cases depth with
  | zero => cases hdepth
  | succ depth => simp [value?, hvalues depth (Nat.le_of_succ_le_succ hdepth)]

/-- A value that is one token has no containers. -/
theorem reads_token {token : Token} {outline : Outline} (hscans : Scans text [token])
    (hbuilds : ∀ stack, Builder.step (.value stack) token = some (.after outline stack))
    (hvalue : ∀ depth, outline.value? depth = some json) : Reads text json := by
  refine ⟨[token], outline, hscans, ?_, fun depth _ => hvalue depth⟩
  intro stack
  rw [List.foldlM_cons, hbuilds]
  rfl

theorem reads_array_nil : Reads ['[', ']'] (.array []) := by
  refine ⟨[.openArray, .closeArray], .array [], ?_, fun _ => rfl, ?_⟩
  · exact (scans_nil.punctuation rfl).punctuation rfl
  · intro depth hdepth
    cases depth with
    | zero => cases hdepth
    | succ depth => rfl

theorem reads_object_nil : Reads ['{', '}'] (.object []) := by
  refine ⟨[.openObject, .closeObject], .object [], ?_, fun _ => rfl, ?_⟩
  · exact (scans_nil.punctuation rfl).punctuation rfl
  · intro depth hdepth
    cases depth with
    | zero => cases hdepth
    | succ depth => rfl

mutual

theorem reads_write : ∀ {json : Json}, json.Exact → Reads json.write.toList json
  | .null, _ => reads_token scans_null (fun _ => rfl) fun _ => rfl
  | .bool true, _ => reads_token scans_true (fun _ => rfl) fun _ => rfl
  | .bool false, _ => reads_token scans_false (fun _ => rfl) fun _ => rfl
  | .number value, h => by
    obtain ⟨numeral, hscans, hvalue⟩ := scans_number h
    exact reads_token hscans (fun _ => rfl) fun _ => by rw [value?, hvalue]; rfl
  | .string text, _ => reads_token (scans_encode text) (fun _ => rfl) fun _ => rfl
  | .array [], _ => reads_array_nil
  | .array (item :: rest), h => by
    rw [write, String.toList_append, String.toList_append]
    exact (readsItems_write (List.cons_ne_nil item rest) h).array
  | .object [], _ => reads_object_nil
  | .object (member :: rest), h => by
    rw [write, String.toList_append, String.toList_append]
    exact (readsMembers_write (List.cons_ne_nil member rest) h).object

theorem readsItems_write : ∀ {items : List Json}, items ≠ [] → ExactItems items →
    ReadsItems ((String.intercalate "," (writeItems items)).toList ++ [']']) items
  | [], hne, _ => absurd rfl hne
  | [item], _, ⟨hitem, _⟩ => by
    rw [writeItems, writeItems, String.intercalate_singleton]
    exact (reads_write hitem).item
  | item :: next :: rest, _, ⟨hitem, hrest⟩ => by
    have hrest := readsItems_write (List.cons_ne_nil next rest) hrest
    rw [writeItems] at hrest ⊢
    rw [writeItems, String.intercalate_cons_cons, String.toList_append, String.toList_append,
      List.append_assoc, List.append_assoc]
    exact (reads_write hitem).items hrest

theorem readsMembers_write : ∀ {members : List (String × Json)}, members ≠ [] →
    ExactMembers members →
    ReadsMembers ((String.intercalate "," (writeMembers members)).toList ++ ['}']) members
  | [], hne, _ => absurd rfl hne
  | [(name, value)], _, ⟨hvalue, _⟩ => by
    rw [writeMembers, writeMembers, String.intercalate_singleton]
    simp only [String.toList_append, List.append_assoc]
    exact (reads_write hvalue).member name
  | (name, value) :: (other, next) :: rest, _, ⟨hvalue, hrest⟩ => by
    have hrest := readsMembers_write (List.cons_ne_nil (other, next) rest) hrest
    rw [writeMembers] at hrest ⊢
    rw [writeMembers, String.intercalate_cons_cons]
    simp only [String.toList_append, List.append_assoc] at hrest ⊢
    exact (reads_write hvalue).members name hrest

end

/-- Written and read again, a value whose numbers are whole is the same value,
provided that it has no more containers inside each other than a reader
takes. -/
theorem ofText?_write {json : Json} (h : json.Exact) :
    ∃ outline, Outline.ofText? json.write = some outline ∧
      ∀ depth, json.nesting ≤ depth → outline.value? depth = some json :=
  ofText?_of_reads (reads_write h)

end Json

end Animation
