import LuaUnparse.Proofs.Grammar.Derivation
import LuaUnparse.Proofs.Reading.Lexing

/-!
# `LuaUnparse.Proofs.Grammar.Fragment` — the terminals of fragments

The fragments of a run are smaller than tokens in one place, where a string literal is written as its quotes
and what stands between them, and greater in others, where blanks or two tokens are one fragment. Here they
are read as terminals, with no look at the tree that they come from.

## Contents
- **Reading.** `readFragments?`, the terminals of fragments, line breaks apart.
- **Bare texts.** `isBare`, for a text that neither a number nor a literal nor a line begins with.
- **Leaves.** `isLeafText`, for a text that spells a name or a number.
- **Continuing.** `ReadsAs`, for texts that are read as terminals whatever follows, and its rules.
-/

namespace LuaUnparse

/-! ## Reading -/

/-- Whether a fragment of a run in the default style is a line break. -/
def isLineBreak (text : String) : Bool :=
  text.toList.head? == some '\n'

/-- The texts of a layout in the default style, line breaks apart. -/
def Layout.unbroken (layout : Layout) : List String :=
  (layout.texts {}).filter (!isLineBreak ·)

theorem Layout.unbroken_append {first : Layout} (h : first.fault = none) (second : Layout) :
    (first ++ second).unbroken = first.unbroken ++ second.unbroken := by
  rw [append_of_none h, unbroken, texts, List.map_append, List.filter_append]
  rfl

theorem isLineBreak_lineBreak (depth : Nat) : isLineBreak (({} : Style).lineBreak depth) = true := by
  simp [isLineBreak, Style.lineBreak_eq]

theorem Layout.unbroken_lineBreak (depth : Nat) (layout : Layout) :
    (cons (.lineBreak depth) layout).unbroken = layout.unbroken := by
  have hline := isLineBreak_lineBreak depth
  simp [unbroken, texts, cons, Style.write, hline]

theorem Layout.unbroken_text {t : String} (h : isLineBreak t = false) (layout : Layout) :
    (cons (.text t) layout).unbroken = t :: layout.unbroken := by
  simp [unbroken, texts, cons, Style.write, h]

/-- The terminals of a text that is no part of a string literal. A digit begins a number. -/
def terminals? (text : String) : Option (List Terminal) :=
  if text.toList.head?.any Char.isDigit then some [.number]
  else (lex? text.toList).map (·.filterMap Token.terminal?)

/-- Reads fragments without line breaks. What has been read of a string literal is put together up to its
closing quote. -/
def readUnbroken? : Option String → List String → Option (List Terminal)
  | none, [] => some []
  | some _, [] => none
  | none, t :: rest =>
    if t = "\"" then readUnbroken? (some t) rest
    else (terminals? t).bind fun ts => (readUnbroken? none rest).map (ts ++ ·)
  | some opened, t :: rest =>
    if t = "\"" then
      (terminals? (opened ++ t)).bind fun ts => (readUnbroken? none rest).map (ts ++ ·)
    else readUnbroken? (some (opened ++ t)) rest

/-- The terminals of the fragments of a run, line breaks apart. -/
def readFragments? (texts : List String) : Option (List Terminal) :=
  readUnbroken? none (texts.filter (!isLineBreak ·))

/-! ## Bare texts -/

/-- A text that begins neither a number nor a literal nor a line. -/
def isBare (text : String) : Bool :=
  text.toList.head?.all fun c => !c.isDigit && c != '"' && c != '\n'

theorem ne_quote_of_isBare {text : String} (h : isBare text = true) : text ≠ "\"" := by
  rintro rfl
  exact absurd h (by decide)

theorem isLineBreak_of_isBare {text : String} (h : isBare text = true) : isLineBreak text = false := by
  unfold isBare at h
  unfold isLineBreak
  cases hhead : text.toList.head? with
  | none => rfl
  | some c => simp_all

theorem digit_of_isBare {text : String} (h : isBare text = true) :
    text.toList.head?.any Char.isDigit = false := by
  unfold isBare at h
  cases hhead : text.toList.head? with
  | none => rfl
  | some c => simp_all

/-- A bare text is read as the terminals of its tokens. -/
theorem terminals?_of_lexes {text : String} {us : List Token} (h : Lexes text us)
    (hbare : isBare text = true) : terminals? text = some (us.filterMap Token.terminal?) := by
  have hdigit := digit_of_isBare hbare
  have hlex : lex? text.toList = some us := by
    have hend := h [] (by rintro c ⟨⟩)
    rw [List.append_nil, lex?_nil, Option.map_some, List.append_nil] at hend
    exact hend
  rw [terminals?, hdigit, hlex]
  rfl

/-- A valid name begins neither a number nor a literal nor a line. -/
theorem isBare_of_isValid {name : Name} (h : name.isValid = true) : isBare name = true := by
  have hword := (Bool.and_eq_true_iff.mp h).1
  cases hcs : name.toList with
  | nil => simp [isBare, hcs]
  | cons c cs =>
    rw [hcs, Name.isWord, Bool.and_eq_true] at hword
    have hstart := Name.ne_of_isStart hword.1
    simp [isBare, hcs, Name.isDigit_of_isStart hword.1, hstart]

/-! ## Leaves -/

/-- Whether the text spells a name or a number. No other text that a rule writes does. -/
def isLeafText (text : String) : Bool :=
  Name.isValid text || text.toList.head?.any Char.isDigit

theorem isLeafText_name {name : Name} (hv : name.isValid = true) : isLeafText name = true :=
  Bool.or_eq_true_iff.mpr (.inl hv)

theorem isLeafText_number {raw : String} (hdigit : raw.toList.head?.any Char.isDigit = true) :
    isLeafText raw = true :=
  Bool.or_eq_true_iff.mpr (.inr hdigit)

/-- The text of a leaf is not empty, and neither a line break nor a quote. -/
theorem not_empty_of_isLeafText {text : String} (h : isLeafText text = true) :
    text.isEmpty = false ∧ isLineBreak text = false ∧ text ≠ "\"" := by
  rcases Bool.or_eq_true_iff.mp h with hname | hdigit
  · have hbare := isBare_of_isValid hname
    have hempty : text.isEmpty = false :=
      Bool.eq_false_iff.mpr fun h => Name.ne_empty_of_isValid hname (String.isEmpty_iff.mp h)
    exact ⟨hempty, isLineBreak_of_isBare hbare, ne_quote_of_isBare hbare⟩
  · refine ⟨?_, ?_, ?_⟩
    · rw [Bool.eq_false_iff]
      intro hempty
      rw [String.isEmpty_iff.mp hempty] at hdigit
      exact absurd hdigit (by decide)
    · unfold isLineBreak
      cases hhead : text.toList.head? with
      | none => rfl
      | some c =>
        rw [hhead, Option.any_some] at hdigit
        have hne : c ≠ '\n' := by rintro rfl; exact absurd hdigit (by decide)
        simp [hne]
    · rintro rfl
      exact absurd hdigit (by decide)

/-- The text of a leaf is none of the texts in a table without such texts. -/
theorem ne_of_isLeafText {table : List String} (htable : ∀ entry ∈ table, isLeafText entry = false)
    {text : String} (h : isLeafText text = true) : ∀ entry ∈ table, entry ≠ text := by
  rintro entry hentry rfl
  rw [htable entry hentry] at h
  exact absurd h (by decide)

/-! ## Continuing -/

/-- The texts are read as the terminals, whatever follows. -/
def ReadsAs (texts : List String) (ts : List Terminal) : Prop :=
  ∀ rest, readUnbroken? none (texts ++ rest) = (readUnbroken? none rest).map (ts ++ ·)

theorem readsAs_nil : ReadsAs [] [] := by
  intro rest
  simp

theorem ReadsAs.append {texts more : List String} {ts us : List Terminal} (h : ReadsAs texts ts)
    (hs : ReadsAs more us) : ReadsAs (texts ++ more) (ts ++ us) := by
  intro rest
  rw [List.append_assoc, h, hs, Option.map_map]
  simp only [Function.comp_def, List.append_assoc]

theorem readsAs_text {text : String} {ts : List Terminal} (h : terminals? text = some ts)
    (hquote : text ≠ "\"") : ReadsAs [text] ts := by
  intro rest
  show readUnbroken? none (text :: rest) = _
  rw [readUnbroken?, if_neg hquote, h, Option.bind_some]

/-- What stands between the quotes is neither a quote nor a line break. -/
theorem escape_ne_quote (value : String) :
    Quoted.escape value ≠ "\"" ∧ isLineBreak (Quoted.escape value) = false := by
  have hchars : (Quoted.escape value).toList = Quoted.escapeChars value.toList :=
    Quoted.toList_escape value
  constructor
  · intro heq
    rw [heq] at hchars
    cases hcs : value.toList with
    | nil => simp [hcs, Quoted.escapeChars] at hchars
    | cons c cs =>
      rw [hcs, Quoted.escapeChars] at hchars
      split at hchars
      · simp at hchars
      · next hspecial =>
        have hquote : '"' = c := (List.cons.inj hchars).1
        exact hspecial (by rw [← hquote]; rfl)
  · unfold isLineBreak
    rw [hchars]
    cases value.toList with
    | nil => rfl
    | cons c cs =>
      rw [Quoted.escapeChars]
      split
      · rfl
      · next hspecial => simp_all [Quoted.isSpecial]

/-- The texts of a string literal are no line breaks. -/
theorem Layout.unbroken_string (value : String) :
    (⟨quotedItems value, none⟩ : Layout).unbroken = (quotedItems value).map ({} : Style).write := by
  have hquote : isLineBreak "\"" = false := by decide
  have hescape := (escape_ne_quote value).2
  unfold unbroken texts quotedItems
  by_cases hempty : Quoted.escape value = ""
  · simp [hempty, Style.write, hquote]
  · simp [hempty, Style.write, hquote, hescape]

/-- The texts of a string literal are one terminal. -/
theorem readsAs_string (value : String) :
    ReadsAs ((quotedItems value).map ({} : Style).write) [.string] := by
  intro rest
  have hescape : Quoted.escape value ≠ "\"" := (escape_ne_quote value).1
  have hlex : lex? ('"' :: (Quoted.escapeChars value.toList ++ ['"'])) = some [.string value] := by
    have htake : takeToken? ('"' :: (Quoted.escapeChars value.toList ++ ['"'])) =
        some ([.string value], []) := by
      rw [takeToken?, if_neg (by decide), if_neg (by decide), if_pos rfl, scanBody?_escape,
        Option.map_some]
      simp only [String.ofList_toList]
    rw [lex?_of_takeToken? htake, lex?_nil]
    rfl
  -- the opening quote, what stands between the quotes, and the closing one are put together again
  have hterminals : ∀ text : String, text.toList = '"' :: (Quoted.escapeChars value.toList ++ ['"']) →
      terminals? text = some [.string] := by
    intro text htext
    rw [terminals?, htext, hlex]
    rfl
  unfold quotedItems
  by_cases hempty : Quoted.escape value = ""
  · have hchars : Quoted.escapeChars value.toList = [] := by
      rw [← Quoted.toList_escape, hempty]
      rfl
    rw [if_pos hempty]
    show readUnbroken? none ("\"" :: "\"" :: rest) = _
    rw [readUnbroken?, if_pos rfl, readUnbroken?, if_pos rfl, hterminals _ (by rw [hchars]; rfl),
      Option.bind_some]
  · rw [if_neg hempty]
    show readUnbroken? none ("\"" :: Quoted.escape value :: "\"" :: rest) = _
    rw [readUnbroken?, if_pos rfl, readUnbroken?, if_neg hescape, readUnbroken?, if_pos rfl,
      hterminals _ (by simp [Quoted.toList_escape]), Option.bind_some]

end LuaUnparse
