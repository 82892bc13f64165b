import LuaUnparse.Proofs.Quotation

/-!
# `LuaUnparse.Proofs.VisibleSpelling` — a text can be read off its visible spelling

The visible spelling of a value has escapes of two and of more characters, and a value may itself hold texts that
look like escapes. A backslash of the value is doubled, so a reader that goes from left to right is after each
character of the value where the spelling of the next one begins, and gives the value back. A string literal is
written otherwise: it keeps the control characters, so the two spellings of a value are the same exactly if it
has none.

## Contents
- **Characters.** `spellChar_cases`, the three ways to spell a character, and `isControl_spellChars`: no control
  character is left.
- **Quotes.** `hasBareQuote`, a double quote outside all escapes, and `hasBareQuote_spellChars`: there is none.
- **Reading.** `readHex?_toDigits`, the code point of an escape, and `decode?_spellChars`.
- **Two spellings.** `spellChars_eq_escapeChars_iff`, when a value is spelled as it is written in a literal.
- **Literals.** **`visible_spelling_exact`** and **`spellings_agree_iff_no_control`**.
-/

namespace LuaUnparse

namespace Visible

/-! ## Characters -/

/-- A character has a short escape, or it is given by its code point, or it stands for itself. -/
theorem spellChar_cases (c : Char) :
    (∃ letter, (letter, c) ∈ shortEscapes ∧ spellChar c = ['\\', letter]) ∨
      (isControl c = true ∧ spellChar c = ['\\', 'u', '{'] ++ Nat.toDigits 16 c.toNat ++ ['}']) ∨
      (isControl c = false ∧ c ≠ '\\' ∧ c ≠ '"' ∧ spellChar c = [c]) := by
  unfold spellChar
  split
  · next letter value hfind =>
    obtain rfl : value = c := by simpa using List.find?_some hfind
    exact .inl ⟨letter, List.mem_of_find?_eq_some hfind, rfl⟩
  · next hfind =>
    have hshort : ∀ p ∈ shortEscapes, p.2 ≠ c := by simpa using List.find?_eq_none.mp hfind
    split
    · next hcontrol => exact .inr (.inl ⟨hcontrol, rfl⟩)
    · next hcontrol =>
      have hslash : c ≠ '\\' := (hshort ('\\', '\\') (by decide)).symm
      have hquote : c ≠ '"' := (hshort ('"', '"') (by decide)).symm
      exact .inr (.inr ⟨Bool.eq_false_iff.mpr hcontrol, hslash, hquote, rfl⟩)

/-- A code point is written with hexadecimal digits only. -/
theorem eq_digitChar_of_mem_toDigits {n : Nat} {x : Char} (h : x ∈ Nat.toDigits 16 n) :
    ∃ digit < 16, x = Nat.digitChar digit := by
  induction n using Nat.strongRecOn with
  | _ n ih =>
    rw [Nat.toDigits_eq_if (by decide)] at h
    split at h
    · next hlt => exact ⟨n, hlt, List.mem_singleton.mp h⟩
    · next hle =>
      rcases List.mem_append.mp h with h | h
      · exact ih (n / 16) (by omega) h
      · exact ⟨n % 16, Nat.mod_lt n (by decide), List.mem_singleton.mp h⟩

/-- A character that is no control character, no backslash and no double quote. -/
def isClear (c : Char) : Bool :=
  !isControl c && c != '\\' && c != '"'

theorem isClear_digitChar : ∀ digit < 16, isClear (Nat.digitChar digit) = true := by decide

theorem isClear_toDigits {n : Nat} {x : Char} (h : x ∈ Nat.toDigits 16 n) : isClear x = true := by
  obtain ⟨digit, hlt, rfl⟩ := eq_digitChar_of_mem_toDigits h
  exact isClear_digitChar digit hlt

theorem isControl_of_isClear {c : Char} (h : isClear c = true) : isControl c = false := by
  simp only [isClear, Bool.and_eq_true, Bool.not_eq_true'] at h
  exact h.1.1

theorem isControl_spellChar (c : Char) : (spellChar c).any isControl = false := by
  rcases spellChar_cases c with ⟨letter, hletter, hspell⟩ | ⟨-, hspell⟩ | ⟨hcontrol, -, -, hspell⟩
  · have hletters : ∀ p ∈ shortEscapes, ['\\', p.1].any isControl = false := by decide
    rw [hspell]
    exact hletters (letter, c) hletter
  · have hdigits : (Nat.toDigits 16 c.toNat).any isControl = false := by
      rw [List.any_eq_false]
      intro x hx
      rw [isControl_of_isClear (isClear_toDigits hx)]
      decide
    rw [hspell, List.any_append, List.any_append, hdigits]
    rfl
  · rw [hspell, List.any_cons, hcontrol]
    rfl

/-- **No control character is left in a spelling.** -/
theorem isControl_spellChars (value : List Char) : (spellChars value).any isControl = false := by
  rw [spellChars, List.any_flatMap, List.any_eq_false]
  intro c _
  rw [isControl_spellChar]
  decide

/-! ## Quotes -/

/-- Whether a double quote stands in the text anywhere but right after a backslash that begins an escape. -/
def hasBareQuote : List Char → Bool
  | [] => false
  | '\\' :: _ :: rest => hasBareQuote rest
  | c :: rest => c == '"' || hasBareQuote rest

theorem hasBareQuote_cons {c : Char} (hslash : c ≠ '\\') (hquote : c ≠ '"') (rest : List Char) :
    hasBareQuote (c :: rest) = hasBareQuote rest := by
  rw [hasBareQuote.eq_3 c rest (by rintro _ _ rfl; exact absurd rfl hslash)]
  simp [hquote]

theorem hasBareQuote_append {cs : List Char} (h : ∀ c ∈ cs, isClear c = true) (rest : List Char) :
    hasBareQuote (cs ++ rest) = hasBareQuote rest := by
  induction cs with
  | nil => rfl
  | cons c cs ih =>
    rw [List.forall_mem_cons] at h
    have hc : c ≠ '\\' ∧ c ≠ '"' := by
      have := h.1
      simp only [isClear, Bool.and_eq_true, bne_iff_ne] at this
      exact ⟨this.1.2, this.2⟩
    rw [List.cons_append, hasBareQuote_cons hc.1 hc.2, ih h.2]

theorem hasBareQuote_spellChar (c : Char) (rest : List Char) :
    hasBareQuote (spellChar c ++ rest) = hasBareQuote rest := by
  rcases spellChar_cases c with ⟨letter, -, hspell⟩ | ⟨-, hspell⟩ | ⟨-, hslash, hquote, hspell⟩
  · rw [hspell]
    rfl
  · -- after the backslash and the letter no character of the escape is special
    have hcode : ∀ x ∈ ['{'] ++ Nat.toDigits 16 c.toNat ++ ['}'], isClear x = true := by
      intro x hx
      simp only [List.mem_append, List.mem_singleton] at hx
      rcases hx with (rfl | hx) | rfl
      · decide
      · exact isClear_toDigits hx
      · decide
    rw [hspell]
    exact hasBareQuote_append hcode rest
  · rw [hspell]
    exact hasBareQuote_cons hslash hquote rest

/-- **Every double quote of a spelling is part of an escape.** -/
theorem hasBareQuote_spellChars (value : List Char) : hasBareQuote (spellChars value) = false := by
  unfold spellChars
  induction value with
  | nil => rfl
  | cons c rest ih => rw [List.flatMap_cons, hasBareQuote_spellChar, ih]

/-! ## Reading -/

theorem readHex?_digitChar (code : Nat) {digit : Nat} (h : digit < 16) (rest : List Char) :
    readHex? code (Nat.digitChar digit :: rest) = readHex? (16 * code + digit) rest := by
  have hvalue : ∀ d < 16, (Nat.digitChar d == '}') = false ∧ hexDigit? (Nat.digitChar d) = some d := by
    decide
  rw [readHex?, (hvalue digit h).1, (hvalue digit h).2]
  rfl

/-- **The digits of a number are read as the number**, whatever follows them. -/
theorem readHex?_toDigits (n : Nat) (rest : List Char) :
    readHex? 0 (Nat.toDigits 16 n ++ rest) = readHex? n rest := by
  induction n using Nat.strongRecOn generalizing rest with
  | _ n ih =>
    rw [Nat.toDigits_eq_if (by decide)]
    split
    · next hlt =>
      rw [List.singleton_append, readHex?_digitChar 0 hlt, Nat.mul_zero, Nat.zero_add]
    · next hle =>
      -- the last digit is read after all the others
      rw [List.append_assoc, ih (n / 16) (by omega), List.singleton_append,
        readHex?_digitChar _ (Nat.mod_lt n (by decide)), Nat.div_add_mod]

theorem readEscape?_short {letter c : Char} (h : (letter, c) ∈ shortEscapes) (rest : List Char) :
    readEscape? (letter :: rest) = some (c, rest) := by
  have hlookups : ∀ p ∈ shortEscapes, shortEscapes.lookup p.1 = some p.2 := by decide
  have hlookup : shortEscapes.lookup letter = some c := hlookups (letter, c) h
  unfold readEscape?
  simp only [hlookup]

theorem readEscape?_code (c : Char) (rest : List Char) :
    readEscape? ('u' :: '{' :: (Nat.toDigits 16 c.toNat ++ '}' :: rest)) = some (c, rest) := by
  have hnone : shortEscapes.lookup 'u' = none := by decide
  have hread : readHex? 0 (Nat.toDigits 16 c.toNat ++ '}' :: rest) = some (c.toNat, rest) :=
    readHex?_toDigits c.toNat ('}' :: rest)
  rw [readEscape?, hnone]
  show (readHex? 0 (Nat.toDigits 16 c.toNat ++ '}' :: rest)).map _ = _
  rw [hread]
  show some (Char.ofNat c.toNat, rest) = _
  rw [Char.ofNat_toNat]

theorem decode?_cons {c : Char} (h : c ≠ '\\') (rest : List Char) :
    decode? (c :: rest) = (decode? rest).map (c :: ·) := by
  rw [decode?, if_neg (by simpa using h)]

theorem decode?_escape {cs after : List Char} {value : Char} (h : readEscape? cs = some (value, after)) :
    decode? ('\\' :: cs) = (decode? after).map (value :: ·) := by
  rw [decode?, if_pos (beq_self_eq_true _)]
  split <;> simp_all

/-- The reader takes the spelling of a character as the character, and goes on where the spelling ends. -/
theorem decode?_spellChar (c : Char) (rest : List Char) :
    decode? (spellChar c ++ rest) = (decode? rest).map (c :: ·) := by
  rcases spellChar_cases c with ⟨letter, hletter, hspell⟩ | ⟨-, hspell⟩ | ⟨-, hslash, -, hspell⟩
  · rw [hspell]
    exact decode?_escape (readEscape?_short hletter rest)
  · have htext : spellChar c ++ rest =
        '\\' :: 'u' :: '{' :: (Nat.toDigits 16 c.toNat ++ '}' :: rest) := by
      rw [hspell]
      simp
    rw [htext]
    exact decode?_escape (readEscape?_code c rest)
  · rw [hspell]
    exact decode?_cons hslash rest

/-- **A text is read back from its spelling.** -/
theorem decode?_spellChars (value : List Char) : decode? (spellChars value) = some value := by
  unfold spellChars
  induction value with
  | nil =>
    rw [List.flatMap_nil, decode?]
  | cons c rest ih =>
    rw [List.flatMap_cons, decode?_spellChar, ih]
    rfl

/-! ## Two spellings -/

/-- A character that is no control character is spelled as it is written in a string literal. -/
theorem spellChar_of_not_control {c : Char} (h : isControl c = false) :
    spellChar c = if Quoted.isSpecial c then ['\\', c] else [c] := by
  rcases spellChar_cases c with ⟨letter, hletter, hspell⟩ | ⟨hcontrol, -⟩ | ⟨-, hslash, hquote, hspell⟩
  · -- of the short escapes only those of the backslash and the double quote are for no control character
    have hshort : ∀ p ∈ shortEscapes, isControl p.2 = false → p.1 = p.2 ∧ Quoted.isSpecial p.2 = true := by
      decide
    obtain ⟨heq, hspecial⟩ : letter = c ∧ Quoted.isSpecial c = true := hshort (letter, c) hletter h
    rw [hspell, heq, if_pos hspecial]
  · rw [h] at hcontrol
    contradiction
  · have hspecial : ¬ Quoted.isSpecial c = true := by
      have hreturn : c ≠ '\r' := by rintro rfl; exact absurd h (by decide)
      have hfeed : c ≠ '\n' := by rintro rfl; exact absurd h (by decide)
      simp [Quoted.isSpecial, hslash, hquote, hreturn, hfeed]
    rw [hspell, if_neg hspecial]

/-- A literal holds every character of its value. -/
theorem mem_escapeChars {c : Char} {value : List Char} (h : c ∈ value) : c ∈ Quoted.escapeChars value := by
  induction value with
  | nil => simp at h
  | cons d rest ih =>
    rw [Quoted.escapeChars]
    rcases List.mem_cons.mp h with rfl | h
    · split <;> simp
    · split <;> simp [ih h]

/-- **The visible spelling is the text inside a literal exactly if there is no control character.** Where there is
one, the literal holds it and the spelling does not. -/
theorem spellChars_eq_escapeChars_iff (value : List Char) :
    spellChars value = Quoted.escapeChars value ↔ value.any isControl = false := by
  constructor
  · intro heq
    have hnone := List.any_eq_false.mp (isControl_spellChars value)
    rw [heq] at hnone
    exact List.any_eq_false.mpr fun c hc => hnone c (mem_escapeChars hc)
  · intro hclear
    unfold spellChars
    induction value with
    | nil => rfl
    | cons c rest ih =>
      rw [List.any_cons, Bool.or_eq_false_iff] at hclear
      rw [List.flatMap_cons, ih hclear.2, spellChar_of_not_control hclear.1, Quoted.escapeChars]
      split <;> rfl

theorem toList_spell (value : String) : (spell value).toList = '"' :: spellChars value.toList ++ ['"'] := by
  rw [spell, String.toList_ofList]

end Visible

/-! ## Literals -/

/-- **The spelling that a string literal is known by tells its value.** It is a text between double quotes in
which there is no control character and every double quote is escaped, and reading the escapes of that text
from left to right gives the value back. So literals that are known by the same spelling have the same value. -/
theorem visible_spelling_exact :
    (∀ value : String, ∃ inner : List Char,
      (StringLit.ofValue value).raw = String.ofList ('"' :: inner ++ ['"']) ∧
        inner.any Visible.isControl = false ∧ Visible.hasBareQuote inner = false ∧
        Visible.decode? inner = some value.toList) ∧
    ∀ a b : String, (StringLit.ofValue a).raw = (StringLit.ofValue b).raw ↔ a = b := by
  constructor
  · intro value
    exact ⟨Visible.spellChars value.toList, rfl, Visible.isControl_spellChars _,
      Visible.hasBareQuote_spellChars _, Visible.decode?_spellChars _⟩
  · intro a b
    constructor
    · intro hraw
      have hinner : Visible.spellChars a.toList = Visible.spellChars b.toList := by
        have hlist := congrArg String.toList hraw
        rw [StringLit.ofValue, StringLit.ofValue, Visible.toList_spell, Visible.toList_spell] at hlist
        simpa using hlist
      have hdecode := congrArg Visible.decode? hinner
      rw [Visible.decode?_spellChars, Visible.decode?_spellChars] at hdecode
      exact String.toList_inj.mp (Option.some.inj hdecode)
    · rintro rfl
      rfl

/-- A backslash before what looks like an escape is not taken for the beginning of one. -/
example : Visible.spell "\\u\x7b7f\x7d\x7f" = "\"\\\\u\x7b7f\x7d\\u\x7b7f\x7d\"" := by decide +kernel

/-- **A string literal is written as it is known exactly if its value has no control character.** It is always
written, in every style, and the two spellings differ on every value with a control character in it, whatever
else the value holds. -/
theorem spellings_agree_iff_no_control (value : String) (style : Style) :
    ∃ text, unparse (.exp (.string (.ofValue value))) style = .ok text ∧
      ((StringLit.ofValue value).raw = text ↔ value.toList.any Visible.isControl = false) := by
  refine ⟨_, (unparse_string (.ofValue value) style).1, ?_⟩
  rw [← Visible.spellChars_eq_escapeChars_iff, ← String.toList_inj, StringLit.ofValue, Visible.toList_spell]
  simp [Quoted.toList_escape]

end LuaUnparse
