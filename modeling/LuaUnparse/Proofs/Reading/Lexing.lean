import LuaUnparse.Proofs.Seam
import LuaUnparse.Proofs.Reading.Token

/-!
# `LuaUnparse.Proofs.Reading.Lexing` — written texts are cut where they were joined

A text of a layout is cut into the same tokens wherever it stands, as long as nothing sticks to it. In a
seamless layout nothing does, so the tokens of the whole text are those of its parts.

## Contents
- **Texts.** `Lexes`, the tokens of a text before anything that does not stick to it.
- **Literals.** `scanBody?_escape`: the value of a string literal is read back.
- **Layouts.** `Spells`, the tokens of a list of items, and `lex?_of_spells`, which reads them back from the
  text of a seamless layout.
-/

namespace LuaUnparse

/-! ## Texts -/

/-- Before anything that does not stick to it, the text is cut into these tokens. -/
def Lexes (text : String) (tokens : List Token) : Prop :=
  ∀ rest, (∀ c ∈ rest.head?, Sticks text c = false) →
    lex? (text.toList ++ rest) = (lex? rest).map (tokens ++ ·)

/-- A run of characters ends where the next one is of another kind. -/
theorem span_append {p : Char → Bool} {cs rest : List Char} (hcs : cs.all p = true)
    (hrest : ∀ c ∈ rest.head?, p c = false) :
    (cs ++ rest).takeWhile p = cs ∧ (cs ++ rest).dropWhile p = rest := by
  have hall := List.all_eq_true.mp hcs
  rw [List.takeWhile_append_of_pos hall, List.dropWhile_append_of_pos hall]
  cases rest with
  | nil => simp
  | cons c rest =>
    have hc : p c = false := hrest c rfl
    simp [hc]

theorem lexes_of_takeToken? {text : String} {token : Token}
    (h : ∀ rest, (∀ c ∈ rest.head?, Sticks text c = false) →
      takeToken? (text.toList ++ rest) = some ([token], rest)) : Lexes text [token] :=
  fun rest hrest => lex?_of_takeToken? (h rest hrest)

theorem Name.ne_of_isStart {c : Char} (h : isStart c = true) : c ≠ ' ' ∧ c ≠ '\n' ∧ c ≠ '"' := by
  refine ⟨?_, ?_, ?_⟩ <;> rintro rfl <;> exact absurd h (by decide)

/-- A word, reserved or not. -/
theorem lexes_word {word : String} (h : Name.isWord word.toList = true) :
    Lexes word [.ofWord word] := by
  refine lexes_of_takeToken? fun rest hrest => ?_
  obtain ⟨last, hlast, hpart⟩ := (Name.ends_of_isWord h).2
  -- the last character of a word takes in any other one of its kind
  have hfree : ∀ c ∈ rest.head?, Name.isPart c = false := by
    intro c hc
    have hsticks := hrest c hc
    simp only [Sticks, hlast, Option.any_some, Merges, Glues, hpart, Bool.or_eq_false_iff,
      Bool.true_and] at hsticks
    exact hsticks.1.1.1.1.1.1.1.1.1.1
  cases hword : word.toList with
  | nil => simp [hword, Name.isWord] at h
  | cons c cs =>
    rw [hword, Name.isWord, Bool.and_eq_true] at h
    obtain ⟨hblank, hline, hquote⟩ := Name.ne_of_isStart h.1
    obtain ⟨htake, hdrop⟩ := span_append h.2 hfree
    rw [List.cons_append, takeToken?, if_neg hblank, if_neg hline, if_neg hquote, if_pos h.1, htake,
      hdrop, ← hword, String.ofList_toList]

theorem lexes_keyword (k : Keyword) : Lexes k.spelling [.keyword k] := by
  rw [← Token.ofWord_spelling k]
  exact lexes_word (by cases k <;> decide)

theorem lexes_name {name : Name} (h : name.isValid = true) : Lexes name [.name name] := by
  have hword := lexes_word (Bool.and_eq_true_iff.mp h).1
  rw [Token.ofWord_of_isValid h] at hword
  exact hword

theorem lexes_number {lit : NumberLit} (h : lit.isPlain = true) : Lexes lit.raw [.number lit.raw] := by
  refine lexes_of_takeToken? fun rest hrest => ?_
  rw [NumberLit.isPlain, Bool.and_eq_true] at h
  -- a text that begins with a digit takes in letters, digits and dots, whatever it ends with
  have hfree : ∀ c ∈ rest.head?, NumberLit.isPart c = false := by
    intro c hc
    have hsticks := hrest c hc
    simp only [Sticks, h.1, Bool.true_and, Bool.or_eq_false_iff, Name.isPart] at hsticks
    simp only [NumberLit.isPart, hsticks, Bool.or_self]
  cases hraw : lit.raw.toList with
  | nil => simp [hraw] at h
  | cons c cs =>
    rw [hraw, List.head?_cons, Option.any_some, List.all_cons, Bool.and_eq_true] at h
    obtain ⟨hdigit, -, hcs⟩ := h
    have hblank : c ≠ ' ' := by rintro rfl; exact absurd hdigit (by decide)
    have hline : c ≠ '\n' := by rintro rfl; exact absurd hdigit (by decide)
    have hquote : c ≠ '"' := by rintro rfl; exact absurd hdigit (by decide)
    have hstart : Name.isStart c ≠ true := fun hs => by simp [Name.isDigit_of_isStart hs] at hdigit
    obtain ⟨htake, hdrop⟩ := span_append hcs hfree
    rw [List.cons_append, takeToken?, if_neg hblank, if_neg hline, if_neg hquote, if_neg hstart,
      if_pos hdigit, htake, hdrop, ← hraw, String.ofList_toList]

/-- The mark at the front of a text is the longest one, unless something sticks to it. -/
theorem Symbol.at?_append {s : Symbol} (hs : s ∈ Symbol.all) {rest : List Char}
    (h : ∀ c ∈ rest.head?, Sticks s.spelling c = false) :
    Symbol.at? (s.spelling.toList ++ rest) = some s := by
  cases rest with
  | nil =>
    cases s with
    | op operator => cases operator <;> first | rfl | exact absurd hs (by decide)
    | _ => rfl
  | cons c rest =>
    have hc : Sticks s.spelling c = false := h c rfl
    have hne : ∀ d, c ≠ d → (d == c) = false := fun d hd => beq_false_of_ne (Ne.symm hd)
    cases s with
    | op operator =>
      cases operator with
      | or | and => exact absurd hs (by decide)
      -- these are the only operators that longer marks begin with
      | lt | gt | bitXor | concat | div =>
        simp [Sticks, Merges, Glues, spelling, BinOp.spelling] at hc
        simp [at?, all, List.find?, spelling, BinOp.spelling, List.isPrefixOf, hc, hne]
      | _ => rfl
    | dot | assign =>
      simp [Sticks, Merges, Glues, spelling] at hc
      simp [at?, all, List.find?, spelling, BinOp.spelling, List.isPrefixOf, hc, hne]
    | _ => rfl

/-- A mark begins with no character that begins another token. -/
theorem Symbol.head_spelling {s : Symbol} (hs : s ∈ Symbol.all) :
    ∃ c cs, s.spelling.toList = c :: cs ∧ c ≠ ' ' ∧ c ≠ '\n' ∧ c ≠ '"' ∧ Name.isStart c = false ∧
      c.isDigit = false := by
  cases s with
  | op operator =>
    cases operator with
    | or | and => exact absurd hs (by decide)
    | _ => exact ⟨_, _, rfl, by decide⟩
  | _ => exact ⟨_, _, rfl, by decide⟩

theorem lexes_symbol (s : Symbol) (hs : s ∈ Symbol.all) : Lexes s.spelling [.symbol s] := by
  refine lexes_of_takeToken? fun rest hrest => ?_
  have hat := Symbol.at?_append hs hrest
  obtain ⟨c, cs, hspelling, hblank, hline, hquote, hstart, hdigit⟩ := Symbol.head_spelling hs
  have hlength : s.spelling.length - 1 = cs.length := by
    rw [← String.length_toList, hspelling, List.length_cons, Nat.add_sub_cancel]
  rw [hspelling, List.cons_append] at hat ⊢
  rw [takeToken?, if_neg hblank, if_neg hline, if_neg hquote, if_neg (by simp [hstart]),
    if_neg (by simp [hdigit]), hat, Option.map_some, hlength, List.drop_left]

theorem lexes_blank : Lexes " " [] :=
  fun _ _ => lex?_of_takeToken? rfl

/-- Whether the second text neither sticks to the first one nor is a number. -/
def Adjoins (first second : String) : Bool :=
  second.toList.head?.any fun c => !Sticks first c && !c.isDigit

/-- One text after another. -/
theorem Lexes.append {first second : String} {ts us : List Token} (h : Lexes first ts)
    (hs : Lexes second us) (hadj : Adjoins first second = true) :
    Lexes (first ++ second) (ts ++ us) := by
  intro rest hrest
  obtain ⟨c, hc, hfollow⟩ := (Option.any_eq_true _ _).mp hadj
  rw [Bool.and_eq_true, Bool.not_eq_true', Bool.not_eq_true'] at hfollow
  -- what sticks to the second text sticks to both, since the second one is no number
  have hsecond : ∀ d ∈ rest.head?, Sticks second d = false := by
    intro d hd
    have hsticks := hrest d hd
    cases hlist : second.toList with
    | nil => simp [hlist] at hc
    | cons e es =>
      have hlast : (first ++ second).toList.getLast? = second.toList.getLast? := by
        rw [String.toList_append, List.getLast?_append, hlist, List.getLast?_cons, Option.some_or]
      rw [Sticks, Bool.or_eq_false_iff, hlast] at hsticks
      rw [Sticks, hsticks.1, hc, Option.any_some, hfollow.2, Bool.false_and, Bool.or_false]
  have hfirst : ∀ d ∈ (second.toList ++ rest).head?, Sticks first d = false := by
    intro d hd
    rw [List.head?_append, hc] at hd
    exact Option.some.inj hd ▸ hfollow.1
  rw [String.toList_append, List.append_assoc, h _ hfirst, hs _ hsecond, Option.map_map]
  simp only [Function.comp_def, List.append_assoc]

theorem Lexes.blank_after {text : String} {ts : List Token} (h : Lexes text ts) :
    Lexes (text ++ " ") ts := by
  have hadj : Adjoins text " " = true := by
    rw [Adjoins]
    have hsticks : Sticks text ' ' = false := sticks_of_isNeutral (by decide) text
    simp [hsticks, show Char.isDigit ' ' = false from rfl]
  have happend := h.append lexes_blank hadj
  rw [List.append_nil] at happend
  exact happend

theorem Lexes.blank_before {text : String} {ts : List Token} (h : Lexes text ts)
    (hadj : Adjoins " " text = true) : Lexes (" " ++ text) ts :=
  lexes_blank.append h hadj

/-! ## Literals -/

/-- The characters of an escaped value are read back up to the closing quote. -/
theorem scanBody?_escape (value rest : List Char) :
    Quoted.scanBody? (Quoted.escapeChars value ++ '"' :: rest) = some (value, rest) := by
  induction value with
  | nil => simp [Quoted.escapeChars, Quoted.scanBody?]
  | cons c value ih =>
    rw [Quoted.escapeChars]
    split
    · next h => simp [Quoted.scanBody?, h, ih]
    · next h =>
      have hquote : c ≠ '"' := by rintro rfl; exact h rfl
      have hslash : c ≠ '\\' := by rintro rfl; exact h rfl
      rw [List.cons_append, Quoted.scanBody?]
      · simp [h, ih]
      · exact fun hc => absurd hc hquote
      · exact fun hc => absurd hc hslash
      · exact fun _ _ hc => absurd hc hslash

/-! ## Layouts -/

/-- The items of a string literal. Those of an empty one are its quotes. -/
def quotedItems (value : String) : List Item :=
  .text "\"" :: (if Quoted.escape value = "" then [] else [.text (Quoted.escape value)]) ++ [.text "\""]

/-- The tokens of items. A string literal is one token, although it is written as several texts. -/
inductive Spells : List Item → List Token → Prop
  | nil : Spells [] []
  | text {t : String} {us : List Token} {is : List Item} {ts : List Token} (h : Lexes t us)
      (rest : Spells is ts) : Spells (.text t :: is) (us ++ ts)
  | string (value : String) {is : List Item} {ts : List Token} (rest : Spells is ts) :
      Spells (quotedItems value ++ is) (.string value :: ts)
  | lineBreak (depth : Nat) {is : List Item} {ts : List Token} (rest : Spells is ts) :
      Spells (.lineBreak depth :: is) (.lineEnd :: ts)

theorem Spells.append {is js : List Item} {ts us : List Token} (h : Spells is ts) (hs : Spells js us) :
    Spells (is ++ js) (ts ++ us) := by
  induction h with
  | nil => exact hs
  | text h _ ih =>
    rw [List.append_assoc]
    exact .text h ih
  | string value _ ih =>
    rw [List.append_assoc]
    exact .string value ih
  | lineBreak depth _ ih => exact .lineBreak depth ih

/-- The characters of items in a style. -/
def Style.chars (style : Style) (items : List Item) : List Char :=
  items.flatMap fun i => (style.write i).toList

theorem chars_quotedItems (style : Style) (value : String) (is : List Item) :
    style.chars (quotedItems value ++ is) =
      '"' :: (Quoted.escapeChars value.toList ++ '"' :: style.chars is) := by
  rw [← Quoted.toList_escape]
  unfold quotedItems
  split
  · next h => simp [Style.chars, Style.write, h]
  · next h => simp [Style.chars, Style.write]

/-- A line break is cut into a line end: its indentation is blank. -/
theorem lex?_lineBreak (depth : Nat) (rest : List Char) :
    lex? ((({} : Style).lineBreak depth).toList ++ rest) = (lex? rest).map (.lineEnd :: ·) := by
  -- each level of indentation is two blanks
  have hindent : lex? ((({} : Style).indentation depth).toList ++ rest) = lex? rest := by
    induction depth with
    | zero => rfl
    | succ depth ih =>
      have hblank : ∀ cs, lex? (' ' :: cs) = lex? cs := fun cs => by
        have htake : takeToken? (' ' :: cs) = some ([], cs) := rfl
        rw [lex?_of_takeToken? htake]
        simp
      rw [Style.indentation, String.toList_join, List.replicate_succ, List.flatMap_cons,
        ← String.toList_join]
      exact (hblank _).trans ((hblank _).trans ih)
  have hline : (({} : Style).lineBreak depth).toList = '\n' :: (({} : Style).indentation depth).toList := by
    rw [Style.lineBreak_eq, String.toList_append]
    rfl
  have htake : ∀ cs, takeToken? ('\n' :: cs) = some ([.lineEnd], cs) := fun _ => rfl
  rw [hline, List.cons_append, lex?_of_takeToken? (htake _), hindent]
  rfl

theorem head_chars {before : Option String} {t : String} {is : List Item}
    (h : Seamless before (.text t :: is)) :
    ∀ c ∈ (({} : Style).chars is).head?, Sticks t c = false := by
  cases is with
  | nil => rintro c ⟨⟩
  | cons i is =>
    cases i with
    | lineBreak depth =>
      intro c hc
      have hline : ({} : Style).chars (.lineBreak depth :: is) =
          '\n' :: ((({} : Style).indentation depth).toList ++ ({} : Style).chars is) := by
        simp [Style.chars, Style.write, Style.lineBreak_eq]
      rw [hline] at hc
      exact Option.some.inj hc ▸ sticks_of_isNeutral (by decide) t
    | text u =>
      obtain ⟨-, -, hu, hfollows, -⟩ := h
      intro c hc
      refine hfollows t rfl c ?_
      have hne : u.toList ≠ [] := fun he => hu (String.toList_eq_nil_iff.mp he)
      rw [Style.chars, List.flatMap_cons, Style.write, List.head?_append, List.head?_eq_some_head hne,
        Option.some_or, ← List.head?_eq_some_head hne] at hc
      exact hc

/-- **The text of a seamless layout is cut into the tokens of its items.** -/
theorem lex?_of_spells {is : List Item} {ts : List Token} (h : Spells is ts) {before : Option String}
    (hseam : Seamless before is) : lex? (({} : Style).chars is) = some ts := by
  induction h generalizing before with
  | nil => exact lex?_nil
  | @text t us is ts h _ ih =>
    rw [Style.chars, List.flatMap_cons]
    show lex? (t.toList ++ ({} : Style).chars is) = some (us ++ ts)
    rw [h _ (head_chars hseam), ih hseam.2.2, Option.map_some]
  | @string value is ts _ ih =>
    have hrest : Seamless (lastText before (quotedItems value)) is := ((seamless_append _ _ _).mp hseam).2
    -- the quotes and what stands between them are one token, whatever follows
    have htake : takeToken? (({} : Style).chars (quotedItems value ++ is)) =
        some ([.string value], ({} : Style).chars is) := by
      rw [chars_quotedItems, takeToken?, if_neg (by decide), if_neg (by decide), if_pos rfl,
        scanBody?_escape, Option.map_some]
      simp only [String.ofList_toList]
    rw [lex?_of_takeToken? htake, ih hrest]
    rfl
  | @lineBreak depth is ts _ ih =>
    rw [Style.chars, List.flatMap_cons]
    show lex? ((({} : Style).lineBreak depth).toList ++ ({} : Style).chars is) = _
    rw [lex?_lineBreak, ih hseam, Option.map_some]

end LuaUnparse
