import LuaUnparse.Proofs.Reading.Spelling

/-!
# `LuaUnparse.Proofs.Quotation` — a string literal ends where it should

A value may hold quotes and backslashes, also at its end, and what follows the literal may look as if it
went on. A reader that goes from left to right and takes every backslash together with the character after
it is not misled: it stops at the closing quote of the literal. There is only one text that it reads so,
because each character has one spelling inside a literal.

## Contents
- **Reading.** `eq_escape_of_scanBody?` and **`scan?_eq_some_iff`**: the texts that begin with a literal, and
  what is read of them.
- **Writing.** `unparse_string`, the text of a string literal as an expression and as an argument.
- **Literals.** **`string_literal_exact`**, both together for the literals that are written.
-/

namespace LuaUnparse

/-! ## Reading -/

/-- What is read up to a closing quote is the escaped form of the value. -/
theorem eq_escape_of_scanBody? {cs value rest : List Char}
    (h : Quoted.scanBody? cs = some (value, rest)) : cs = Quoted.escapeChars value ++ '"' :: rest := by
  fun_induction Quoted.scanBody? cs generalizing value with
  | case1 => simp at h
  | case2 tail =>
    obtain ⟨rfl, rfl⟩ := Prod.mk.inj (Option.some.inj h)
    rfl
  | case3 => simp at h
  | case4 c tail hspecial ih =>
    -- a backslash and the special character that it stands for
    obtain ⟨⟨inner, after⟩, hscan, hval⟩ := Option.map_eq_some_iff.mp h
    obtain ⟨rfl, rfl⟩ := Prod.mk.inj hval
    rw [ih hscan, Quoted.escapeChars, if_pos hspecial]
    rfl
  | case5 => simp at h
  | case6 => simp at h
  | case7 c tail hquote hlast hslash hspecial ih =>
    -- a character that stands for itself
    obtain ⟨⟨inner, after⟩, hscan, hval⟩ := Option.map_eq_some_iff.mp h
    obtain ⟨rfl, rfl⟩ := Prod.mk.inj hval
    rw [ih hscan, Quoted.escapeChars, if_neg hspecial]
    rfl

/-- **A literal is read off the front of a text exactly if the text begins with the escaped form of the value
between quotes**, and what is left is what follows its closing quote. -/
theorem scan?_eq_some_iff {cs value rest : List Char} :
    Quoted.scan? cs = some (value, rest) ↔ cs = '"' :: (Quoted.escapeChars value ++ '"' :: rest) := by
  constructor
  · intro h
    unfold Quoted.scan? at h
    split at h
    · next body => rw [eq_escape_of_scanBody? h]
    · simp at h
  · rintro rfl
    exact scanBody?_escape value rest

/-! ## Writing -/

/-- The text of a string literal, as a value and as the only argument of a call. -/
theorem unparse_string (lit : StringLit) (style : Style) :
    unparse (.exp (.string lit)) style = .ok ("\"" ++ Quoted.escape lit.value ++ "\"") ∧
      unparse (.args (.string lit)) style = .ok ("\"" ++ Quoted.escape lit.value ++ "\"") := by
  have hpieces : layoutPieces 0 lit.shape = ⟨quotedItems lit.value, none⟩ := layoutPieces_string lit 0
  have htext : Layout.text style ⟨quotedItems lit.value, none⟩ =
      .ok ("\"" ++ Quoted.escape lit.value ++ "\"") := by
    have hchars := chars_quotedItems style lit.value []
    rw [List.append_nil] at hchars
    refine congrArg Except.ok ?_
    rw [← String.toList_inj, String.toList_join, Layout.texts, List.flatMap_map, String.toList_append,
      String.toList_append, Quoted.toList_escape]
    exact hchars
  have hexp : (Node.exp (.string lit)).rootLayout = ⟨quotedItems lit.value, none⟩ :=
    (Node.layout_of_none rfl 0).trans hpieces
  have hargs : (Node.args (.string lit)).rootLayout = ⟨quotedItems lit.value, none⟩ :=
    (Node.layout_of_none rfl 0).trans hpieces
  rw [unparse_eq_layout, unparse_eq_layout, hexp, hargs]
  exact ⟨htext, htext⟩

/-! ## Literals -/

/-- **A string literal keeps its value and its end to itself.** Reading a text from an opening quote on gives a
value and leaves a rest exactly if the text is the quoted and escaped value with the rest behind it: so the
reading stops at the closing quote of the literal whatever the value is and whatever follows, it gives the
value back, and it accepts nothing but the escaped form of what it gives. A string literal is written as the
quoted and escaped value in every style. And a value without special characters, which is copied, comes out
as if it had been gone through character by character. -/
theorem string_literal_exact :
    (∀ text value rest : String,
      Quoted.scan? text.toList = some (value.toList, rest.toList) ↔
        text = "\"" ++ Quoted.escape value ++ "\"" ++ rest) ∧
    (∀ (lit : StringLit) (style : Style),
      unparse (.exp (.string lit)) style = .ok ("\"" ++ Quoted.escape lit.value ++ "\"") ∧
        unparse (.args (.string lit)) style = .ok ("\"" ++ Quoted.escape lit.value ++ "\"")) ∧
    (∀ value : String, Quoted.escape value = String.ofList (Quoted.escapeChars value.toList)) := by
  refine ⟨?_, unparse_string, ?_⟩
  · intro text value rest
    rw [scan?_eq_some_iff, ← String.toList_inj]
    simp [Quoted.toList_escape]
  · intro value
    rw [← Quoted.toList_escape, String.ofList_toList]

/-- A backslash at the end does not take the closing quote along. -/
example : Quoted.scan? "\"\\\\\" .. \"x\"".toList = some ("\\".toList, " .. \"x\"".toList) := by decide

end LuaUnparse
