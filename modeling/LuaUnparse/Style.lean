/-!
# `LuaUnparse.Style` — how lines are broken and indented

## Contents
- **Styles.** `Style`, and the ways to change one.
- **Line breaks.** `Style.lineBreak`, the text between two lines.
- **Items.** `Item`, what is written whatever the style is, and its text in a style, `Style.write`.
-/

namespace LuaUnparse

/-- How lines are broken and indented. -/
structure Style where
  /-- What ends a line. -/
  newLine : String := "\n"
  /-- What stands before a line, once for each level that encloses it. -/
  indent : String := "  "
  deriving DecidableEq

namespace Style

/-- The same style with another line end. -/
def withNewLine (style : Style) (newLine : String) : Style :=
  { style with newLine }

/-- The same style with another indentation. -/
def withIndent (style : Style) (indent : String) : Style :=
  { style with indent }

/-- The same style, indenting by that many spaces. -/
def withIndentWidth (style : Style) (width : Nat) : Style :=
  style.withIndent (String.ofList (List.replicate width ' '))

/-- The indentation of a line at this depth. -/
def indentation (style : Style) (depth : Nat) : String :=
  String.join (List.replicate depth style.indent)

/-- The end of a line, and the indentation of the next one: the line end alone, where there is nothing to
indent by. -/
def lineBreak (style : Style) (depth : Nat) : String :=
  if depth = 0 ∨ style.indent.isEmpty then style.newLine
  else style.newLine ++ style.indentation depth

theorem indentation_zero (style : Style) : style.indentation 0 = "" := rfl

theorem indentation_of_isEmpty {style : Style} (h : style.indent.isEmpty = true) (depth : Nat) :
    style.indentation depth = "" := by
  rw [indentation, String.isEmpty_iff.mp h, ← String.toList_eq_nil_iff, String.toList_join]
  simp

/-- A line break outside all blocks is only a line end. -/
theorem lineBreak_zero (style : Style) : style.lineBreak 0 = style.newLine :=
  if_pos (.inl rfl)

/-- The line end and the indentation, whether there is anything to indent by or not. -/
theorem lineBreak_eq (style : Style) (depth : Nat) :
    style.lineBreak depth = style.newLine ++ style.indentation depth := by
  unfold lineBreak
  split
  · next h =>
    have hempty : style.indentation depth = "" := by
      rcases h with rfl | h
      · exact indentation_zero style
      · exact indentation_of_isEmpty h depth
    rw [hempty, String.append_empty]
  · rfl

end Style

/-! ## Items -/

/-- What is written, in terms that no style enters into. -/
inductive Item where
  | text (text : String)
  | lineBreak (depth : Nat)
  deriving DecidableEq

/-- The text of an item. -/
def Style.write (style : Style) : Item → String
  | .text text => text
  | .lineBreak depth => style.lineBreak depth

end LuaUnparse
