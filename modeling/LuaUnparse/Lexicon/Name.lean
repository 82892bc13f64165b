import LuaUnparse.Lexicon.Keyword

/-!
# `LuaUnparse.Lexicon.Name` — what may be written as a name

## Contents
- **Names.** `Name` is any text that a tree holds where a name belongs; `Name.isValid` says which of
  them the language reads back as one.
-/

namespace LuaUnparse

/-- The text of a name. A tree may hold any text here: it is checked when it is written. -/
abbrev Name := String

namespace Name

/-- A name begins with an ASCII letter or an underscore. -/
def isStart (c : Char) : Bool := c.isAlpha || c == '_'

/-- It goes on with ASCII letters, ASCII digits and underscores. -/
def isPart (c : Char) : Bool := c.isAlphanum || c == '_'

/-- The characters of a name, reserved words included. -/
def isWord : List Char → Bool
  | [] => false
  | c :: rest => isStart c && rest.all isPart

/-- Whether the text is read back as one name: a word that is not reserved. -/
def isValid (name : Name) : Bool :=
  isWord name.toList && !Keyword.isReserved name

theorem isPart_of_isStart {c : Char} (h : isStart c = true) : isPart c = true := by
  simp only [isStart, isPart, Char.isAlphanum, Bool.or_eq_true] at *
  exact h.imp Or.inl id

/-- No valid name is empty. -/
theorem ne_empty_of_isValid {name : Name} (h : name.isValid = true) : name ≠ "" := by
  rintro rfl
  exact absurd h (by decide)

end Name

end LuaUnparse
