/-!
# `LuaUnparse.Text.Quoted` — double-quoted string literals

A literal is a double quote, the value with a backslash before each backslash, double quote, carriage
return and line feed, and a double quote. Every other character stands for itself.

## Contents
- **Writing.** `escape`, which copies a text without special characters and otherwise goes through it
  character by character (`escapeChars`).
- **Reading.** `scan?`, which takes one literal off the front of a text.
-/

namespace LuaUnparse.Quoted

/-- The characters that a literal cannot hold bare. -/
def isSpecial (c : Char) : Bool :=
  c == '\\' || c == '"' || c == '\r' || c == '\n'

/-! ## Writing -/

/-- A backslash before every special character. -/
def escapeChars : List Char → List Char
  | [] => []
  | c :: rest => if isSpecial c then '\\' :: c :: escapeChars rest else c :: escapeChars rest

/-- The text between the quotes of the literal with this value. -/
def escape (value : String) : String :=
  if value.toList.any isSpecial then String.ofList (escapeChars value.toList) else value

/-- A text without special characters is its own escaped form. -/
theorem escapeChars_eq_self {cs : List Char} (h : cs.any isSpecial = false) :
    escapeChars cs = cs := by
  induction cs with
  | nil => rfl
  | cons c rest ih =>
    simp only [List.any_cons, Bool.or_eq_false_iff] at h
    simp [escapeChars, h.1, ih h.2]

/-- Copying and going through the text agree. -/
theorem toList_escape (value : String) : (escape value).toList = escapeChars value.toList := by
  unfold escape
  split
  · simp
  · next h => exact (escapeChars_eq_self (by simpa using h)).symm

/-! ## Reading -/

/-- Reads up to the closing quote: the value so far and what follows the literal. A backslash stands for
the special character after it; another character after it, a bare line end and the end of the text
are errors. -/
def scanBody? : List Char → Option (List Char × List Char)
  | [] => none
  | '"' :: rest => some ([], rest)
  | ['\\'] => none
  | '\\' :: c :: rest =>
    if isSpecial c then (scanBody? rest).map fun (value, after) => (c :: value, after) else none
  | c :: rest =>
    if isSpecial c then none else (scanBody? rest).map fun (value, after) => (c :: value, after)

/-- Takes one literal off the front of a text: its value, and the text after it. -/
def scan? : List Char → Option (List Char × List Char)
  | '"' :: rest => scanBody? rest
  | _ => none

end LuaUnparse.Quoted
