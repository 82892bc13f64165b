import LuaUnparse.Lexicon.Keyword

/-!
# `LuaUnparse.Lexicon.Operator` — the operators

## Contents
- **Refusals.** `UnknownOperator`, for a text that spells no operator of the arity asked for, and
  `parseOperator`, which reads an operator of one vocabulary.
- **Operators.** `BinOp` and `UnOp`, each with its list, its spelling and its vocabulary.
-/

namespace LuaUnparse

/-- A text that spells no operator of the arity asked for. -/
structure UnknownOperator where
  token : String
  deriving DecidableEq

/-- The wording of the refusal. -/
def UnknownOperator.message (e : UnknownOperator) : String :=
  "unknown operator `" ++ e.token ++ "`"

/-- Reads an operator, or says which text is none. -/
def parseOperator {Op : Type} (vocabulary : Vocabulary Op) (text : String) : Except UnknownOperator Op :=
  match vocabulary.ofSpelling? text with
  | some op => .ok op
  | none => .error ⟨text⟩

/-! ## Operators with two operands -/

/-- The operators that stand between two operands. -/
inductive BinOp where
  | or
  | and
  | lt
  | gt
  | le
  | ge
  | ne
  | eq
  | bitOr
  | bitXor
  | bitAnd
  | shiftLeft
  | shiftRight
  | concat
  | add
  | sub
  | mul
  | div
  | floorDiv
  | mod
  | pow
  deriving DecidableEq

namespace BinOp

/-- Every operator, loosely binding ones first. -/
def all : List BinOp :=
  [.or, .and, .lt, .gt, .le, .ge, .ne, .eq, .bitOr, .bitXor, .bitAnd, .shiftLeft, .shiftRight,
    .concat, .add, .sub, .mul, .div, .floorDiv, .mod, .pow]

/-- The operator as it is written. -/
def spelling : BinOp → String
  | .or => "or"
  | .and => "and"
  | .lt => "<"
  | .gt => ">"
  | .le => "<="
  | .ge => ">="
  | .ne => "~="
  | .eq => "=="
  | .bitOr => "|"
  | .bitXor => "~"
  | .bitAnd => "&"
  | .shiftLeft => "<<"
  | .shiftRight => ">>"
  | .concat => ".."
  | .add => "+"
  | .sub => "-"
  | .mul => "*"
  | .div => "/"
  | .floorDiv => "//"
  | .mod => "%"
  | .pow => "^"

/-- The operators that stand between two operands, and their spellings. -/
def vocabulary : Vocabulary BinOp where
  words := all
  spelling := spelling
  found op := by cases op <;> decide

/-- Reads an operator that stands between two operands. -/
def parse (text : String) : Except UnknownOperator BinOp :=
  parseOperator vocabulary text

end BinOp

/-! ## Operators with one operand -/

/-- The operators that stand before their operand. -/
inductive UnOp where
  | not
  | negate
  | length
  | bitNot
  deriving DecidableEq

namespace UnOp

/-- Every operator. -/
def all : List UnOp := [.not, .negate, .length, .bitNot]

/-- The operator as it is written. -/
def spelling : UnOp → String
  | .not => "not"
  | .negate => "-"
  | .length => "#"
  | .bitNot => "~"

/-- Whether the operator is spelled with a reserved word, so that a blank must follow it. -/
def isWord (op : UnOp) : Bool :=
  Keyword.isReserved op.spelling

/-- The operators that stand before their operand, and their spellings. -/
def vocabulary : Vocabulary UnOp where
  words := all
  spelling := spelling
  found op := by cases op <;> decide

/-- Reads an operator that stands before its operand. -/
def parse (text : String) : Except UnknownOperator UnOp :=
  parseOperator vocabulary text

/-- `not` is the only word among them. -/
theorem isWord_iff {op : UnOp} : op.isWord = true ↔ op = .not := by
  cases op <;> decide

end UnOp

end LuaUnparse
