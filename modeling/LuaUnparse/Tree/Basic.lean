import LuaUnparse.Lexicon.Name
import LuaUnparse.Lexicon.Operator
import LuaUnparse.Text.Visible

/-!
# `LuaUnparse.Tree.Basic` — syntax trees

The types follow the syntax of the Lua manual, one type for each of its nonterminals that can hold
another one. A tree may break the rules that the grammar states about names and about lists that must
not be empty: those are checked when the tree is written.

## Contents
- **Leaves.** `StringLit`, `NumberLit`, `FuncName` and `ParList`.
- **Trees.** The family `Stat`, `ElseIf`, `FuncBody`, `Exp`, `PrefixExp`, `Var`, `Call`, `Args`, `Field`.
- **Chunks.** `Chunk`, the statements of a block.
- **Names as expressions.** `Exp.ofName`, for the most common expression of all.
-/

namespace LuaUnparse

/-! ## Leaves -/

/-- A string literal: its value, and the spelling it is known by, which is never written. -/
structure StringLit where
  value : String
  raw : String
  deriving DecidableEq

/-- The literal with this value, known by its visible spelling. -/
def StringLit.ofValue (value : String) : StringLit :=
  ⟨value, Visible.spell value⟩

/-- A number literal: the spelling that is written, and the number it is meant to be. -/
structure NumberLit where
  raw : String
  value : Float

/-- The name of a function statement: a base, the fields reached from it, and the method at the end. -/
structure FuncName where
  base : Name
  indexers : List Name
  method : Option Name
  deriving DecidableEq

/-- The parameters of a function: names, and whether `...` follows them. -/
structure ParList where
  names : List Name
  vararg : Bool
  deriving DecidableEq

/-! ## Trees -/

mutual

/-- A statement. -/
inductive Stat where
  | function (name : FuncName) (body : FuncBody)
  | localFunction (name : Name) (body : FuncBody)
  | ifThen (condition : Exp) (body : List Stat) (elseIfs : List ElseIf)
      (elseBody : Option (List Stat))
  | numericFor (var : Name) (start stop : Exp) (step : Option Exp) (body : List Stat)
  | genericFor (names : List Name) (values : List Exp) (body : List Stat)
  | call (call : Call)
  | ret (values : List Exp)
  | localVars (names : List Name) (values : Option (List Exp))
  | assign (targets : List Var) (values : List Exp)
  | block (body : List Stat)
  | repeatUntil (body : List Stat) (condition : Exp)
  | whileDo (condition : Exp) (body : List Stat)
  | breakLoop

/-- One `elseif` of a conditional. -/
inductive ElseIf where
  | mk (condition : Exp) (body : List Stat)

/-- What follows the name of a function, or the word `function` alone. -/
inductive FuncBody where
  | mk (params : ParList) (body : List Stat)

/-- An expression. -/
inductive Exp where
  | nil
  | bool (value : Bool)
  | vararg
  | number (lit : NumberLit)
  | string (lit : StringLit)
  | unary (op : UnOp) (operand : Exp)
  | binary (left : Exp) (op : BinOp) (right : Exp)
  | function (body : FuncBody)
  | paren (inner : Exp)
  | table (fields : List Field)
  | prefixed (inner : PrefixExp)

/-- An expression that may be called or indexed. -/
inductive PrefixExp where
  | var (var : Var)
  | call (call : Call)
  | paren (inner : Exp)

/-- What can be assigned to. -/
inductive Var where
  | name (name : Name)
  | index (base : PrefixExp) (key : Exp)
  | member (base : PrefixExp) (name : Name)

/-- A call of a function, or of a method of an object. -/
inductive Call where
  | normal (callee : PrefixExp) (args : Args)
  | method (object : PrefixExp) (name : Name) (args : Args)

/-- The arguments of a call. -/
inductive Args where
  | list (values : List Exp)
  | table (fields : List Field)
  | string (lit : StringLit)

/-- An entry of a table constructor. -/
inductive Field where
  | positional (value : Exp)
  | named (name : Name) (value : Exp)
  | keyed (key value : Exp)

end

/-! ## Chunks -/

/-- The statements of a block, or of a whole file. -/
abbrev Chunk := List Stat

/-! ## Names as expressions -/

/-- The expression that is just a name. -/
def Exp.ofName (name : Name) : Exp :=
  .prefixed (.var (.name name))

end LuaUnparse
