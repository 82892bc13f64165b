import LuaUnparse.Tree.Basic

/-!
# `LuaUnparse.Tree.Size` — how large a tree is

The size of a tree counts its parts: every construct and every name is one, and so is every member of
a list beside what it holds itself. A part of a tree is smaller than the tree.

## Contents
- **Leaves.** `FuncName.size` and `ParList.size`.
- **Trees.** One `size` for each type of the family, and one for each kind of list in it.
-/

namespace LuaUnparse

/-! ## Leaves -/

/-- The names of the path. -/
def FuncName.size (name : FuncName) : Nat :=
  1 + name.indexers.length + name.method.toList.length

/-- The list itself and its names. -/
def ParList.size (params : ParList) : Nat :=
  1 + params.names.length

/-! ## Trees -/

mutual

/-- The number of parts of a statement. -/
def Stat.size : Stat → Nat
  | .function name body => 1 + name.size + body.size
  | .localFunction _ body => 2 + body.size
  | .ifThen condition body elseIfs none =>
    1 + condition.size + Stat.sizeAll body + ElseIf.sizeAll elseIfs
  | .ifThen condition body elseIfs (some elseBody) =>
    2 + condition.size + Stat.sizeAll body + ElseIf.sizeAll elseIfs + Stat.sizeAll elseBody
  | .numericFor _ start stop none body => 2 + start.size + stop.size + Stat.sizeAll body
  | .numericFor _ start stop (some step) body =>
    3 + start.size + stop.size + step.size + Stat.sizeAll body
  | .genericFor names values body => 2 + names.length + Exp.sizeAll values + Stat.sizeAll body
  | .call call => 1 + call.size
  | .ret values => 1 + Exp.sizeAll values
  | .localVars names none => 2 + names.length
  | .localVars names (some values) => 2 + names.length + Exp.sizeAll values
  | .assign targets values => 1 + Var.sizeAll targets + Exp.sizeAll values
  | .block body => 1 + Stat.sizeAll body
  | .repeatUntil body condition => 1 + Stat.sizeAll body + condition.size
  | .whileDo condition body => 1 + condition.size + Stat.sizeAll body
  | .breakLoop => 1

/-- The number of parts of an `elseif`. -/
def ElseIf.size : ElseIf → Nat
  | .mk condition body => 1 + condition.size + Stat.sizeAll body

/-- The number of parts of a function body. -/
def FuncBody.size : FuncBody → Nat
  | .mk params body => 1 + params.size + Stat.sizeAll body

/-- The number of parts of an expression. -/
def Exp.size : Exp → Nat
  | .nil | .bool _ | .vararg | .number _ | .string _ => 1
  | .unary _ operand => 1 + operand.size
  | .binary left _ right => 1 + left.size + right.size
  | .function body => 1 + body.size
  | .paren inner => 1 + inner.size
  | .table fields => 1 + Field.sizeAll fields
  | .prefixed inner => 1 + inner.size

/-- The number of parts of an expression that may be called or indexed. -/
def PrefixExp.size : PrefixExp → Nat
  | .var var => 1 + var.size
  | .call call => 1 + call.size
  | .paren inner => 1 + inner.size

/-- The number of parts of a variable. -/
def Var.size : Var → Nat
  | .name _ => 1
  | .index base key => 1 + base.size + key.size
  | .member base _ => 2 + base.size

/-- The number of parts of a call. -/
def Call.size : Call → Nat
  | .normal callee args => 1 + callee.size + args.size
  | .method object _ args => 2 + object.size + args.size

/-- The number of parts of the arguments of a call. -/
def Args.size : Args → Nat
  | .list values => 1 + Exp.sizeAll values
  | .table fields => 1 + Field.sizeAll fields
  | .string _ => 1

/-- The number of parts of a table entry. -/
def Field.size : Field → Nat
  | .positional value => 1 + value.size
  | .named _ value => 2 + value.size
  | .keyed key value => 1 + key.size + value.size

/-- The number of parts of a chunk. -/
def Stat.sizeAll : List Stat → Nat
  | [] => 1
  | stat :: rest => 1 + stat.size + Stat.sizeAll rest

/-- The number of parts of the `elseif`s of a conditional. -/
def ElseIf.sizeAll : List ElseIf → Nat
  | [] => 0
  | clause :: rest => 1 + clause.size + ElseIf.sizeAll rest

/-- The number of parts of an expression list. -/
def Exp.sizeAll : List Exp → Nat
  | [] => 1
  | exp :: rest => 1 + exp.size + Exp.sizeAll rest

/-- The number of parts of a list of variables. -/
def Var.sizeAll : List Var → Nat
  | [] => 1
  | var :: rest => 1 + var.size + Var.sizeAll rest

/-- The number of parts of the entries of a table. -/
def Field.sizeAll : List Field → Nat
  | [] => 1
  | field :: rest => 1 + field.size + Field.sizeAll rest

end

end LuaUnparse
