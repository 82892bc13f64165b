import LuaUnparse.Tree.Basic

/-!
# `LuaUnparse.Tree.Equality` — when two trees are equal

Trees are compared part by part. All text counts, the spelling of a string literal included, and the
numbers of two number literals are compared as IEEE doubles: a tree that holds a NaN is not equal to
itself, and 0 and -0 are equal.

## Contents
- **Leaves.** `NumberLit.beq`.
- **Trees.** One `beq` for each type of the family, and one for each kind of list in it.
-/

namespace LuaUnparse

/-! ## Leaves -/

/-- Same spelling, and equal numbers. -/
def NumberLit.beq (a b : NumberLit) : Bool :=
  a.raw == b.raw && a.value == b.value

/-! ## Trees -/

mutual

/-- Equality of statements. -/
def Stat.beq : Stat → Stat → Bool
  | .function name body, .function name' body' => name == name' && body.beq body'
  | .localFunction name body, .localFunction name' body' => name == name' && body.beq body'
  | .ifThen condition body elseIfs elseBody, .ifThen condition' body' elseIfs' elseBody' =>
    condition.beq condition' && Stat.beqAll body body' && ElseIf.beqAll elseIfs elseIfs' &&
      Stat.beqAll? elseBody elseBody'
  | .numericFor var start stop step body, .numericFor var' start' stop' step' body' =>
    var == var' && start.beq start' && stop.beq stop' && Exp.beq? step step' &&
      Stat.beqAll body body'
  | .genericFor names values body, .genericFor names' values' body' =>
    names == names' && Exp.beqAll values values' && Stat.beqAll body body'
  | .call call, .call call' => call.beq call'
  | .ret values, .ret values' => Exp.beqAll values values'
  | .localVars names values, .localVars names' values' =>
    names == names' && Exp.beqAll? values values'
  | .assign targets values, .assign targets' values' =>
    Var.beqAll targets targets' && Exp.beqAll values values'
  | .block body, .block body' => Stat.beqAll body body'
  | .repeatUntil body condition, .repeatUntil body' condition' =>
    Stat.beqAll body body' && condition.beq condition'
  | .whileDo condition body, .whileDo condition' body' =>
    condition.beq condition' && Stat.beqAll body body'
  | .breakLoop, .breakLoop => true
  | _, _ => false

/-- Equality of `elseif`s. -/
def ElseIf.beq : ElseIf → ElseIf → Bool
  | .mk condition body, .mk condition' body' => condition.beq condition' && Stat.beqAll body body'

/-- Equality of function bodies. -/
def FuncBody.beq : FuncBody → FuncBody → Bool
  | .mk params body, .mk params' body' => params == params' && Stat.beqAll body body'

/-- Equality of expressions. -/
def Exp.beq : Exp → Exp → Bool
  | .nil, .nil => true
  | .bool value, .bool value' => value == value'
  | .vararg, .vararg => true
  | .number lit, .number lit' => lit.beq lit'
  | .string lit, .string lit' => lit == lit'
  | .unary op operand, .unary op' operand' => op == op' && operand.beq operand'
  | .binary left op right, .binary left' op' right' =>
    left.beq left' && op == op' && right.beq right'
  | .function body, .function body' => body.beq body'
  | .paren inner, .paren inner' => inner.beq inner'
  | .table fields, .table fields' => Field.beqAll fields fields'
  | .prefixed inner, .prefixed inner' => inner.beq inner'
  | _, _ => false

/-- Equality of expressions that may be called or indexed. -/
def PrefixExp.beq : PrefixExp → PrefixExp → Bool
  | .var var, .var var' => var.beq var'
  | .call call, .call call' => call.beq call'
  | .paren inner, .paren inner' => inner.beq inner'
  | _, _ => false

/-- Equality of variables. -/
def Var.beq : Var → Var → Bool
  | .name name, .name name' => name == name'
  | .index base key, .index base' key' => base.beq base' && key.beq key'
  | .member base name, .member base' name' => base.beq base' && name == name'
  | _, _ => false

/-- Equality of calls. -/
def Call.beq : Call → Call → Bool
  | .normal callee args, .normal callee' args' => callee.beq callee' && args.beq args'
  | .method object name args, .method object' name' args' =>
    object.beq object' && name == name' && args.beq args'
  | _, _ => false

/-- Equality of arguments. -/
def Args.beq : Args → Args → Bool
  | .list values, .list values' => Exp.beqAll values values'
  | .table fields, .table fields' => Field.beqAll fields fields'
  | .string lit, .string lit' => lit == lit'
  | _, _ => false

/-- Equality of table entries. -/
def Field.beq : Field → Field → Bool
  | .positional value, .positional value' => value.beq value'
  | .named name value, .named name' value' => name == name' && value.beq value'
  | .keyed key value, .keyed key' value' => key.beq key' && value.beq value'
  | _, _ => false

/-- Equality of chunks. -/
def Stat.beqAll : List Stat → List Stat → Bool
  | [], [] => true
  | stat :: rest, stat' :: rest' => stat.beq stat' && Stat.beqAll rest rest'
  | _, _ => false

/-- Equality of lists of `elseif`s. -/
def ElseIf.beqAll : List ElseIf → List ElseIf → Bool
  | [], [] => true
  | clause :: rest, clause' :: rest' => clause.beq clause' && ElseIf.beqAll rest rest'
  | _, _ => false

/-- Equality of expression lists. -/
def Exp.beqAll : List Exp → List Exp → Bool
  | [], [] => true
  | exp :: rest, exp' :: rest' => exp.beq exp' && Exp.beqAll rest rest'
  | _, _ => false

/-- Equality of lists of variables. -/
def Var.beqAll : List Var → List Var → Bool
  | [], [] => true
  | var :: rest, var' :: rest' => var.beq var' && Var.beqAll rest rest'
  | _, _ => false

/-- Equality of lists of table entries. -/
def Field.beqAll : List Field → List Field → Bool
  | [], [] => true
  | field :: rest, field' :: rest' => field.beq field' && Field.beqAll rest rest'
  | _, _ => false

/-- Equality of `else` parts. -/
def Stat.beqAll? : Option (List Stat) → Option (List Stat) → Bool
  | none, none => true
  | some body, some body' => Stat.beqAll body body'
  | _, _ => false

/-- Equality of loop steps. -/
def Exp.beq? : Option Exp → Option Exp → Bool
  | none, none => true
  | some exp, some exp' => exp.beq exp'
  | _, _ => false

/-- Equality of initial values. -/
def Exp.beqAll? : Option (List Exp) → Option (List Exp) → Bool
  | none, none => true
  | some values, some values' => Exp.beqAll values values'
  | _, _ => false

end

end LuaUnparse
