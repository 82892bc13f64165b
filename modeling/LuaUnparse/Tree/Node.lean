import LuaUnparse.Tree.Equality
import LuaUnparse.Tree.Kind
import LuaUnparse.Tree.Size

/-!
# `LuaUnparse.Tree.Node` — a part of a tree, of any category

Everything that can be written on its own is a `Node`: a whole chunk, a statement, an expression, down
to a list of names and a single name.

## Contents
- **Nodes.** `Node`, one constructor a syntactic category.
- **What holds of all of them.** `Node.kind`, `Node.size` and structural equality, `Node.beq`, under
  which nodes of different categories differ.
-/

namespace LuaUnparse

/-- A part of a tree, of any category. -/
inductive Node where
  | chunk (body : Chunk)
  | stat (stat : Stat)
  | elseIf (clause : ElseIf)
  | funcBody (body : FuncBody)
  | funcName (name : FuncName)
  | parList (params : ParList)
  | exp (exp : Exp)
  | prefixExp (exp : PrefixExp)
  | var (var : Var)
  | call (call : Call)
  | args (args : Args)
  | field (field : Field)
  | table (fields : List Field)
  | nameList (names : List Name)
  | expList (exps : List Exp)
  | varList (vars : List Var)
  | name (name : Name)

/-! ## Kinds -/

/-- The form of a statement. -/
def Stat.kind : Stat → Kind
  | .function .. => .functionStatement
  | .localFunction .. => .localFunctionStatement
  | .ifThen .. => .ifStatement
  | .numericFor .. => .numericForStatement
  | .genericFor .. => .genericForStatement
  | .call _ => .callStatement
  | .ret _ => .returnStatement
  | .localVars .. => .localStatement
  | .assign .. => .assignmentStatement
  | .block _ => .doStatement
  | .repeatUntil .. => .repeatStatement
  | .whileDo .. => .whileStatement
  | .breakLoop => .breakStatement

/-- The form of an expression. -/
def Exp.kind : Exp → Kind
  | .nil => .nilExpression
  | .bool true => .trueExpression
  | .bool false => .falseExpression
  | .vararg => .varargExpression
  | .number _ => .numberExpression
  | .string _ => .stringExpression
  | .unary .. => .unaryOperationExpression
  | .binary .. => .binaryOperationExpression
  | .function _ => .functionExpression
  | .paren _ => .parenthesizedExpression
  | .table _ => .tableConstructorExpression
  | .prefixed _ => .prefixExpression

/-- The form of a variable. -/
def Var.kind : Var → Kind
  | .name _ => .nameVariable
  | .index .. => .indexedVariable
  | .member .. => .memberVariable

/-- The form of a call. -/
def Call.kind : Call → Kind
  | .normal .. => .normalFunctionCall
  | .method .. => .methodFunctionCall

/-- The form of an expression that may be called or indexed: that of the variable or call that it is. -/
def PrefixExp.kind : PrefixExp → Kind
  | .var v => v.kind
  | .call c => c.kind
  | .paren _ => .parenthesizedPrefixExpression

/-- The form of the arguments of a call. -/
def Args.kind : Args → Kind
  | .list _ => .expressionListArguments
  | .table _ => .tableConstructorArguments
  | .string _ => .stringArguments

/-- The form of a table entry. -/
def Field.kind : Field → Kind
  | .positional _ => .fieldArrayKey
  | .named .. => .fieldNameKey
  | .keyed .. => .fieldExpressionKey

namespace Node

/-- The form of a node. -/
def kind : Node → Kind
  | .chunk _ => .chunk
  | .stat s => s.kind
  | .elseIf _ => .elseIfClause
  | .funcBody _ => .funcBody
  | .funcName _ => .functionName
  | .parList _ => .parameterList
  | .exp e => e.kind
  | .prefixExp e => e.kind
  | .var v => v.kind
  | .call c => c.kind
  | .args a => a.kind
  | .field f => f.kind
  | .table _ => .tableConstructor
  | .nameList _ => .nameList
  | .expList _ => .expressionList
  | .varList _ => .variableList
  | .name _ => .name

/-! ## Size -/

/-- The number of parts of a node. -/
def size : Node → Nat
  | .chunk b => Stat.sizeAll b
  | .stat s => s.size
  | .elseIf c => c.size
  | .funcBody b => b.size
  | .funcName n => n.size
  | .parList p => p.size
  | .exp e => e.size
  | .prefixExp e => e.size
  | .var v => v.size
  | .call c => c.size
  | .args a => a.size
  | .field f => f.size
  | .table fs => Field.sizeAll fs
  | .nameList ns => 1 + ns.length
  | .expList es => Exp.sizeAll es
  | .varList vs => Var.sizeAll vs
  | .name _ => 1

/-! ## Equality -/

/-- Structural equality: the same category, and equal parts. -/
def beq : Node → Node → Bool
  | .chunk b, .chunk b' => Stat.beqAll b b'
  | .stat s, .stat s' => s.beq s'
  | .elseIf c, .elseIf c' => c.beq c'
  | .funcBody b, .funcBody b' => b.beq b'
  | .funcName n, .funcName n' => n == n'
  | .parList p, .parList p' => p == p'
  | .exp e, .exp e' => e.beq e'
  | .prefixExp e, .prefixExp e' => e.beq e'
  | .var v, .var v' => v.beq v'
  | .call c, .call c' => c.beq c'
  | .args a, .args a' => a.beq a'
  | .field f, .field f' => f.beq f'
  | .table fs, .table fs' => Field.beqAll fs fs'
  | .nameList ns, .nameList ns' => ns == ns'
  | .expList es, .expList es' => Exp.beqAll es es'
  | .varList vs, .varList vs' => Var.beqAll vs vs'
  | .name n, .name n' => n == n'
  | _, _ => false

instance : BEq Node := ⟨beq⟩

end Node

end LuaUnparse
