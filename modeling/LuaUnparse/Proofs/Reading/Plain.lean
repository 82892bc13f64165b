import LuaUnparse.Proofs.Subnode

/-!
# `LuaUnparse.Proofs.Reading.Plain` — what a text tells of its tree

Some of what a tree holds is never written: the value of a number, the spelling that a string is known by,
whether parentheses stand around an expression or around one that may be called, and whether variables
without values have an empty list of them or none. To erase a tree is to leave these out. And a text does
not tell how its operators are grouped, unless every operand that is an operation is in parentheses.

## Contents
- **Categories.** `Category` and `Node.category`.
- **Erasing.** `Node.erase`, which gives all trees that are written alike the same form.
- **Plain trees.** `Node.Canonical`: operands in parentheses, and numbers spelled with digits first; and
  `Node.NumbersPlain`, the second half of it.
-/

namespace LuaUnparse

/-! ## Categories -/

/-- The syntactic categories, one for each constructor of `Node`. -/
inductive Category where
  | chunk
  | stat
  | elseIf
  | funcBody
  | funcName
  | parList
  | exp
  | prefixExp
  | var
  | call
  | args
  | field
  | table
  | nameList
  | expList
  | varList
  | name
  deriving DecidableEq

/-- The category of a node. -/
def Node.category : Node → Category
  | .chunk _ => .chunk
  | .stat _ => .stat
  | .elseIf _ => .elseIf
  | .funcBody _ => .funcBody
  | .funcName _ => .funcName
  | .parList _ => .parList
  | .exp _ => .exp
  | .prefixExp _ => .prefixExp
  | .var _ => .var
  | .call _ => .call
  | .args _ => .args
  | .field _ => .field
  | .table _ => .table
  | .nameList _ => .nameList
  | .expList _ => .expList
  | .varList _ => .varList
  | .name _ => .name

/-! ## Erasing -/

/-- The literal without the number that it is meant to be. -/
def NumberLit.erase (lit : NumberLit) : NumberLit :=
  { lit with value := 0 }

/-- The literal without the spelling that it is known by. -/
def StringLit.erase (lit : StringLit) : StringLit :=
  { lit with raw := "" }

mutual

/-- What a text tells of a statement. Without values there is no list of them. -/
def Stat.erase : Stat → Stat
  | .function name body => .function name body.erase
  | .localFunction name body => .localFunction name body.erase
  | .ifThen condition body elseIfs none =>
    .ifThen condition.erase (Stat.eraseAll body) (ElseIf.eraseAll elseIfs) none
  | .ifThen condition body elseIfs (some elseBody) =>
    .ifThen condition.erase (Stat.eraseAll body) (ElseIf.eraseAll elseIfs)
      (some (Stat.eraseAll elseBody))
  | .numericFor var start stop none body =>
    .numericFor var start.erase stop.erase none (Stat.eraseAll body)
  | .numericFor var start stop (some step) body =>
    .numericFor var start.erase stop.erase (some step.erase) (Stat.eraseAll body)
  | .genericFor names values body =>
    .genericFor names (Exp.eraseAll values) (Stat.eraseAll body)
  | .call c => .call c.erase
  | .ret values => .ret (Exp.eraseAll values)
  | .localVars names none => .localVars names none
  | .localVars names (some []) => .localVars names none
  | .localVars names (some (value :: values)) =>
    .localVars names (some (value.erase :: Exp.eraseAll values))
  | .assign targets values => .assign (Var.eraseAll targets) (Exp.eraseAll values)
  | .block body => .block (Stat.eraseAll body)
  | .repeatUntil body condition => .repeatUntil (Stat.eraseAll body) condition.erase
  | .whileDo condition body => .whileDo condition.erase (Stat.eraseAll body)
  | .breakLoop => .breakLoop

/-- What a text tells of an `elseif`. -/
def ElseIf.erase : ElseIf → ElseIf
  | .mk condition body => .mk condition.erase (Stat.eraseAll body)

/-- What a text tells of a function body. -/
def FuncBody.erase : FuncBody → FuncBody
  | .mk params body => .mk params (Stat.eraseAll body)

/-- What a text tells of an expression. One in parentheses may always be called. -/
def Exp.erase : Exp → Exp
  | .nil => .nil
  | .bool value => .bool value
  | .vararg => .vararg
  | .number lit => .number lit.erase
  | .string lit => .string lit.erase
  | .unary op operand => .unary op operand.erase
  | .binary left op right => .binary left.erase op right.erase
  | .function body => .function body.erase
  | .paren inner => .prefixed (.paren inner.erase)
  | .table fields => .table (Field.eraseAll fields)
  | .prefixed inner => .prefixed inner.erase

/-- What a text tells of an expression that may be called or indexed. -/
def PrefixExp.erase : PrefixExp → PrefixExp
  | .var v => .var v.erase
  | .call c => .call c.erase
  | .paren inner => .paren inner.erase

/-- What a text tells of a variable. -/
def Var.erase : Var → Var
  | .name n => .name n
  | .index base key => .index base.erase key.erase
  | .member base n => .member base.erase n

/-- What a text tells of a call. -/
def Call.erase : Call → Call
  | .normal callee args => .normal callee.erase args.erase
  | .method object name args => .method object.erase name args.erase

/-- What a text tells of the arguments of a call. -/
def Args.erase : Args → Args
  | .list values => .list (Exp.eraseAll values)
  | .table fields => .table (Field.eraseAll fields)
  | .string lit => .string lit.erase

/-- What a text tells of a table entry. -/
def Field.erase : Field → Field
  | .positional value => .positional value.erase
  | .named name value => .named name value.erase
  | .keyed key value => .keyed key.erase value.erase

/-- What a text tells of a chunk. -/
def Stat.eraseAll : List Stat → List Stat
  | [] => []
  | stat :: rest => stat.erase :: Stat.eraseAll rest

/-- What a text tells of the `elseif`s of a conditional. -/
def ElseIf.eraseAll : List ElseIf → List ElseIf
  | [] => []
  | clause :: rest => clause.erase :: ElseIf.eraseAll rest

/-- What a text tells of an expression list. -/
def Exp.eraseAll : List Exp → List Exp
  | [] => []
  | exp :: rest => exp.erase :: Exp.eraseAll rest

/-- What a text tells of a list of variables. -/
def Var.eraseAll : List Var → List Var
  | [] => []
  | var :: rest => var.erase :: Var.eraseAll rest

/-- What a text tells of the entries of a table. -/
def Field.eraseAll : List Field → List Field
  | [] => []
  | field :: rest => field.erase :: Field.eraseAll rest

end

/-- What a text tells of a node. -/
def Node.erase : Node → Node
  | .chunk b => .chunk (Stat.eraseAll b)
  | .stat s => .stat s.erase
  | .elseIf c => .elseIf c.erase
  | .funcBody b => .funcBody b.erase
  | .funcName n => .funcName n
  | .parList p => .parList p
  | .exp e => .exp e.erase
  | .prefixExp e => .prefixExp e.erase
  | .var v => .var v.erase
  | .call c => .call c.erase
  | .args a => .args a.erase
  | .field f => .field f.erase
  | .table fs => .table (Field.eraseAll fs)
  | .nameList ns => .nameList ns
  | .expList es => .expList (Exp.eraseAll es)
  | .varList vs => .varList (Var.eraseAll vs)
  | .name n => .name n

/-! ## Plain trees -/

/-- Whether the expression is an operator with its operands. -/
def Exp.isOperation : Exp → Bool
  | .unary .. | .binary .. => true
  | _ => false

/-- Whether a number may hold the character: an ASCII letter, an ASCII digit or a dot. -/
def NumberLit.isPart (c : Char) : Bool :=
  c.isAlphanum || c == '.'

/-- Whether the text begins with a digit and goes on with letters, digits and dots. -/
def NumberLit.isPlain (lit : NumberLit) : Bool :=
  lit.raw.toList.head?.any Char.isDigit && lit.raw.toList.all NumberLit.isPart

/-- Whether the node itself leaves no doubt: no operand of it is an operation, and if it is a number it is
spelled as one without a sign. -/
def Node.isPlain : Node → Bool
  | .exp (.unary _ operand) => !operand.isOperation
  | .exp (.binary left _ right) => !left.isOperation && !right.isOperation
  | .exp (.number lit) => lit.isPlain
  | _ => true

/-- A tree in which every operand that is an operation is in parentheses, and every number is plain. -/
def Node.Canonical (n : Node) : Prop :=
  ∀ m ∈ n.preorder, m.isPlain = true

instance (n : Node) : Decidable n.Canonical :=
  inferInstanceAs (Decidable (∀ m ∈ n.preorder, m.isPlain = true))

/-- A tree in which every number is plain, however its operators are grouped. -/
def Node.NumbersPlain (n : Node) : Prop :=
  ∀ lit, Node.exp (.number lit) ∈ n.preorder → lit.isPlain = true

theorem Node.Canonical.numbersPlain {n : Node} (h : n.Canonical) : n.NumbersPlain :=
  fun lit hlit => h (.exp (.number lit)) hlit

/-- What holds of a tree holds of the tree of a child. -/
theorem Node.NumbersPlain.child {n m : Node} (h : n.NumbersPlain) (hm : m ∈ n.children) :
    m.NumbersPlain :=
  fun lit hlit => h lit (mem_preorder_of_child hm hlit)

end LuaUnparse
