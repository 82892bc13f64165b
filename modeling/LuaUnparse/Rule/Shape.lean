import LuaUnparse.Rule.Check
import LuaUnparse.Text.Quoted

/-!
# `LuaUnparse.Rule.Shape` — how each construct is written

A construct is laid out one level deep: the text that it writes itself, the line breaks and the changes
of indentation, and between them the nodes that are laid out in their turn.

## Contents
- **Pieces.** `Piece`, the units of a layout.
- **Shapes.** A `shape` for every type of the tree, and `Node.shape` for all of them.
- **Rules.** `Node.pieces`, the shape of a node that passes its check.
-/

namespace LuaUnparse

/-! ## Pieces -/

/-- A unit of a layout. -/
inductive Piece where
  /-- Text that is written as it stands. -/
  | text (text : String)
  /-- The end of a line, and the indentation of the next. -/
  | lineBreak
  /-- From here on lines stand one level deeper. -/
  | indent
  /-- From here on lines stand one level less deep. -/
  | dedent
  /-- A node that is laid out when it is reached. -/
  | node (node : Node)

/-- Puts a comma between the pieces. -/
def separated (pieces : List Piece) : List Piece :=
  pieces.intersperse (.text ", ")

/-- What leaves commas as they are goes through a list piece by piece. -/
theorem separated_map {f : Piece → Piece} (hcomma : f (.text ", ") = .text ", ") (ps : List Piece) :
    (separated ps).map f = separated (ps.map f) := by
  unfold separated
  induction ps with
  | nil => rfl
  | cons p ps ih =>
    cases ps with
    | nil => rfl
    | cons q qs =>
      rw [List.intersperse_cons_cons, List.map_cons, List.map_cons, hcomma, ih]
      rfl

/-! ## Shapes -/

/-- A name. -/
def Name.shape (name : Name) : List Piece :=
  [.text name]

/-- A quoted string. -/
def StringLit.shape (lit : StringLit) : List Piece :=
  [.text "\"", .text (Quoted.escape lit.value), .text "\""]

/-- Names with commas between them. -/
def namesShape (names : List Name) : List Piece :=
  separated (names.map .text)

/-- A function name: the fields with dots, the method with a colon. -/
def FuncName.shape (name : FuncName) : List Piece :=
  .text name.base :: name.indexers.flatMap (fun n => [.text ".", .text n]) ++
    name.method.toList.flatMap fun n => [.text ":", .text n]

/-- A parameter list, in parentheses. -/
def ParList.shape (params : ParList) : List Piece :=
  let dots : List Piece :=
    if params.vararg then [.text (if params.names.isEmpty then "..." else ", ...")] else []
  .text "(" :: namesShape params.names ++ dots ++ [.text ")"]

/-- Expressions with commas between them. -/
def expsShape (exps : List Exp) : List Piece :=
  separated (exps.map fun e => .node (.exp e))

/-- Variables with commas between them. -/
def varsShape (vars : List Var) : List Piece :=
  separated (vars.map fun v => .node (.var v))

/-- Each statement on a line of its own. -/
def Chunk.lines (body : Chunk) : List Piece :=
  body.flatMap fun s => [.lineBreak, .node (.stat s)]

/-- A block: its statements, one level deeper. -/
def Chunk.shape (body : Chunk) : List Piece :=
  .indent :: Chunk.lines body ++ [.dedent]

/-- A block, and `end` on a line of its own. -/
def bodyAndEnd (body : Chunk) : List Piece :=
  [.node (.chunk body), .lineBreak, .text "end"]

/-- A lead and the expressions after it; nothing at all if there are none. -/
def valuesAfter (lead : String) (values : List Exp) : List Piece :=
  if values.isEmpty then [] else [.text lead, .node (.expList values)]

/-- A statement. -/
def Stat.shape : Stat → List Piece
  | .function name body =>
    [.text "function ", .node (.funcName name), .node (.funcBody body), .lineBreak, .text "end"]
  | .localFunction name body =>
    .text "local function " :: name.shape ++ [.node (.funcBody body), .lineBreak, .text "end"]
  | .ifThen condition body elseIfs elseBody =>
    [.text "if ", .node (.exp condition), .text " then", .node (.chunk body)] ++
      elseIfs.flatMap (fun clause => [.lineBreak, .node (.elseIf clause)]) ++
      elseBody.toList.flatMap (fun b => [.lineBreak, .text "else", .node (.chunk b)]) ++
      [.lineBreak, .text "end"]
  | .numericFor var start stop step body =>
    .text "for " :: var.shape ++
      [.text " = ", .node (.exp start), .text ", ", .node (.exp stop)] ++
      step.toList.flatMap (fun e => [.text ", ", .node (.exp e)]) ++
      .text " do" :: bodyAndEnd body
  | .genericFor names values body =>
    [.text "for ", .node (.nameList names), .text " in ", .node (.expList values), .text " do"] ++
      bodyAndEnd body
  | .call c => [.node (.call c)]
  | .ret values => .text "return" :: valuesAfter " " values
  | .localVars names values =>
    [.text "local ", .node (.nameList names)] ++ valuesAfter " = " (values.getD [])
  | .assign targets values => [.node (.varList targets), .text " = ", .node (.expList values)]
  | .block body => .text "do" :: bodyAndEnd body
  | .repeatUntil body condition =>
    [.text "repeat", .node (.chunk body), .lineBreak, .text "until ", .node (.exp condition)]
  | .whileDo condition body =>
    [.text "while ", .node (.exp condition), .text " do"] ++ bodyAndEnd body
  | .breakLoop => [.text "break"]

/-- One `elseif` of a conditional. -/
def ElseIf.shape : ElseIf → List Piece
  | .mk condition body =>
    [.text "elseif ", .node (.exp condition), .text " then", .node (.chunk body)]

/-- The parameters of a function, and its block. -/
def FuncBody.shape : FuncBody → List Piece
  | .mk params body => [.node (.parList params), .node (.chunk body)]

/-- A table: each entry on a line of its own, with a comma after it. -/
def tableShape (fields : List Field) : List Piece :=
  if fields.isEmpty then [.text "\x7b\x7d"]
  else
    [.text "\x7b", .indent] ++
      fields.flatMap (fun f => [.lineBreak, .node (.field f), .text ","]) ++
      [.dedent, .lineBreak, .text "\x7d"]

/-- Whether the expression is written with `-` first. -/
def Exp.startsWithMinus : Exp → Bool
  | .unary op _ => op == .negate
  | .binary left _ _ => left.startsWithMinus
  | .number lit => lit.raw.toList.head? == some '-'
  | _ => false

/-- What keeps an operator apart from its operand: a word from anything, a minus from another one. -/
def unaryGap (op : UnOp) (operand : Exp) : List Piece :=
  if op.isWord || (op == .negate && operand.startsWithMinus) then [.text " "] else []

/-- An expression. -/
def Exp.shape : Exp → List Piece
  | .nil => [.text "nil"]
  | .bool true => [.text "true"]
  | .bool false => [.text "false"]
  | .vararg => [.text "..."]
  | .number lit => [.text lit.raw]
  | .string lit => lit.shape
  | .unary op operand => .text op.spelling :: unaryGap op operand ++ [.node (.exp operand)]
  | .binary left op right =>
    [.node (.exp left), .text " ", .text op.spelling, .text " ", .node (.exp right)]
  | .function body => [.text "function", .node (.funcBody body), .lineBreak, .text "end"]
  | .paren inner => [.text "(", .node (.exp inner), .text ")"]
  | .table fields => tableShape fields
  | .prefixed inner => [.node (.prefixExp inner)]

/-- An expression that may be called or indexed. -/
def PrefixExp.shape : PrefixExp → List Piece
  | .var v => [.node (.var v)]
  | .call c => [.node (.call c)]
  | .paren inner => [.text "(", .node (.exp inner), .text ")"]

/-- A variable. -/
def Var.shape : Var → List Piece
  | .name n => n.shape
  | .index base key => [.node (.prefixExp base), .text "[", .node (.exp key), .text "]"]
  | .member base n => [.node (.prefixExp base), .text "."] ++ n.shape

/-- A call. -/
def Call.shape : Call → List Piece
  | .normal callee args => [.node (.prefixExp callee), .node (.args args)]
  | .method object name args =>
    [.node (.prefixExp object), .text ":"] ++ name.shape ++ [.node (.args args)]

/-- The arguments of a call. -/
def Args.shape : Args → List Piece
  | .list values => [.text "(", .node (.expList values), .text ")"]
  | .table fields => tableShape fields
  | .string lit => lit.shape

/-- A table entry. -/
def Field.shape : Field → List Piece
  | .positional value => [.node (.exp value)]
  | .named name value => name.shape ++ [.text " = ", .node (.exp value)]
  | .keyed key value => [.text "[", .node (.exp key), .text "] = ", .node (.exp value)]

namespace Node

/-- The layout of a node, one level deep. -/
def shape : Node → List Piece
  | .chunk b => Chunk.shape b
  | .stat s => s.shape
  | .elseIf c => c.shape
  | .funcBody b => b.shape
  | .funcName n => n.shape
  | .parList p => p.shape
  | .exp e => e.shape
  | .prefixExp e => e.shape
  | .var v => v.shape
  | .call c => c.shape
  | .args a => a.shape
  | .field f => f.shape
  | .table fs => tableShape fs
  | .nameList ns => namesShape ns
  | .expList es => expsShape es
  | .varList vs => varsShape vs
  | .name n => n.shape

/-! ## Rules -/

/-- Lays a node out one level deep, unless it is at fault. -/
def pieces (n : Node) : Except Fault (List Piece) :=
  match n.fault? with
  | some fault => .error fault
  | none => .ok n.shape

/-- The layout that a run begins with. A chunk there is not a block inside another one, so its lines
stand at the outermost level. -/
def opening : Node → List Piece
  | .chunk b => Chunk.lines b
  | n => [.node n]

end Node

end LuaUnparse
