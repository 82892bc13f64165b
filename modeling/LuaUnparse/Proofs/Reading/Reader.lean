import LuaUnparse.Proofs.Reading.Token

/-!
# `LuaUnparse.Proofs.Reading.Reader` — trees read from tokens

A reader takes a construct off the front of a list of tokens and gives the tokens after it. It reads just
enough of the language to undo the writing of canonical trees: an operand is never an operation, a statement
stands on a line of its own, and the values that no text tells are left out.

The readers need each other without end, so each is defined from what all of them can read with one step
less: `Readers.next` is the step, and `readers` goes on with it from readers that read nothing.

## Contents
- **Readers.** `Reader`, and the family `Readers` of those that need each other.
- **Names.** `readNames`, `readParams` and `readFuncName`, which need no others.
- **Expressions.** `readExp`, `readPrefixExp`, `readSuffixes` and what they consist of.
- **Statements.** `readStat`, and `readChunk` for a block.
- **The family.** `Readers.next`, `readers`, and `readNode?` for a whole text.
-/

namespace LuaUnparse

/-! ## Readers -/

/-- Takes a construct off the front of a list of tokens: what it is, and the tokens after it. -/
abbrev Reader (Part : Type) := List Token → Option (Part × List Token)

/-- The readers that need each other. -/
structure Readers where
  /-- A statement. -/
  stat : Reader Stat
  /-- The statements up to the end of a block, each on a line of its own. -/
  chunk : Reader Chunk
  /-- The `elseif`s of a conditional. -/
  elseIfs : Reader (List ElseIf)
  /-- An expression. -/
  exp : Reader Exp
  /-- The expressions after the first one in a list. -/
  moreExps : Reader (List Exp)
  /-- The variables after the first one in a list. -/
  moreVars : Reader (List Var)
  /-- The entries of a table, up to its closing brace. -/
  fields : Reader (List Field)
  /-- An expression that may be called or indexed, as long as it goes on. -/
  prefixExp : Reader PrefixExp
  /-- What follows an expression that may be called or indexed. -/
  suffixes : PrefixExp → Reader PrefixExp

/-- The tokens after this one. -/
def expect (token : Token) : List Token → Option (List Token)
  | [] => none
  | t :: ts => if t = token then some ts else none

@[simp] theorem expect_cons (token : Token) (ts : List Token) : expect token (token :: ts) = some ts := by
  rw [expect, if_pos rfl]

/-! ## Names -/

/-- The names of a list that is not empty. -/
def readNames : Reader (List Name)
  | .name n :: .symbol .comma :: ts => (readNames ts).map fun (names, after) => (n :: names, after)
  | .name n :: ts => some ([n], ts)
  | _ => none

/-- The parameters of a function, after the opening parenthesis. -/
def readParams : Reader ParList
  | .symbol .closeParen :: ts => some (⟨[], false⟩, ts)
  | .symbol .ellipsis :: .symbol .closeParen :: ts => some (⟨[], true⟩, ts)
  | .name n :: .symbol .closeParen :: ts => some (⟨[n], false⟩, ts)
  | .name n :: .symbol .comma :: ts =>
    (readParams ts).map fun (params, after) => ({ params with names := n :: params.names }, after)
  | _ => none

/-- A parameter list. -/
def readParList : Reader ParList := fun ts => do
  readParams (← expect (.symbol .openParen) ts)

/-- The fields of a function name. -/
def readIndexers : List Token → List Name × List Token
  | .symbol .dot :: .name n :: ts => ((readIndexers ts).map (n :: ·) id)
  | ts => ([], ts)

/-- The method of a function name. -/
def readMethod : List Token → Option Name × List Token
  | .symbol .colon :: .name n :: ts => (some n, ts)
  | ts => (none, ts)

/-- A function name. -/
def readFuncName : Reader FuncName
  | .name n :: ts =>
    let (indexers, ts) := readIndexers ts
    let (method, ts) := readMethod ts
    some (⟨n, indexers, method⟩, ts)
  | _ => none

/-! ## Expressions -/

section

variable (r : Readers)

/-- The expressions of a list that is not empty. -/
def readExps : Reader (List Exp) := fun ts => do
  let (e, ts) ← r.exp ts
  let (es, ts) ← r.moreExps ts
  return (e :: es, ts)

def readMoreExps : Reader (List Exp)
  | .symbol .comma :: ts => readExps r ts
  | ts => some ([], ts)

/-- The parameters of a function, and its block. -/
def readFuncBody : Reader FuncBody := fun ts => do
  let (params, ts) ← readParList ts
  let (body, ts) ← r.chunk ts
  return (.mk params body, ts)

/-- The line that closes a construct with a block. -/
def expectEnd (ts : List Token) : Option (List Token) := do
  expect (.keyword .end) (← expect .lineEnd ts)

def readField : Reader Field
  | .symbol .openBracket :: ts => do
    let (key, ts) ← r.exp ts
    let ts ← expect (.symbol .closeBracket) ts
    let ts ← expect (.symbol .assign) ts
    let (value, ts) ← r.exp ts
    return (.keyed key value, ts)
  | ts => do
    -- a name may be an entry, or the key of one
    match ← r.exp ts with
    | (.prefixed (.var (.name n)), .symbol .assign :: ts) =>
      let (value, ts) ← r.exp ts
      return (.named n value, ts)
    | (e, ts) => return (.positional e, ts)

def readFields : Reader (List Field)
  | .symbol .closeBrace :: ts => some ([], ts)
  | .lineEnd :: .symbol .closeBrace :: ts => some ([], ts)
  | .lineEnd :: ts => do
    let (f, ts) ← readField r ts
    let ts ← expect (.symbol .comma) ts
    let (fs, ts) ← r.fields ts
    return (f :: fs, ts)
  | _ => none

/-- A table. -/
def readTable : Reader (List Field) := fun ts => do
  r.fields (← expect (.symbol .openBrace) ts)

/-- The arguments of a call. -/
def readArgs : Reader Args
  | .string value :: ts => some (.string ⟨value, ""⟩, ts)
  | .symbol .openParen :: .symbol .closeParen :: ts => some (.list [], ts)
  | .symbol .openParen :: ts => do
    let (es, ts) ← readExps r ts
    let ts ← expect (.symbol .closeParen) ts
    return (.list es, ts)
  | ts => do
    let (fs, ts) ← readTable r ts
    return (.table fs, ts)

def readSuffixes (e : PrefixExp) : Reader PrefixExp
  | .symbol .dot :: .name n :: ts => r.suffixes (.var (.member e n)) ts
  | .symbol .openBracket :: ts => do
    let (key, ts) ← r.exp ts
    let ts ← expect (.symbol .closeBracket) ts
    r.suffixes (.var (.index e key)) ts
  | .symbol .colon :: .name n :: ts => do
    let (args, ts) ← readArgs r ts
    r.suffixes (.call (.method e n args)) ts
  | t :: ts =>
    if t matches .string _ | .symbol .openParen | .symbol .openBrace then do
      let (args, ts) ← readArgs r (t :: ts)
      r.suffixes (.call (.normal e args)) ts
    else some (e, t :: ts)
  | [] => some (e, [])

def readPrefixExp : Reader PrefixExp
  | .name n :: ts => r.suffixes (.var (.name n)) ts
  | .symbol .openParen :: ts => do
    let (e, ts) ← r.exp ts
    let ts ← expect (.symbol .closeParen) ts
    r.suffixes (.paren e) ts
  | _ => none

/-- An expression without operators. -/
def readOperand : Reader Exp
  | .keyword .nil :: ts => some (.nil, ts)
  | .keyword .true :: ts => some (.bool true, ts)
  | .keyword .false :: ts => some (.bool false, ts)
  | .symbol .ellipsis :: ts => some (.vararg, ts)
  | .number raw :: ts => some (.number ⟨raw, 0⟩, ts)
  | .string value :: ts => some (.string ⟨value, ""⟩, ts)
  | .keyword .function :: ts => do
    let (body, ts) ← readFuncBody r ts
    let ts ← expectEnd ts
    return (.function body, ts)
  | .symbol .openBrace :: ts => do
    let (fs, ts) ← r.fields ts
    return (.table fs, ts)
  | ts => do
    let (e, ts) ← r.prefixExp ts
    return (.prefixed e, ts)

def readExp : Reader Exp := fun ts => do
  match ts.head?.bind Token.unOp? with
  | some op =>
    let (operand, ts) ← readOperand r ts.tail
    return (.unary op operand, ts)
  | none =>
    let (left, ts) ← readOperand r ts
    match ts.head?.bind Token.binOp? with
    | some op =>
      let (right, ts) ← readOperand r ts.tail
      return (.binary left op right, ts)
    | none => return (left, ts)

/-! ## Statements -/

/-- A variable. -/
def readVar : Reader Var := fun ts => do
  match ← r.prefixExp ts with
  | (.var v, ts) => return (v, ts)
  | _ => none

/-- The variables of a list that is not empty. -/
def readVars : Reader (List Var) := fun ts => do
  let (v, ts) ← readVar r ts
  let (vs, ts) ← r.moreVars ts
  return (v :: vs, ts)

def readMoreVars : Reader (List Var)
  | .symbol .comma :: ts => readVars r ts
  | ts => some ([], ts)

/-- A call. -/
def readCall : Reader Call := fun ts => do
  match ← r.prefixExp ts with
  | (.call c, ts) => return (c, ts)
  | _ => none

/-- One `elseif` of a conditional. -/
def readElseIf : Reader ElseIf := fun ts => do
  let ts ← expect (.keyword .elseif) ts
  let (condition, ts) ← r.exp ts
  let ts ← expect (.keyword .then) ts
  let (body, ts) ← r.chunk ts
  return (.mk condition body, ts)

def readElseIfs : Reader (List ElseIf)
  | .lineEnd :: .keyword .elseif :: ts => do
    let (clause, ts) ← readElseIf r (.keyword .elseif :: ts)
    let (clauses, ts) ← r.elseIfs ts
    return (clause :: clauses, ts)
  | ts => some ([], ts)

/-- The block of a conditional for when no condition holds. -/
def readElse : Reader (Option Chunk)
  | .lineEnd :: .keyword .else :: ts => do
    let (body, ts) ← r.chunk ts
    return (some body, ts)
  | ts => some (none, ts)

/-- A block, and the line that closes it. -/
def readBody : Reader Chunk := fun ts => do
  let (body, ts) ← r.chunk ts
  let ts ← expectEnd ts
  return (body, ts)

/-- A conditional, after its first word. -/
def readIf : Reader Stat := fun ts => do
  let (condition, ts) ← r.exp ts
  let ts ← expect (.keyword .then) ts
  let (body, ts) ← r.chunk ts
  let (elseIfs, ts) ← r.elseIfs ts
  let (elseBody, ts) ← readElse r ts
  let ts ← expectEnd ts
  return (.ifThen condition body elseIfs elseBody, ts)

/-- A loop over numbers has one variable, and two or three values. -/
def numericFor? (names : List Name) (values : List Exp) (body : Chunk) : Option Stat :=
  match names, values with
  | [var], [start, stop] => some (.numericFor var start stop none body)
  | [var], [start, stop, step] => some (.numericFor var start stop (some step) body)
  | _, _ => none

/-- A loop, after its first word. -/
def readFor : Reader Stat := fun ts => do
  match ← readNames ts with
  | (names, .symbol .assign :: ts) =>
    let (values, ts) ← readExps r ts
    let ts ← expect (.keyword .do) ts
    let (body, ts) ← readBody r ts
    return (← numericFor? names values body, ts)
  | (names, ts) =>
    let ts ← expect (.keyword .in) ts
    let (values, ts) ← readExps r ts
    let ts ← expect (.keyword .do) ts
    let (body, ts) ← readBody r ts
    return (.genericFor names values body, ts)

/-- Variables of a block, after the first word. -/
def readLocal : Reader Stat := fun ts => do
  match ← readNames ts with
  | (names, .symbol .assign :: ts) =>
    let (values, ts) ← readExps r ts
    return (.localVars names (some values), ts)
  | (names, ts) => return (.localVars names none, ts)

/-- The values that a function returns. There are none at the end of a line. -/
def readReturn : Reader Stat
  | [] => some (.ret [], [])
  | .lineEnd :: ts => some (.ret [], .lineEnd :: ts)
  | ts => do
    let (values, ts) ← readExps r ts
    return (.ret values, ts)

/-- A statement that begins with no word of its own: a call, or an assignment. -/
def readPlainStat : Reader Stat := fun ts => do
  match ← r.prefixExp ts with
  | (.call c, ts) => return (.call c, ts)
  | (.var v, ts) =>
    let (vs, ts) ← r.moreVars ts
    let ts ← expect (.symbol .assign) ts
    let (values, ts) ← readExps r ts
    return (.assign (v :: vs) values, ts)
  | _ => none

/-- A function with a name, after the first word. -/
def readFunction : Reader Stat := fun ts => do
  let (name, ts) ← readFuncName ts
  let (body, ts) ← readFuncBody r ts
  let ts ← expectEnd ts
  return (.function name body, ts)

/-- A function of a block, after its name. -/
def readLocalFunction (name : Name) : Reader Stat := fun ts => do
  let (body, ts) ← readFuncBody r ts
  let ts ← expectEnd ts
  return (.localFunction name body, ts)

/-- A block of its own, after its first word. -/
def readBlock : Reader Stat := fun ts => do
  let (body, ts) ← readBody r ts
  return (.block body, ts)

/-- A loop with its condition at the end, after its first word. -/
def readRepeat : Reader Stat := fun ts => do
  let (body, ts) ← r.chunk ts
  let ts ← expect .lineEnd ts
  let ts ← expect (.keyword .until) ts
  let (condition, ts) ← r.exp ts
  return (.repeatUntil body condition, ts)

/-- A loop with its condition at the beginning, after its first word. -/
def readWhile : Reader Stat := fun ts => do
  let (condition, ts) ← r.exp ts
  let ts ← expect (.keyword .do) ts
  let (body, ts) ← readBody r ts
  return (.whileDo condition body, ts)

/-- A statement, told by its first words. -/
def readStat : Reader Stat
  | .keyword .function :: ts => readFunction r ts
  | .keyword .local :: .keyword .function :: .name n :: ts => readLocalFunction r n ts
  | .keyword .local :: ts => readLocal r ts
  | .keyword .if :: ts => readIf r ts
  | .keyword .for :: ts => readFor r ts
  | .keyword .return :: ts => readReturn r ts
  | .keyword .do :: ts => readBlock r ts
  | .keyword .repeat :: ts => readRepeat r ts
  | .keyword .while :: ts => readWhile r ts
  | .keyword .break :: ts => some (.breakLoop, ts)
  | ts => readPlainStat r ts

/-- Whether a line begins with a word that ends a block. -/
def closesBlock : List Token → Bool
  | .keyword .end :: _ | .keyword .else :: _ | .keyword .elseif :: _ | .keyword .until :: _ => true
  | _ => false

def readChunk : Reader Chunk
  | .lineEnd :: ts =>
    if closesBlock ts then some ([], .lineEnd :: ts)
    else do
      let (s, ts) ← r.stat ts
      let (body, ts) ← r.chunk ts
      return (s :: body, ts)
  | ts => some ([], ts)

end

/-! ## The family -/

/-- Readers that read nothing. -/
def Readers.blind : Readers where
  stat := fun _ => none
  chunk := fun _ => none
  elseIfs := fun _ => none
  exp := fun _ => none
  moreExps := fun _ => none
  moreVars := fun _ => none
  fields := fun _ => none
  prefixExp := fun _ => none
  suffixes := fun _ _ => none

/-- Readers that take one step, and leave what they then meet to the others. -/
def Readers.next (r : Readers) : Readers where
  stat := readStat r
  chunk := readChunk r
  elseIfs := readElseIfs r
  exp := readExp r
  moreExps := readMoreExps r
  moreVars := readMoreVars r
  fields := readFields r
  prefixExp := readPrefixExp r
  suffixes := readSuffixes r

/-- Readers that take so many steps at most. -/
def readers : Nat → Readers
  | 0 => .blind
  | steps + 1 => (readers steps).next

/-- Reads a whole list, which may be empty. -/
def listOf {Part : Type} (read : Reader (List Part)) : Reader (List Part)
  | [] => some ([], [])
  | ts => read ts

/-- A node of a category. -/
def readNode (r : Readers) : Category → Reader Node
  | .chunk => fun ts => (r.chunk ts).map (.map .chunk id)
  | .stat => fun ts => (r.stat ts).map (.map .stat id)
  | .elseIf => fun ts => (readElseIf r ts).map (.map .elseIf id)
  | .funcBody => fun ts => (readFuncBody r ts).map (.map .funcBody id)
  | .funcName => fun ts => (readFuncName ts).map (.map .funcName id)
  | .parList => fun ts => (readParList ts).map (.map .parList id)
  | .exp => fun ts => (r.exp ts).map (.map .exp id)
  | .prefixExp => fun ts => (r.prefixExp ts).map (.map .prefixExp id)
  | .var => fun ts => (readVar r ts).map (.map .var id)
  | .call => fun ts => (readCall r ts).map (.map .call id)
  | .args => fun ts => (readArgs r ts).map (.map .args id)
  | .field => fun ts => (readField r ts).map (.map .field id)
  | .table => fun ts => (readTable r ts).map (.map .table id)
  | .nameList => fun ts => (listOf readNames ts).map (.map .nameList id)
  | .expList => fun ts => (listOf (readExps r) ts).map (.map .expList id)
  | .varList => fun ts => (listOf (readVars r) ts).map (.map .varList id)
  | .name => fun ts => match ts with
    | .name n :: ts => some (.name n, ts)
    | _ => none

end LuaUnparse
