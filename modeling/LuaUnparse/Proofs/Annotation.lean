import LuaUnparse.Proofs.Erasure

/-!
# `LuaUnparse.Proofs.Annotation` — what a literal holds beside its text

Only one half of a literal is written: of a number the spelling, of a string the value. The other half, the
number that is meant and the spelling that the string is known by, is an annotation. It goes with every
copy of the tree and counts when trees are compared, but a run must not tell anything about it: neither in
its texts nor in its outcome, nor by the place of either.

## Contents
- **Literals.** An `annotate` for every type of the tree, which changes its literals and nothing else, and
  `Node.bare`, the tree without its annotations.
- **Erasing.** `Node.erase_annotate`: a change of annotations is not seen once the tree is erased.
-/

namespace LuaUnparse

/-! ## Literals -/

section

variable (number : Float → Float) (spelling : String → String)

/-- The literal, meant to be another number. -/
def NumberLit.annotate (lit : NumberLit) : NumberLit :=
  { lit with value := number lit.value }

/-- The literal, known by another spelling. -/
def StringLit.annotate (lit : StringLit) : StringLit :=
  { lit with raw := spelling lit.raw }

mutual

/-- A statement with its annotations changed. -/
def Stat.annotate : Stat → Stat
  | .function name body => .function name body.annotate
  | .localFunction name body => .localFunction name body.annotate
  | .ifThen condition body elseIfs none =>
    .ifThen condition.annotate (Stat.annotateAll body) (ElseIf.annotateAll elseIfs) none
  | .ifThen condition body elseIfs (some elseBody) =>
    .ifThen condition.annotate (Stat.annotateAll body) (ElseIf.annotateAll elseIfs)
      (some (Stat.annotateAll elseBody))
  | .numericFor var start stop none body =>
    .numericFor var start.annotate stop.annotate none (Stat.annotateAll body)
  | .numericFor var start stop (some step) body =>
    .numericFor var start.annotate stop.annotate (some step.annotate) (Stat.annotateAll body)
  | .genericFor names values body =>
    .genericFor names (Exp.annotateAll values) (Stat.annotateAll body)
  | .call c => .call c.annotate
  | .ret values => .ret (Exp.annotateAll values)
  | .localVars names none => .localVars names none
  | .localVars names (some values) => .localVars names (some (Exp.annotateAll values))
  | .assign targets values => .assign (Var.annotateAll targets) (Exp.annotateAll values)
  | .block body => .block (Stat.annotateAll body)
  | .repeatUntil body condition => .repeatUntil (Stat.annotateAll body) condition.annotate
  | .whileDo condition body => .whileDo condition.annotate (Stat.annotateAll body)
  | .breakLoop => .breakLoop

/-- An `elseif` with its annotations changed. -/
def ElseIf.annotate : ElseIf → ElseIf
  | .mk condition body => .mk condition.annotate (Stat.annotateAll body)

/-- A function body with its annotations changed. -/
def FuncBody.annotate : FuncBody → FuncBody
  | .mk params body => .mk params (Stat.annotateAll body)

/-- An expression with its annotations changed. -/
def Exp.annotate : Exp → Exp
  | .nil => .nil
  | .bool value => .bool value
  | .vararg => .vararg
  | .number lit => .number (lit.annotate number)
  | .string lit => .string (lit.annotate spelling)
  | .unary op operand => .unary op operand.annotate
  | .binary left op right => .binary left.annotate op right.annotate
  | .function body => .function body.annotate
  | .paren inner => .paren inner.annotate
  | .table fields => .table (Field.annotateAll fields)
  | .prefixed inner => .prefixed inner.annotate

/-- An expression that may be called or indexed, with its annotations changed. -/
def PrefixExp.annotate : PrefixExp → PrefixExp
  | .var v => .var v.annotate
  | .call c => .call c.annotate
  | .paren inner => .paren inner.annotate

/-- A variable with its annotations changed. -/
def Var.annotate : Var → Var
  | .name n => .name n
  | .index base key => .index base.annotate key.annotate
  | .member base n => .member base.annotate n

/-- A call with its annotations changed. -/
def Call.annotate : Call → Call
  | .normal callee args => .normal callee.annotate args.annotate
  | .method object name args => .method object.annotate name args.annotate

/-- The arguments of a call with their annotations changed. -/
def Args.annotate : Args → Args
  | .list values => .list (Exp.annotateAll values)
  | .table fields => .table (Field.annotateAll fields)
  | .string lit => .string (lit.annotate spelling)

/-- A table entry with its annotations changed. -/
def Field.annotate : Field → Field
  | .positional value => .positional value.annotate
  | .named name value => .named name value.annotate
  | .keyed key value => .keyed key.annotate value.annotate

/-- A chunk with its annotations changed. -/
def Stat.annotateAll : List Stat → List Stat
  | [] => []
  | stat :: rest => stat.annotate :: Stat.annotateAll rest

/-- The `elseif`s of a conditional with their annotations changed. -/
def ElseIf.annotateAll : List ElseIf → List ElseIf
  | [] => []
  | clause :: rest => clause.annotate :: ElseIf.annotateAll rest

/-- An expression list with its annotations changed. -/
def Exp.annotateAll : List Exp → List Exp
  | [] => []
  | exp :: rest => exp.annotate :: Exp.annotateAll rest

/-- A list of variables with its annotations changed. -/
def Var.annotateAll : List Var → List Var
  | [] => []
  | var :: rest => var.annotate :: Var.annotateAll rest

/-- The entries of a table with their annotations changed. -/
def Field.annotateAll : List Field → List Field
  | [] => []
  | field :: rest => field.annotate :: Field.annotateAll rest

end

/-- A node with its annotations changed. -/
def Node.annotate : Node → Node
  | .chunk b => .chunk (Stat.annotateAll number spelling b)
  | .stat s => .stat (s.annotate number spelling)
  | .elseIf c => .elseIf (c.annotate number spelling)
  | .funcBody b => .funcBody (b.annotate number spelling)
  | .funcName n => .funcName n
  | .parList p => .parList p
  | .exp e => .exp (e.annotate number spelling)
  | .prefixExp e => .prefixExp (e.annotate number spelling)
  | .var v => .var (v.annotate number spelling)
  | .call c => .call (c.annotate number spelling)
  | .args a => .args (a.annotate number spelling)
  | .field f => .field (f.annotate number spelling)
  | .table fs => .table (Field.annotateAll number spelling fs)
  | .nameList ns => .nameList ns
  | .expList es => .expList (Exp.annotateAll number spelling es)
  | .varList vs => .varList (Var.annotateAll number spelling vs)
  | .name n => .name n

end

/-- The tree without its annotations: every number literal means 0, and every string literal is known by the
empty spelling. -/
def Node.bare (n : Node) : Node :=
  n.annotate (fun _ => 0) fun _ => ""

/-! ## Erasing -/

section

variable {number : Float → Float} {spelling : String → String}

mutual

theorem Stat.erase_annotate : ∀ s : Stat, (s.annotate number spelling).erase = s.erase
  | .function name body => by
    rw [Stat.annotate, Stat.erase, Stat.erase, FuncBody.erase_annotate body]
  | .localFunction name body => by
    rw [Stat.annotate, Stat.erase, Stat.erase, FuncBody.erase_annotate body]
  | .ifThen condition body elseIfs none => by
    rw [Stat.annotate, Stat.erase, Stat.erase, Exp.erase_annotate condition, Stat.eraseAll_annotateAll body,
      ElseIf.eraseAll_annotateAll elseIfs]
  | .ifThen condition body elseIfs (some elseBody) => by
    rw [Stat.annotate, Stat.erase, Stat.erase, Exp.erase_annotate condition, Stat.eraseAll_annotateAll body,
      ElseIf.eraseAll_annotateAll elseIfs, Stat.eraseAll_annotateAll elseBody]
  | .numericFor var start stop none body => by
    rw [Stat.annotate, Stat.erase, Stat.erase, Exp.erase_annotate start, Exp.erase_annotate stop,
      Stat.eraseAll_annotateAll body]
  | .numericFor var start stop (some step) body => by
    rw [Stat.annotate, Stat.erase, Stat.erase, Exp.erase_annotate start, Exp.erase_annotate stop,
      Exp.erase_annotate step, Stat.eraseAll_annotateAll body]
  | .genericFor names values body => by
    rw [Stat.annotate, Stat.erase, Stat.erase, Exp.eraseAll_annotateAll values,
      Stat.eraseAll_annotateAll body]
  | .call c => by rw [Stat.annotate, Stat.erase, Stat.erase, Call.erase_annotate c]
  | .ret values => by rw [Stat.annotate, Stat.erase, Stat.erase, Exp.eraseAll_annotateAll values]
  | .localVars names none => rfl
  | .localVars names (some []) => rfl
  | .localVars names (some (value :: values)) => by
    rw [Stat.annotate, Exp.annotateAll, Stat.erase, Stat.erase, Exp.erase_annotate value,
      Exp.eraseAll_annotateAll values]
  | .assign targets values => by
    rw [Stat.annotate, Stat.erase, Stat.erase, Var.eraseAll_annotateAll targets,
      Exp.eraseAll_annotateAll values]
  | .block body => by rw [Stat.annotate, Stat.erase, Stat.erase, Stat.eraseAll_annotateAll body]
  | .repeatUntil body condition => by
    rw [Stat.annotate, Stat.erase, Stat.erase, Stat.eraseAll_annotateAll body, Exp.erase_annotate condition]
  | .whileDo condition body => by
    rw [Stat.annotate, Stat.erase, Stat.erase, Exp.erase_annotate condition, Stat.eraseAll_annotateAll body]
  | .breakLoop => rfl

theorem ElseIf.erase_annotate : ∀ c : ElseIf, (c.annotate number spelling).erase = c.erase
  | .mk condition body => by
    rw [ElseIf.annotate, ElseIf.erase, ElseIf.erase, Exp.erase_annotate condition,
      Stat.eraseAll_annotateAll body]

theorem FuncBody.erase_annotate : ∀ b : FuncBody, (b.annotate number spelling).erase = b.erase
  | .mk params body => by
    rw [FuncBody.annotate, FuncBody.erase, FuncBody.erase, Stat.eraseAll_annotateAll body]

theorem Exp.erase_annotate : ∀ e : Exp, (e.annotate number spelling).erase = e.erase
  | .nil | .bool _ | .vararg | .number _ | .string _ => rfl
  | .unary op operand => by rw [Exp.annotate, Exp.erase, Exp.erase, Exp.erase_annotate operand]
  | .binary left op right => by
    rw [Exp.annotate, Exp.erase, Exp.erase, Exp.erase_annotate left, Exp.erase_annotate right]
  | .function body => by rw [Exp.annotate, Exp.erase, Exp.erase, FuncBody.erase_annotate body]
  | .paren inner => by rw [Exp.annotate, Exp.erase, Exp.erase, Exp.erase_annotate inner]
  | .table fields => by rw [Exp.annotate, Exp.erase, Exp.erase, Field.eraseAll_annotateAll fields]
  | .prefixed inner => by rw [Exp.annotate, Exp.erase, Exp.erase, PrefixExp.erase_annotate inner]

theorem PrefixExp.erase_annotate : ∀ e : PrefixExp, (e.annotate number spelling).erase = e.erase
  | .var v => by rw [PrefixExp.annotate, PrefixExp.erase, PrefixExp.erase, Var.erase_annotate v]
  | .call c => by rw [PrefixExp.annotate, PrefixExp.erase, PrefixExp.erase, Call.erase_annotate c]
  | .paren inner => by
    rw [PrefixExp.annotate, PrefixExp.erase, PrefixExp.erase, Exp.erase_annotate inner]

theorem Var.erase_annotate : ∀ v : Var, (v.annotate number spelling).erase = v.erase
  | .name _ => rfl
  | .index base key => by
    rw [Var.annotate, Var.erase, Var.erase, PrefixExp.erase_annotate base, Exp.erase_annotate key]
  | .member base n => by rw [Var.annotate, Var.erase, Var.erase, PrefixExp.erase_annotate base]

theorem Call.erase_annotate : ∀ c : Call, (c.annotate number spelling).erase = c.erase
  | .normal callee args => by
    rw [Call.annotate, Call.erase, Call.erase, PrefixExp.erase_annotate callee, Args.erase_annotate args]
  | .method object name args => by
    rw [Call.annotate, Call.erase, Call.erase, PrefixExp.erase_annotate object, Args.erase_annotate args]

theorem Args.erase_annotate : ∀ a : Args, (a.annotate number spelling).erase = a.erase
  | .list values => by rw [Args.annotate, Args.erase, Args.erase, Exp.eraseAll_annotateAll values]
  | .table fields => by rw [Args.annotate, Args.erase, Args.erase, Field.eraseAll_annotateAll fields]
  | .string _ => rfl

theorem Field.erase_annotate : ∀ f : Field, (f.annotate number spelling).erase = f.erase
  | .positional value => by rw [Field.annotate, Field.erase, Field.erase, Exp.erase_annotate value]
  | .named name value => by rw [Field.annotate, Field.erase, Field.erase, Exp.erase_annotate value]
  | .keyed key value => by
    rw [Field.annotate, Field.erase, Field.erase, Exp.erase_annotate key, Exp.erase_annotate value]

theorem Stat.eraseAll_annotateAll :
    ∀ body : Chunk, Stat.eraseAll (Stat.annotateAll number spelling body) = Stat.eraseAll body
  | [] => rfl
  | stat :: rest => by
    rw [Stat.annotateAll, Stat.eraseAll, Stat.eraseAll, Stat.erase_annotate stat,
      Stat.eraseAll_annotateAll rest]

theorem ElseIf.eraseAll_annotateAll : ∀ clauses : List ElseIf,
    ElseIf.eraseAll (ElseIf.annotateAll number spelling clauses) = ElseIf.eraseAll clauses
  | [] => rfl
  | clause :: rest => by
    rw [ElseIf.annotateAll, ElseIf.eraseAll, ElseIf.eraseAll, ElseIf.erase_annotate clause,
      ElseIf.eraseAll_annotateAll rest]

theorem Exp.eraseAll_annotateAll :
    ∀ exps : List Exp, Exp.eraseAll (Exp.annotateAll number spelling exps) = Exp.eraseAll exps
  | [] => rfl
  | exp :: rest => by
    rw [Exp.annotateAll, Exp.eraseAll, Exp.eraseAll, Exp.erase_annotate exp, Exp.eraseAll_annotateAll rest]

theorem Var.eraseAll_annotateAll :
    ∀ vars : List Var, Var.eraseAll (Var.annotateAll number spelling vars) = Var.eraseAll vars
  | [] => rfl
  | var :: rest => by
    rw [Var.annotateAll, Var.eraseAll, Var.eraseAll, Var.erase_annotate var, Var.eraseAll_annotateAll rest]

theorem Field.eraseAll_annotateAll :
    ∀ fields : List Field, Field.eraseAll (Field.annotateAll number spelling fields) = Field.eraseAll fields
  | [] => rfl
  | field :: rest => by
    rw [Field.annotateAll, Field.eraseAll, Field.eraseAll, Field.erase_annotate field,
      Field.eraseAll_annotateAll rest]

end

/-- **A change of annotations is not seen once the tree is erased.** -/
theorem Node.erase_annotate (n : Node) : (n.annotate number spelling).erase = n.erase := by
  cases n with
  | chunk b => exact congrArg Node.chunk (Stat.eraseAll_annotateAll b)
  | stat s => exact congrArg Node.stat (Stat.erase_annotate s)
  | elseIf c => exact congrArg Node.elseIf (ElseIf.erase_annotate c)
  | funcBody b => exact congrArg Node.funcBody (FuncBody.erase_annotate b)
  | exp e => exact congrArg Node.exp (Exp.erase_annotate e)
  | prefixExp e => exact congrArg Node.prefixExp (PrefixExp.erase_annotate e)
  | var v => exact congrArg Node.var (Var.erase_annotate v)
  | call c => exact congrArg Node.call (Call.erase_annotate c)
  | args a => exact congrArg Node.args (Args.erase_annotate a)
  | field f => exact congrArg Node.field (Field.erase_annotate f)
  | table fs => exact congrArg Node.table (Field.eraseAll_annotateAll fs)
  | expList es => exact congrArg Node.expList (Exp.eraseAll_annotateAll es)
  | varList vs => exact congrArg Node.varList (Var.eraseAll_annotateAll vs)
  | funcName _ | parList _ | nameList _ | name _ => rfl

end

/-- Trees that differ in annotations only are the same once erased. -/
theorem erase_eq_of_bare_eq {a b : Node} (h : a.bare = b.bare) : a.erase = b.erase := by
  have hbare : ∀ n : Node, n.bare.erase = n.erase := Node.erase_annotate
  rw [← hbare a, h, hbare b]

end LuaUnparse
