import LuaUnparse.Proofs.Monitor.Basic

/-!
# `LuaUnparse.Proofs.Monitor.Leaves` — nothing is lost, doubled or moved

A reader of fragments can tell the leaves of the tree from all that the rules write around them: names are
the only words that are not reserved, numbers the only texts with a digit first, and string literals stand
between quotes. What the reader collects is what the tree holds, in the order of the source.

## Contents
- **Leaves.** `Leaf`, and the `leaves` of each type of the tree.
- **Reading.** `Harvest.read`, which collects leaves from texts.
- **Shapes.** `harvest`, the monitor that reads so, and `Harvest.takes_shape`, for one construct.
- **Runs.** **`leaves_read_back`**, for the fragments of any run.
-/

namespace LuaUnparse

/-! ## Leaves -/

/-- What a tree holds apart from its shape. -/
inductive Leaf where
  | name (name : Name)
  | number (raw : String)
  | string (value : String)
  deriving DecidableEq

/-- The names of a function name. -/
def FuncName.leaves (name : FuncName) : List Leaf :=
  name.names.map .name

/-- The names of a parameter list. -/
def ParList.leaves (params : ParList) : List Leaf :=
  params.names.map .name

mutual

/-- The leaves of a statement. -/
def Stat.leaves : Stat → List Leaf
  | .function name body => name.leaves ++ body.leaves
  | .localFunction name body => .name name :: body.leaves
  | .ifThen condition body elseIfs none =>
    condition.leaves ++ Stat.leavesAll body ++ ElseIf.leavesAll elseIfs
  | .ifThen condition body elseIfs (some elseBody) =>
    condition.leaves ++ Stat.leavesAll body ++ ElseIf.leavesAll elseIfs ++ Stat.leavesAll elseBody
  | .numericFor var start stop none body =>
    .name var :: (start.leaves ++ stop.leaves ++ Stat.leavesAll body)
  | .numericFor var start stop (some step) body =>
    .name var :: (start.leaves ++ stop.leaves ++ step.leaves ++ Stat.leavesAll body)
  | .genericFor names values body =>
    names.map .name ++ Exp.leavesAll values ++ Stat.leavesAll body
  | .call c => c.leaves
  | .ret values => Exp.leavesAll values
  | .localVars names none => names.map .name
  | .localVars names (some values) => names.map .name ++ Exp.leavesAll values
  | .assign targets values => Var.leavesAll targets ++ Exp.leavesAll values
  | .block body => Stat.leavesAll body
  | .repeatUntil body condition => Stat.leavesAll body ++ condition.leaves
  | .whileDo condition body => condition.leaves ++ Stat.leavesAll body
  | .breakLoop => []

/-- The leaves of an `elseif`. -/
def ElseIf.leaves : ElseIf → List Leaf
  | .mk condition body => condition.leaves ++ Stat.leavesAll body

/-- The leaves of a function body. -/
def FuncBody.leaves : FuncBody → List Leaf
  | .mk params body => params.leaves ++ Stat.leavesAll body

/-- The leaves of an expression. -/
def Exp.leaves : Exp → List Leaf
  | .nil | .bool _ | .vararg => []
  | .number lit => [.number lit.raw]
  | .string lit => [.string lit.value]
  | .unary _ operand => operand.leaves
  | .binary left _ right => left.leaves ++ right.leaves
  | .function body => body.leaves
  | .paren inner => inner.leaves
  | .table fields => Field.leavesAll fields
  | .prefixed inner => inner.leaves

/-- The leaves of an expression that may be called or indexed. -/
def PrefixExp.leaves : PrefixExp → List Leaf
  | .var v => v.leaves
  | .call c => c.leaves
  | .paren inner => inner.leaves

/-- The leaves of a variable. -/
def Var.leaves : Var → List Leaf
  | .name n => [.name n]
  | .index base key => base.leaves ++ key.leaves
  | .member base n => base.leaves ++ [.name n]

/-- The leaves of a call. -/
def Call.leaves : Call → List Leaf
  | .normal callee args => callee.leaves ++ args.leaves
  | .method object name args => object.leaves ++ .name name :: args.leaves

/-- The leaves of the arguments of a call. -/
def Args.leaves : Args → List Leaf
  | .list values => Exp.leavesAll values
  | .table fields => Field.leavesAll fields
  | .string lit => [.string lit.value]

/-- The leaves of a table entry. -/
def Field.leaves : Field → List Leaf
  | .positional value => value.leaves
  | .named name value => .name name :: value.leaves
  | .keyed key value => key.leaves ++ value.leaves

/-- The leaves of a chunk. -/
def Stat.leavesAll : List Stat → List Leaf
  | [] => []
  | stat :: rest => stat.leaves ++ Stat.leavesAll rest

/-- The leaves of the `elseif`s of a conditional. -/
def ElseIf.leavesAll : List ElseIf → List Leaf
  | [] => []
  | clause :: rest => clause.leaves ++ ElseIf.leavesAll rest

/-- The leaves of an expression list. -/
def Exp.leavesAll : List Exp → List Leaf
  | [] => []
  | exp :: rest => exp.leaves ++ Exp.leavesAll rest

/-- The leaves of a list of variables. -/
def Var.leavesAll : List Var → List Leaf
  | [] => []
  | var :: rest => var.leaves ++ Var.leavesAll rest

/-- The leaves of the entries of a table. -/
def Field.leavesAll : List Field → List Leaf
  | [] => []
  | field :: rest => field.leaves ++ Field.leavesAll rest

end

/-- The leaves of a node. -/
def Node.leaves : Node → List Leaf
  | .chunk b => Stat.leavesAll b
  | .stat s => s.leaves
  | .elseIf c => c.leaves
  | .funcBody b => b.leaves
  | .funcName n => n.leaves
  | .parList p => p.leaves
  | .exp e => e.leaves
  | .prefixExp e => e.leaves
  | .var v => v.leaves
  | .call c => c.leaves
  | .args a => a.leaves
  | .field f => f.leaves
  | .table fs => Field.leavesAll fs
  | .nameList ns => ns.map .name
  | .expList es => Exp.leavesAll es
  | .varList vs => Var.leavesAll vs
  | .name n => [.name n]

/-- A function that collects from a list member by member is a flat map. -/
theorem eq_flatMap_of_cons {Part : Type} {f : Part → List Leaf} {all : List Part → List Leaf}
    (hnil : all [] = []) (hcons : ∀ part parts, all (part :: parts) = f part ++ all parts)
    (parts : List Part) : all parts = parts.flatMap f := by
  induction parts with
  | nil => exact hnil
  | cons part parts ih => rw [hcons, ih, List.flatMap_cons]

theorem leavesAll_stats (body : Chunk) : Stat.leavesAll body = body.flatMap Stat.leaves :=
  eq_flatMap_of_cons rfl (fun _ _ => rfl) body

theorem leavesAll_clauses (clauses : List ElseIf) :
    ElseIf.leavesAll clauses = clauses.flatMap ElseIf.leaves :=
  eq_flatMap_of_cons rfl (fun _ _ => rfl) clauses

theorem leavesAll_exps (exps : List Exp) : Exp.leavesAll exps = exps.flatMap Exp.leaves :=
  eq_flatMap_of_cons rfl (fun _ _ => rfl) exps

theorem leavesAll_vars (vars : List Var) : Var.leavesAll vars = vars.flatMap Var.leaves :=
  eq_flatMap_of_cons rfl (fun _ _ => rfl) vars

theorem leavesAll_fields (fields : List Field) :
    Field.leavesAll fields = fields.flatMap Field.leaves :=
  eq_flatMap_of_cons rfl (fun _ _ => rfl) fields

/-! ## Reading -/

/-- The leaf that a text spells, outside string literals. -/
def leaf? (text : String) : Option Leaf :=
  if Name.isValid text then some (.name text)
  else if text.toList.head?.any Char.isDigit then some (.number text)
  else none

/-- The value of the string literal with this text between its quotes. -/
def Quoted.decode? (content : String) : Option String :=
  match scanBody? (content.toList ++ ['"']) with
  | some (value, []) => some (String.ofList value)
  | _ => none

theorem Quoted.decode?_escape (value : String) : decode? (escape value) = some value := by
  rw [decode?, toList_escape, scanBody?_escape]
  exact congrArg some String.ofList_toList

/-- What a reader of fragments has collected, and in a string literal the text since its opening quote. -/
structure Harvest where
  opened : Option String
  leaves : List Leaf
  deriving DecidableEq

/-- Reads a fragment. -/
def Harvest.read (harvest : Harvest) (text : String) : Option Harvest :=
  match harvest.opened with
  | none =>
    if text = "\"" then some { harvest with opened := some "" }
    else
      match leaf? text with
      | none => some harvest
      | some leaf => some { harvest with leaves := harvest.leaves ++ [leaf] }
  | some content =>
    if text = "\"" then
      (Quoted.decode? content).map fun value => ⟨none, harvest.leaves ++ [.string value]⟩
    else some { harvest with opened := some (content ++ text) }

theorem Harvest.read_open (leaves : List Leaf) :
    Harvest.read ⟨none, leaves⟩ "\"" = some ⟨some "", leaves⟩ := by
  rw [Harvest.read]
  exact if_pos rfl

/-- What stands between the quotes is kept until the closing one. -/
theorem Harvest.read_content (content : String) (leaves : List Leaf) {text : String} (h : text ≠ "\"") :
    Harvest.read ⟨some content, leaves⟩ text = some ⟨some (content ++ text), leaves⟩ := by
  rw [Harvest.read]
  exact if_neg h

theorem Harvest.read_close {content value : String} (leaves : List Leaf)
    (h : Quoted.decode? content = some value) :
    Harvest.read ⟨some content, leaves⟩ "\"" = some ⟨none, leaves ++ [.string value]⟩ := by
  simp only [Harvest.read, h, if_true, Option.map_some]

/-- A line break spells no leaf. -/
theorem Harvest.read_lineBreak (leaves : List Leaf) {text : String} (h : isLineBreak text = true) :
    Harvest.read ⟨none, leaves⟩ text = some ⟨none, leaves⟩ := by
  have hquote : text ≠ "\"" := by
    rintro rfl
    exact absurd h (by decide)
  have hno : isLeafText text = false := by
    rw [Bool.eq_false_iff]
    intro hleaf
    rw [(not_empty_of_isLeafText hleaf).2.1] at h
    exact absurd h (by decide)
  obtain ⟨hname, hdigit⟩ := Bool.or_eq_false_iff.mp hno
  have hleaf : leaf? text = none := by
    rw [leaf?, hname, hdigit]
    rfl
  simp only [Harvest.read, hquote, hleaf, if_false]

/-! ## Shapes -/

/-- The reader of leaves, on items. A node yields all its leaves. -/
def harvest : Monitor Harvest where
  step harvest
    | .text text => harvest.read text
    | .lineBreak _ => match harvest.opened with
      | none => some harvest
      | some _ => none
  whole n _ harvest := match harvest.opened with
    | none => some { harvest with leaves := harvest.leaves ++ n.leaves }
    | some _ => none

namespace Harvest

open Monitor

variable {depth : Nat} {leaves more : List Leaf} {s s' : Harvest} {ps : List Piece}

/-- The same leaves, put together in another way. -/
theorem takes_eq (h : harvest.Takes depth s ps ⟨none, leaves⟩) (heq : leaves = more) :
    harvest.Takes depth s ps ⟨none, more⟩ :=
  heq ▸ h

theorem takes_read {text : String} {s'' : Harvest} (hempty : text.isEmpty = false)
    (h : s.read text = some s') (hr : harvest.Takes depth s' ps s'') :
    harvest.Takes depth s (.text text :: ps) s'' :=
  takes_text hempty h hr

theorem takes_name {name : Name} (hv : name.isValid = true)
    (hr : harvest.Takes depth ⟨none, leaves ++ [Leaf.name name]⟩ ps s') :
    harvest.Takes depth ⟨none, leaves⟩ (.text name :: ps) s' := by
  obtain ⟨hempty, -, hquote⟩ := not_empty_of_isLeafText (isLeafText_name hv)
  have hleaf : leaf? name = some (.name name) := by rw [leaf?, if_pos hv]
  refine takes_read hempty ?_ hr
  simp only [Harvest.read, hquote, hleaf, if_false]

theorem takes_number {raw : String} (hdigit : raw.toList.head?.any Char.isDigit = true) :
    harvest.Takes depth ⟨none, leaves⟩ [.text raw] ⟨none, leaves ++ [Leaf.number raw]⟩ := by
  obtain ⟨hempty, -, hquote⟩ := not_empty_of_isLeafText (isLeafText_number hdigit)
  have hname : Name.isValid raw = false := by
    rw [Bool.eq_false_iff]
    intro hv
    rw [digit_of_isBare (isBare_of_isValid hv)] at hdigit
    exact absurd hdigit (by decide)
  have hleaf : leaf? raw = some (.number raw) := by
    rw [leaf?, hname, if_pos hdigit]
    rfl
  refine takes_read hempty ?_ takes_nil
  simp only [Harvest.read, hquote, hleaf, if_false]

/-- The value of a literal, whether or not there is something between its quotes. -/
theorem takes_string (lit : StringLit) :
    harvest.Takes depth ⟨none, leaves⟩ lit.shape ⟨none, leaves ++ [Leaf.string lit.value]⟩ := by
  have hclose : harvest.Takes depth ⟨some (Quoted.escape lit.value), leaves⟩ [.text "\""]
      ⟨none, leaves ++ [Leaf.string lit.value]⟩ :=
    takes_read rfl (read_close leaves (Quoted.decode?_escape lit.value)) takes_nil
  have hcontent : harvest.Takes depth ⟨some "", leaves⟩ [.text (Quoted.escape lit.value), .text "\""]
      ⟨none, leaves ++ [Leaf.string lit.value]⟩ := by
    cases hempty : (Quoted.escape lit.value).isEmpty with
    | true =>
      rw [Takes, through, hempty, if_pos rfl, ← String.isEmpty_iff.mp hempty]
      exact hclose
    | false =>
      have hread := read_content "" leaves (escape_ne_quote lit.value).1
      rw [String.empty_append] at hread
      exact takes_read hempty hread hclose
  exact takes_read rfl (read_open leaves) hcontent

/-- The reader after parts that have yielded their leaves. -/
def after {Part : Type} (leaves : List Leaf) (yield : Part → List Leaf) (done : List Part) : Harvest :=
  ⟨none, leaves ++ done.flatMap yield⟩

theorem after_nil {Part : Type} (leaves : List Leaf) (yield : Part → List Leaf) :
    after leaves yield [] = ⟨none, leaves⟩ := by
  rw [after, List.flatMap_nil, List.append_nil]

theorem after_concat {Part : Type} (leaves : List Leaf) (yield : Part → List Leaf) (done : List Part)
    (part : Part) :
    after leaves yield (done ++ [part]) = ⟨none, leaves ++ done.flatMap yield ++ yield part⟩ := by
  rw [after, List.flatMap_append, List.flatMap_singleton, List.append_assoc]

/-- Parts one after the other, each of which yields its leaves. -/
theorem takes_parts {Part : Type} {f : Part → List Piece} {yield : Part → List Leaf} {parts : List Part}
    (hlevel : ∀ part, (f part).all Piece.isLevel = true)
    (h : ∀ leaves, ∀ part ∈ parts,
      harvest.Takes depth ⟨none, leaves⟩ (f part) ⟨none, leaves ++ yield part⟩) :
    harvest.Takes depth ⟨none, leaves⟩ (parts.flatMap f) ⟨none, leaves ++ parts.flatMap yield⟩ := by
  rw [← after_nil leaves yield]
  refine takes_flatMap (after leaves yield) hlevel fun done part hpart => ?_
  rw [after_concat]
  exact h _ part hpart

/-- Parts with commas between them. -/
theorem takes_list {Part : Type} {f : Part → Piece} {yield : Part → List Leaf} {parts : List Part}
    (hlevel : ∀ part, (f part).isLevel = true)
    (h : ∀ leaves, ∀ part ∈ parts,
      harvest.Takes depth ⟨none, leaves⟩ [f part] ⟨none, leaves ++ yield part⟩) :
    harvest.Takes depth ⟨none, leaves⟩ (separated (parts.map f)) ⟨none, leaves ++ parts.flatMap yield⟩ := by
  rw [← after_nil leaves yield]
  refine takes_separated (after leaves yield) hlevel (fun done part hpart => ?_) fun _ _ => rfl
  rw [after_concat]
  exact h _ part hpart

theorem takes_names {names : List Name} (hv : ∀ n ∈ names, n.isValid = true) :
    harvest.Takes depth ⟨none, leaves⟩ (namesShape names) ⟨none, leaves ++ names.map Leaf.name⟩ := by
  rw [List.map_eq_flatMap]
  exact takes_list (fun _ => rfl) fun _ n hn => takes_name (hv n hn) takes_nil

theorem takes_exps (exps : List Exp) :
    harvest.Takes depth ⟨none, leaves⟩ (expsShape exps) ⟨none, leaves ++ Exp.leavesAll exps⟩ := by
  rw [leavesAll_exps]
  apply takes_list
  · intro e
    rfl
  · intro leaves e he
    rfl

theorem takes_vars (vars : List Var) :
    harvest.Takes depth ⟨none, leaves⟩ (varsShape vars) ⟨none, leaves ++ Var.leavesAll vars⟩ := by
  rw [leavesAll_vars]
  apply takes_list
  · intro v
    rfl
  · intro leaves v hv
    rfl

theorem takes_lines (body : Chunk) :
    harvest.Takes depth ⟨none, leaves⟩ (Chunk.lines body) ⟨none, leaves ++ Stat.leavesAll body⟩ := by
  rw [leavesAll_stats]
  apply takes_parts
  · intro s
    rfl
  · intro leaves s hs
    rfl

theorem takes_table (fields : List Field) :
    harvest.Takes depth ⟨none, leaves⟩ (tableShape fields) ⟨none, leaves ++ Field.leavesAll fields⟩ := by
  unfold tableShape
  cases fields with
  | nil => exact takes_eq rfl (List.append_nil leaves).symm
  | cons field fields =>
    have hentries : harvest.Takes (depth + 1) ⟨none, leaves⟩
        ((field :: fields).flatMap fun f => [.lineBreak, .node (.field f), .text ","])
        ⟨none, leaves ++ Field.leavesAll (field :: fields)⟩ := by
      rw [leavesAll_fields]
      apply takes_parts
      · intro f
        rfl
      · intro leaves f hf
        rfl
    have hinside : harvest.Takes (depth + 1) ⟨none, leaves⟩
        (((field :: fields).flatMap fun f => [Piece.lineBreak, .node (.field f), .text ","]) ++
          [Piece.dedent, .lineBreak, .text "\x7d"])
        ⟨none, leaves ++ Field.leavesAll (field :: fields)⟩ := hentries.append (by simp) rfl
    exact takes_text rfl rfl (takes_indent hinside)

theorem takes_stat {s : Stat} (hf : s.fault? = none) :
    harvest.Takes depth ⟨none, leaves⟩ s.shape ⟨none, leaves ++ s.leaves⟩ := by
  cases s with
  | function name body => exact takes_eq rfl (List.append_assoc ..)
  | localFunction name body =>
    have hname : harvest.Takes depth ⟨none, leaves⟩
        [.text name, .node (.funcBody body), .lineBreak, .text "end"]
        ⟨none, leaves ++ [Leaf.name name] ++ body.leaves⟩ := takes_name (Name.isValid_of_fault hf) rfl
    exact takes_eq (takes_text rfl rfl hname) (List.append_assoc ..)
  | ifThen condition body elseIfs elseBody =>
    have hhead : harvest.Takes depth ⟨none, leaves⟩
        [.text "if ", .node (.exp condition), .text " then", .node (.chunk body)]
        ⟨none, leaves ++ condition.leaves ++ Stat.leavesAll body⟩ := rfl
    have hclauses : ∀ leaves, harvest.Takes depth ⟨none, leaves⟩
        (elseIfs.flatMap fun clause => [.lineBreak, .node (.elseIf clause)])
        ⟨none, leaves ++ ElseIf.leavesAll elseIfs⟩ := by
      intro leaves
      rw [leavesAll_clauses]
      apply takes_parts
      · intro clause
        rfl
      · intro leaves clause hclause
        rfl
    rw [Stat.shape, List.append_assoc, List.append_assoc]
    cases elseBody with
    | none =>
      refine takes_eq (hhead.append rfl ((hclauses _).append (by simp) rfl)) ?_
      rw [Stat.leaves, List.append_assoc, List.append_assoc, List.append_assoc]
    | some body =>
      refine takes_eq (hhead.append rfl ((hclauses _).append (by simp) rfl)) ?_
      simp only [Stat.leaves, List.append_assoc, Node.leaves]
  | numericFor var start stop step body =>
    cases step with
    | none =>
      have hrest : ∀ leaves, harvest.Takes depth ⟨none, leaves⟩
          ([Piece.text " = ", .node (.exp start), .text ", ", .node (.exp stop), .text " do"] ++
            bodyAndEnd body)
          ⟨none, leaves ++ start.leaves ++ stop.leaves ++ Stat.leavesAll body⟩ := by
        intro leaves
        rfl
      refine takes_eq (takes_text rfl rfl (takes_name (Name.isValid_of_fault hf) (hrest _))) ?_
      simp only [Stat.leaves, List.append_assoc, List.cons_append, List.nil_append]
    | some step =>
      have hrest : ∀ leaves, harvest.Takes depth ⟨none, leaves⟩
          ([Piece.text " = ", .node (.exp start), .text ", ", .node (.exp stop), .text ", ",
            .node (.exp step), .text " do"] ++ bodyAndEnd body)
          ⟨none, leaves ++ start.leaves ++ stop.leaves ++ step.leaves ++ Stat.leavesAll body⟩ := by
        intro leaves
        rfl
      refine takes_eq (takes_text rfl rfl (takes_name (Name.isValid_of_fault hf) (hrest _))) ?_
      simp only [Stat.leaves, List.append_assoc, List.cons_append, List.nil_append]
  | genericFor names values body =>
    refine takes_eq rfl ?_
    simp only [Stat.leaves, List.append_assoc, Node.leaves]
  | call c => rfl
  | ret values =>
    cases values with
    | nil => exact takes_eq rfl (List.append_nil leaves).symm
    | cons value values => rfl
  | localVars names values =>
    rcases values with _ | _ | ⟨value, values⟩
    · rfl
    · exact takes_eq rfl (by rw [Stat.leaves, Exp.leavesAll, List.append_nil]; rfl)
    · exact takes_eq rfl (List.append_assoc ..)
  | assign targets values => exact takes_eq rfl (List.append_assoc ..)
  | block body => rfl
  | repeatUntil body condition => exact takes_eq rfl (List.append_assoc ..)
  | whileDo condition body => exact takes_eq rfl (List.append_assoc ..)
  | breakLoop => exact takes_eq rfl (List.append_nil leaves).symm

theorem takes_exp {e : Exp} (hdigit : (Node.exp e).isDigitFirst = true) :
    harvest.Takes depth ⟨none, leaves⟩ e.shape ⟨none, leaves ++ e.leaves⟩ := by
  cases e with
  | nil | vararg => exact takes_eq rfl (List.append_nil leaves).symm
  | bool value => cases value <;> exact takes_eq rfl (List.append_nil leaves).symm
  | number lit => exact takes_number hdigit
  | string lit => exact takes_string lit
  | unary op operand =>
    have hoperand : harvest.Takes depth ⟨none, leaves⟩
        (unaryGap op operand ++ [Piece.node (.exp operand)]) ⟨none, leaves ++ operand.leaves⟩ :=
      takes_unaryGap op operand rfl rfl
    cases op <;> exact takes_text rfl rfl hoperand
  | binary left op right =>
    have hboth : harvest.Takes depth ⟨none, leaves⟩ (Exp.binary left op right).shape
        ⟨none, leaves ++ left.leaves ++ right.leaves⟩ := by
      cases op <;> rfl
    exact takes_eq hboth (List.append_assoc ..)
  | function body => rfl
  | paren inner => rfl
  | table fields => exact takes_table fields
  | prefixed inner => rfl

theorem takes_funcName {name : FuncName} (hv : ∀ n ∈ name.names, n.isValid = true) :
    harvest.Takes depth ⟨none, leaves⟩ name.shape ⟨none, leaves ++ name.leaves⟩ := by
  have hname : ∀ done, ∀ n ∈ name.indexers ++ name.method.toList,
      harvest.Takes depth ⟨none, leaves ++ (name.base :: done).map Leaf.name⟩ [.text n]
        ⟨none, leaves ++ (name.base :: (done ++ [n])).map Leaf.name⟩ := by
    intro done n hn
    refine takes_eq (takes_name (hv n (List.mem_cons_of_mem _ hn)) takes_nil) ?_
    simp
  exact takes_path (fun done => ⟨none, leaves ++ (name.base :: done).map Leaf.name⟩)
    (takes_name (hv _ List.mem_cons_self) takes_nil) (fun _ => rfl) (fun _ => rfl) hname

theorem takes_parList {params : ParList} (hv : ∀ n ∈ params.names, n.isValid = true) :
    harvest.Takes depth ⟨none, leaves⟩ params.shape ⟨none, leaves ++ params.leaves⟩ :=
  takes_params rfl (takes_names hv) rfl rfl rfl

/-- **Every construct yields its leaves**, each of them once, in the order of the source. -/
theorem takes_shape {n : Node} (hf : n.fault? = none) (hdigit : n.isDigitFirst = true) :
    harvest.Takes depth ⟨none, leaves⟩ n.shape ⟨none, leaves ++ n.leaves⟩ := by
  cases n with
  | chunk body => exact takes_indent ((takes_lines body).append (by simp [Chunk.lines]) rfl)
  | stat s => exact takes_stat hf
  | elseIf clause =>
    obtain ⟨condition, body⟩ := clause
    exact takes_eq rfl (List.append_assoc ..)
  | funcBody body =>
    obtain ⟨params, body⟩ := body
    exact takes_eq rfl (List.append_assoc ..)
  | funcName name => exact takes_funcName (isValid_of_firstInvalid hf)
  | parList params => exact takes_parList (isValid_of_firstInvalid hf)
  | exp e => exact takes_exp hdigit
  | prefixExp e => cases e <;> rfl
  | var v =>
    cases v with
    | name n => exact takes_name (Name.isValid_of_fault hf) takes_nil
    | index base key => exact takes_eq rfl (List.append_assoc ..)
    | member base n =>
      have hname : harvest.Takes depth ⟨none, leaves ++ base.leaves⟩ [.text ".", .text n]
          ⟨none, leaves ++ base.leaves ++ [Leaf.name n]⟩ :=
        takes_text rfl rfl (takes_name (Name.isValid_of_fault hf) takes_nil)
      exact takes_eq (takes_node rfl hname) (List.append_assoc ..)
  | call c =>
    cases c with
    | normal callee args => exact takes_eq rfl (List.append_assoc ..)
    | method object name args =>
      have hname : harvest.Takes depth ⟨none, leaves ++ object.leaves⟩
          [.text ":", .text name, .node (.args args)]
          ⟨none, leaves ++ object.leaves ++ [Leaf.name name] ++ args.leaves⟩ :=
        takes_text rfl rfl (takes_name (Name.isValid_of_fault hf) rfl)
      refine takes_eq (takes_node rfl hname) ?_
      simp only [Node.leaves, Call.leaves, List.append_assoc, List.cons_append, List.nil_append]
  | args a =>
    cases a with
    | list values => rfl
    | table fields => exact takes_table fields
    | string lit => exact takes_string lit
  | field f =>
    cases f with
    | positional value => rfl
    | named name value =>
      have hvalue : harvest.Takes depth ⟨none, leaves ++ [Leaf.name name]⟩ [.text " = ", .node (.exp value)]
          ⟨none, leaves ++ [Leaf.name name] ++ value.leaves⟩ := rfl
      exact takes_eq (takes_name (Name.isValid_of_fault hf) hvalue) (List.append_assoc ..)
    | keyed key value => exact takes_eq rfl (List.append_assoc ..)
  | table fields => exact takes_table fields
  | nameList names => exact takes_names (isValid_of_firstInvalid hf)
  | expList es => exact takes_exps es
  | varList vs => exact takes_vars vs
  | name n => exact takes_name (Name.isValid_of_fault hf) takes_nil

end Harvest

theorem harvest_sound : harvest.Sound Node.DigitsFirst where
  child h hm := h.child hm
  shape {n depth s s'} h hf hwhole := by
    obtain ⟨_ | content, leaves⟩ := s
    · obtain rfl : ⟨none, leaves ++ n.leaves⟩ = s' := Option.some.inj hwhole
      exact Harvest.takes_shape hf (h n n.self_mem_preorder)
    · exact absurd hwhole (by simp [harvest])

/-! ## Runs -/

/-- What the monitor collects from items the reader collects from their texts: a line break spells no
leaf. -/
theorem foldlM_texts {items : List Item} {s s' : Harvest} (h : harvest.read s items = some s') :
    (items.map ({} : Style).write).foldlM Harvest.read s = some s' := by
  rw [List.foldlM_map]
  apply Monitor.foldlM_of_read ?_ h
  intro s item s₁ hstep
  cases item with
  | text t => exact hstep
  | lineBreak depth =>
    obtain ⟨_ | content, leaves⟩ := s
    · obtain rfl : ⟨none, leaves⟩ = s₁ := Option.some.inj hstep
      exact Harvest.read_lineBreak leaves (isLineBreak_lineBreak depth)
    · exact absurd hstep (by simp [harvest])

/-- **The leaves of a tree can be read back from its fragments.** A reader who goes through the fragments of
a run, and takes what stands between quotes for a string, every other name for a name and every other text
with a digit first for a number, has the leaves of the tree in the order of the source: none is missing,
and no other fragment is taken for one. -/
theorem leaves_read_back {root : Node} (hdigit : root.DigitsFirst) {text : String}
    (h : unparse root {} = .ok text) :
    ∃ texts : List String, Unparser.fragments ⟨root, {}⟩ = texts.map .ok ∧
      texts.foldlM Harvest.read ⟨none, []⟩ = some ⟨none, root.leaves⟩ := by
  have hopening : harvest.Takes 0 ⟨none, []⟩ root.opening ⟨none, root.leaves⟩ := by
    cases root with
    | chunk body => exact Harvest.takes_lines body
    | _ => rfl
  have hread := harvest_sound.read_of_ok hdigit hopening h
  exact ⟨root.rootLayout.texts {}, fragments_of_ok h, foldlM_texts hread⟩

/-- A call whose argument is a function that returns a literal with a quote in it. -/
theorem leaves_read_back_call :
    (Node.stat (.call (.normal (.var (.name "f")) (.list [.function (.mk ⟨["x"], true⟩
        [.ret [.string ⟨"\"y", ""⟩, .number ⟨"0x1F", 31⟩]])])))).DigitsFirst ∧
      unparse (.stat (.call (.normal (.var (.name "f")) (.list [.function (.mk ⟨["x"], true⟩
          [.ret [.string ⟨"\"y", ""⟩, .number ⟨"0x1F", 31⟩]])])))) {} =
        .ok "f(function(x, ...)\n  return \"\\\"y\", 0x1F\nend)" ∧
      ∃ texts : List String, Unparser.fragments ⟨.stat (.call (.normal (.var (.name "f"))
          (.list [.function (.mk ⟨["x"], true⟩
            [.ret [.string ⟨"\"y", ""⟩, .number ⟨"0x1F", 31⟩]])]))), {}⟩ = texts.map .ok ∧
        texts.foldlM Harvest.read ⟨none, []⟩ =
          some ⟨none, [.name "f", .name "x", .string "\"y", .number "0x1F"]⟩ := by
  have hdigit : (Node.stat (.call (.normal (.var (.name "f")) (.list [.function (.mk ⟨["x"], true⟩
      [.ret [.string ⟨"\"y", ""⟩, .number ⟨"0x1F", 31⟩]])])))).DigitsFirst := by
    decide +kernel
  have hlayout : (Node.stat (.call (.normal (.var (.name "f")) (.list [.function (.mk ⟨["x"], true⟩
      [.ret [.string ⟨"\"y", ""⟩, .number ⟨"0x1F", 31⟩]])])))).rootLayout =
      ⟨[.text "f", .text "(", .text "function", .text "(", .text "x", .text ", ...", .text ")",
        .lineBreak 1, .text "return", .text " ", .text "\"", .text "\\\"y", .text "\"", .text ", ",
        .text "0x1F", .lineBreak 0, .text "end", .text ")"], none⟩ := by decide +kernel
  have htext : unparse (.stat (.call (.normal (.var (.name "f")) (.list [.function (.mk ⟨["x"], true⟩
      [.ret [.string ⟨"\"y", ""⟩, .number ⟨"0x1F", 31⟩]])])))) {} =
      .ok "f(function(x, ...)\n  return \"\\\"y\", 0x1F\nend)" := by
    rw [unparse_eq_layout, hlayout]
    rfl
  exact ⟨hdigit, htext, leaves_read_back hdigit htext⟩

end LuaUnparse
