import LuaUnparse.Proofs.Annotation

/-!
# `LuaUnparse.Proofs.Equality` — equal trees are written alike

Equality of trees looks at more than is written, and at the numbers of literals it looks with the eyes of
arithmetic, for which 0 and -0 are one number. Nevertheless two equal trees are the same tree but for the
numbers of their literals, so no run tells them apart.

## Contents
- **Trees.** `annotate_of_beq` for every type of the tree, and for nodes `Node.annotate_of_beq`: equal trees
  are the same tree once their numbers are the same.
- **Runs.** **`events_ignore_annotations`**: a run tells nothing about the annotations of its tree, and so
  nothing about which of several equal trees it writes.
-/

namespace LuaUnparse

/-! ## Trees -/

section

variable {number : Float} {spelling : String → String}

theorem NumberLit.annotate_of_beq {lit lit' : NumberLit} (h : lit.beq lit' = true) :
    lit.annotate (fun _ => number) = lit'.annotate fun _ => number := by
  simp only [NumberLit.beq, Bool.and_eq_true, beq_iff_eq] at h
  rw [NumberLit.annotate, NumberLit.annotate, h.1]

mutual

theorem Stat.annotate_of_beq : ∀ s s' : Stat, s.beq s' = true →
    s.annotate (fun _ => number) spelling = s'.annotate (fun _ => number) spelling
  | .function name body, s', h => by
    cases s' with
    | function name' body' =>
      simp only [Stat.beq, Bool.and_eq_true, beq_iff_eq] at h
      rw [Stat.annotate, Stat.annotate, h.1, FuncBody.annotate_of_beq body body' h.2]
    | _ => simp [Stat.beq] at h
  | .localFunction name body, s', h => by
    cases s' with
    | localFunction name' body' =>
      simp only [Stat.beq, Bool.and_eq_true, beq_iff_eq] at h
      rw [Stat.annotate, Stat.annotate, h.1, FuncBody.annotate_of_beq body body' h.2]
    | _ => simp [Stat.beq] at h
  | .ifThen condition body elseIfs elseBody, s', h => by
    cases s' with
    | ifThen condition' body' elseIfs' elseBody' =>
      simp only [Stat.beq, Bool.and_eq_true] at h
      obtain ⟨⟨⟨hcondition, hbody⟩, helseIfs⟩, helse⟩ := h
      have hcondition := Exp.annotate_of_beq condition condition' hcondition
      have hbody := Stat.annotateAll_of_beqAll body body' hbody
      have helseIfs := ElseIf.annotateAll_of_beqAll elseIfs elseIfs' helseIfs
      match elseBody, elseBody', helse with
      | none, none, _ => rw [Stat.annotate, Stat.annotate, hcondition, hbody, helseIfs]
      | some elseBody, some elseBody', helse =>
        rw [Stat.beqAll?] at helse
        rw [Stat.annotate, Stat.annotate, hcondition, hbody, helseIfs,
          Stat.annotateAll_of_beqAll elseBody elseBody' helse]
      | none, some _, helse | some _, none, helse => simp [Stat.beqAll?] at helse
    | _ => simp [Stat.beq] at h
  | .numericFor var start stop step body, s', h => by
    cases s' with
    | numericFor var' start' stop' step' body' =>
      simp only [Stat.beq, Bool.and_eq_true, beq_iff_eq] at h
      obtain ⟨⟨⟨⟨hvar, hstart⟩, hstop⟩, hstep⟩, hbody⟩ := h
      have hstart := Exp.annotate_of_beq start start' hstart
      have hstop := Exp.annotate_of_beq stop stop' hstop
      have hbody := Stat.annotateAll_of_beqAll body body' hbody
      match step, step', hstep with
      | none, none, _ => rw [Stat.annotate, Stat.annotate, hvar, hstart, hstop, hbody]
      | some step, some step', hstep =>
        rw [Exp.beq?] at hstep
        rw [Stat.annotate, Stat.annotate, hvar, hstart, hstop, Exp.annotate_of_beq step step' hstep, hbody]
      | none, some _, hstep | some _, none, hstep => simp [Exp.beq?] at hstep
    | _ => simp [Stat.beq] at h
  | .genericFor names values body, s', h => by
    cases s' with
    | genericFor names' values' body' =>
      simp only [Stat.beq, Bool.and_eq_true, beq_iff_eq] at h
      obtain ⟨⟨hnames, hvalues⟩, hbody⟩ := h
      rw [Stat.annotate, Stat.annotate, hnames, Exp.annotateAll_of_beqAll values values' hvalues,
        Stat.annotateAll_of_beqAll body body' hbody]
    | _ => simp [Stat.beq] at h
  | .call c, s', h => by
    cases s' with
    | call c' =>
      simp only [Stat.beq] at h
      rw [Stat.annotate, Stat.annotate, Call.annotate_of_beq c c' h]
    | _ => simp [Stat.beq] at h
  | .ret values, s', h => by
    cases s' with
    | ret values' =>
      simp only [Stat.beq] at h
      rw [Stat.annotate, Stat.annotate, Exp.annotateAll_of_beqAll values values' h]
    | _ => simp [Stat.beq] at h
  | .localVars names values, s', h => by
    cases s' with
    | localVars names' values' =>
      simp only [Stat.beq, Bool.and_eq_true, beq_iff_eq] at h
      obtain ⟨hnames, hvalues⟩ := h
      match values, values', hvalues with
      | none, none, _ => rw [Stat.annotate, Stat.annotate, hnames]
      | some values, some values', hvalues =>
        rw [Exp.beqAll?] at hvalues
        rw [Stat.annotate, Stat.annotate, hnames, Exp.annotateAll_of_beqAll values values' hvalues]
      | none, some _, hvalues | some _, none, hvalues => simp [Exp.beqAll?] at hvalues
    | _ => simp [Stat.beq] at h
  | .assign targets values, s', h => by
    cases s' with
    | assign targets' values' =>
      simp only [Stat.beq, Bool.and_eq_true] at h
      rw [Stat.annotate, Stat.annotate, Var.annotateAll_of_beqAll targets targets' h.1,
        Exp.annotateAll_of_beqAll values values' h.2]
    | _ => simp [Stat.beq] at h
  | .block body, s', h => by
    cases s' with
    | block body' =>
      simp only [Stat.beq] at h
      rw [Stat.annotate, Stat.annotate, Stat.annotateAll_of_beqAll body body' h]
    | _ => simp [Stat.beq] at h
  | .repeatUntil body condition, s', h => by
    cases s' with
    | repeatUntil body' condition' =>
      simp only [Stat.beq, Bool.and_eq_true] at h
      rw [Stat.annotate, Stat.annotate, Stat.annotateAll_of_beqAll body body' h.1,
        Exp.annotate_of_beq condition condition' h.2]
    | _ => simp [Stat.beq] at h
  | .whileDo condition body, s', h => by
    cases s' with
    | whileDo condition' body' =>
      simp only [Stat.beq, Bool.and_eq_true] at h
      rw [Stat.annotate, Stat.annotate, Exp.annotate_of_beq condition condition' h.1,
        Stat.annotateAll_of_beqAll body body' h.2]
    | _ => simp [Stat.beq] at h
  | .breakLoop, s', h => by
    cases s' with
    | breakLoop => rfl
    | _ => simp [Stat.beq] at h
termination_by structural s => s

theorem ElseIf.annotate_of_beq : ∀ c c' : ElseIf, c.beq c' = true →
    c.annotate (fun _ => number) spelling = c'.annotate (fun _ => number) spelling
  | .mk condition body, .mk condition' body', h => by
    simp only [ElseIf.beq, Bool.and_eq_true] at h
    rw [ElseIf.annotate, ElseIf.annotate, Exp.annotate_of_beq condition condition' h.1,
      Stat.annotateAll_of_beqAll body body' h.2]
termination_by structural c => c

theorem FuncBody.annotate_of_beq : ∀ b b' : FuncBody, b.beq b' = true →
    b.annotate (fun _ => number) spelling = b'.annotate (fun _ => number) spelling
  | .mk params body, .mk params' body', h => by
    simp only [FuncBody.beq, Bool.and_eq_true, beq_iff_eq] at h
    rw [FuncBody.annotate, FuncBody.annotate, h.1, Stat.annotateAll_of_beqAll body body' h.2]
termination_by structural b => b

theorem Exp.annotate_of_beq : ∀ e e' : Exp, e.beq e' = true →
    e.annotate (fun _ => number) spelling = e'.annotate (fun _ => number) spelling
  | .nil, e', h => by
    cases e' with
    | nil => rfl
    | _ => simp [Exp.beq] at h
  | .bool value, e', h => by
    cases e' with
    | bool value' =>
      simp only [Exp.beq, beq_iff_eq] at h
      rw [Exp.annotate, Exp.annotate, h]
    | _ => simp [Exp.beq] at h
  | .vararg, e', h => by
    cases e' with
    | vararg => rfl
    | _ => simp [Exp.beq] at h
  | .number lit, e', h => by
    cases e' with
    | number lit' =>
      simp only [Exp.beq] at h
      rw [Exp.annotate, Exp.annotate, NumberLit.annotate_of_beq h]
    | _ => simp [Exp.beq] at h
  | .string lit, e', h => by
    cases e' with
    | string lit' =>
      simp only [Exp.beq, beq_iff_eq] at h
      rw [Exp.annotate, Exp.annotate, h]
    | _ => simp [Exp.beq] at h
  | .unary op operand, e', h => by
    cases e' with
    | unary op' operand' =>
      simp only [Exp.beq, Bool.and_eq_true, beq_iff_eq] at h
      rw [Exp.annotate, Exp.annotate, h.1, Exp.annotate_of_beq operand operand' h.2]
    | _ => simp [Exp.beq] at h
  | .binary left op right, e', h => by
    cases e' with
    | binary left' op' right' =>
      simp only [Exp.beq, Bool.and_eq_true, beq_iff_eq] at h
      obtain ⟨⟨hleft, hop⟩, hright⟩ := h
      rw [Exp.annotate, Exp.annotate, Exp.annotate_of_beq left left' hleft, hop,
        Exp.annotate_of_beq right right' hright]
    | _ => simp [Exp.beq] at h
  | .function body, e', h => by
    cases e' with
    | function body' =>
      simp only [Exp.beq] at h
      rw [Exp.annotate, Exp.annotate, FuncBody.annotate_of_beq body body' h]
    | _ => simp [Exp.beq] at h
  | .paren inner, e', h => by
    cases e' with
    | paren inner' =>
      simp only [Exp.beq] at h
      rw [Exp.annotate, Exp.annotate, Exp.annotate_of_beq inner inner' h]
    | _ => simp [Exp.beq] at h
  | .table fields, e', h => by
    cases e' with
    | table fields' =>
      simp only [Exp.beq] at h
      rw [Exp.annotate, Exp.annotate, Field.annotateAll_of_beqAll fields fields' h]
    | _ => simp [Exp.beq] at h
  | .prefixed inner, e', h => by
    cases e' with
    | prefixed inner' =>
      simp only [Exp.beq] at h
      rw [Exp.annotate, Exp.annotate, PrefixExp.annotate_of_beq inner inner' h]
    | _ => simp [Exp.beq] at h
termination_by structural e => e

theorem PrefixExp.annotate_of_beq : ∀ e e' : PrefixExp, e.beq e' = true →
    e.annotate (fun _ => number) spelling = e'.annotate (fun _ => number) spelling
  | .var v, e', h => by
    cases e' with
    | var v' =>
      simp only [PrefixExp.beq] at h
      rw [PrefixExp.annotate, PrefixExp.annotate, Var.annotate_of_beq v v' h]
    | _ => simp [PrefixExp.beq] at h
  | .call c, e', h => by
    cases e' with
    | call c' =>
      simp only [PrefixExp.beq] at h
      rw [PrefixExp.annotate, PrefixExp.annotate, Call.annotate_of_beq c c' h]
    | _ => simp [PrefixExp.beq] at h
  | .paren inner, e', h => by
    cases e' with
    | paren inner' =>
      simp only [PrefixExp.beq] at h
      rw [PrefixExp.annotate, PrefixExp.annotate, Exp.annotate_of_beq inner inner' h]
    | _ => simp [PrefixExp.beq] at h
termination_by structural e => e

theorem Var.annotate_of_beq : ∀ v v' : Var, v.beq v' = true →
    v.annotate (fun _ => number) spelling = v'.annotate (fun _ => number) spelling
  | .name n, v', h => by
    cases v' with
    | name n' =>
      simp only [Var.beq, beq_iff_eq] at h
      rw [Var.annotate, Var.annotate, h]
    | _ => simp [Var.beq] at h
  | .index base key, v', h => by
    cases v' with
    | index base' key' =>
      simp only [Var.beq, Bool.and_eq_true] at h
      rw [Var.annotate, Var.annotate, PrefixExp.annotate_of_beq base base' h.1,
        Exp.annotate_of_beq key key' h.2]
    | _ => simp [Var.beq] at h
  | .member base n, v', h => by
    cases v' with
    | member base' n' =>
      simp only [Var.beq, Bool.and_eq_true, beq_iff_eq] at h
      rw [Var.annotate, Var.annotate, PrefixExp.annotate_of_beq base base' h.1, h.2]
    | _ => simp [Var.beq] at h
termination_by structural v => v

theorem Call.annotate_of_beq : ∀ c c' : Call, c.beq c' = true →
    c.annotate (fun _ => number) spelling = c'.annotate (fun _ => number) spelling
  | .normal callee args, c', h => by
    cases c' with
    | normal callee' args' =>
      simp only [Call.beq, Bool.and_eq_true] at h
      rw [Call.annotate, Call.annotate, PrefixExp.annotate_of_beq callee callee' h.1,
        Args.annotate_of_beq args args' h.2]
    | _ => simp [Call.beq] at h
  | .method object name args, c', h => by
    cases c' with
    | method object' name' args' =>
      simp only [Call.beq, Bool.and_eq_true, beq_iff_eq] at h
      obtain ⟨⟨hobject, hname⟩, hargs⟩ := h
      rw [Call.annotate, Call.annotate, PrefixExp.annotate_of_beq object object' hobject, hname,
        Args.annotate_of_beq args args' hargs]
    | _ => simp [Call.beq] at h
termination_by structural c => c

theorem Args.annotate_of_beq : ∀ a a' : Args, a.beq a' = true →
    a.annotate (fun _ => number) spelling = a'.annotate (fun _ => number) spelling
  | .list values, a', h => by
    cases a' with
    | list values' =>
      simp only [Args.beq] at h
      rw [Args.annotate, Args.annotate, Exp.annotateAll_of_beqAll values values' h]
    | _ => simp [Args.beq] at h
  | .table fields, a', h => by
    cases a' with
    | table fields' =>
      simp only [Args.beq] at h
      rw [Args.annotate, Args.annotate, Field.annotateAll_of_beqAll fields fields' h]
    | _ => simp [Args.beq] at h
  | .string lit, a', h => by
    cases a' with
    | string lit' =>
      simp only [Args.beq, beq_iff_eq] at h
      rw [Args.annotate, Args.annotate, h]
    | _ => simp [Args.beq] at h
termination_by structural a => a

theorem Field.annotate_of_beq : ∀ f f' : Field, f.beq f' = true →
    f.annotate (fun _ => number) spelling = f'.annotate (fun _ => number) spelling
  | .positional value, f', h => by
    cases f' with
    | positional value' =>
      simp only [Field.beq] at h
      rw [Field.annotate, Field.annotate, Exp.annotate_of_beq value value' h]
    | _ => simp [Field.beq] at h
  | .named name value, f', h => by
    cases f' with
    | named name' value' =>
      simp only [Field.beq, Bool.and_eq_true, beq_iff_eq] at h
      rw [Field.annotate, Field.annotate, h.1, Exp.annotate_of_beq value value' h.2]
    | _ => simp [Field.beq] at h
  | .keyed key value, f', h => by
    cases f' with
    | keyed key' value' =>
      simp only [Field.beq, Bool.and_eq_true] at h
      rw [Field.annotate, Field.annotate, Exp.annotate_of_beq key key' h.1,
        Exp.annotate_of_beq value value' h.2]
    | _ => simp [Field.beq] at h
termination_by structural f => f

theorem Stat.annotateAll_of_beqAll : ∀ body body' : List Stat, Stat.beqAll body body' = true →
    Stat.annotateAll (fun _ => number) spelling body = Stat.annotateAll (fun _ => number) spelling body'
  | [], [], _ => rfl
  | stat :: rest, stat' :: rest', h => by
    simp only [Stat.beqAll, Bool.and_eq_true] at h
    rw [Stat.annotateAll, Stat.annotateAll, Stat.annotate_of_beq stat stat' h.1,
      Stat.annotateAll_of_beqAll rest rest' h.2]
  | [], _ :: _, h | _ :: _, [], h => by simp [Stat.beqAll] at h
termination_by structural body => body

theorem ElseIf.annotateAll_of_beqAll : ∀ clauses clauses' : List ElseIf,
    ElseIf.beqAll clauses clauses' = true →
    ElseIf.annotateAll (fun _ => number) spelling clauses =
      ElseIf.annotateAll (fun _ => number) spelling clauses'
  | [], [], _ => rfl
  | clause :: rest, clause' :: rest', h => by
    simp only [ElseIf.beqAll, Bool.and_eq_true] at h
    rw [ElseIf.annotateAll, ElseIf.annotateAll, ElseIf.annotate_of_beq clause clause' h.1,
      ElseIf.annotateAll_of_beqAll rest rest' h.2]
  | [], _ :: _, h | _ :: _, [], h => by simp [ElseIf.beqAll] at h
termination_by structural clauses => clauses

theorem Exp.annotateAll_of_beqAll : ∀ exps exps' : List Exp, Exp.beqAll exps exps' = true →
    Exp.annotateAll (fun _ => number) spelling exps = Exp.annotateAll (fun _ => number) spelling exps'
  | [], [], _ => rfl
  | exp :: rest, exp' :: rest', h => by
    simp only [Exp.beqAll, Bool.and_eq_true] at h
    rw [Exp.annotateAll, Exp.annotateAll, Exp.annotate_of_beq exp exp' h.1,
      Exp.annotateAll_of_beqAll rest rest' h.2]
  | [], _ :: _, h | _ :: _, [], h => by simp [Exp.beqAll] at h
termination_by structural exps => exps

theorem Var.annotateAll_of_beqAll : ∀ vars vars' : List Var, Var.beqAll vars vars' = true →
    Var.annotateAll (fun _ => number) spelling vars = Var.annotateAll (fun _ => number) spelling vars'
  | [], [], _ => rfl
  | var :: rest, var' :: rest', h => by
    simp only [Var.beqAll, Bool.and_eq_true] at h
    rw [Var.annotateAll, Var.annotateAll, Var.annotate_of_beq var var' h.1,
      Var.annotateAll_of_beqAll rest rest' h.2]
  | [], _ :: _, h | _ :: _, [], h => by simp [Var.beqAll] at h
termination_by structural vars => vars

theorem Field.annotateAll_of_beqAll : ∀ fields fields' : List Field,
    Field.beqAll fields fields' = true →
    Field.annotateAll (fun _ => number) spelling fields =
      Field.annotateAll (fun _ => number) spelling fields'
  | [], [], _ => rfl
  | field :: rest, field' :: rest', h => by
    simp only [Field.beqAll, Bool.and_eq_true] at h
    rw [Field.annotateAll, Field.annotateAll, Field.annotate_of_beq field field' h.1,
      Field.annotateAll_of_beqAll rest rest' h.2]
  | [], _ :: _, h | _ :: _, [], h => by simp [Field.beqAll] at h
termination_by structural fields => fields

end

/-- **Equal nodes are the same node once their numbers are the same.** -/
theorem Node.annotate_of_beq {n n' : Node} (h : (n == n') = true) :
    n.annotate (fun _ => number) spelling = n'.annotate (fun _ => number) spelling := by
  change n.beq n' = true at h
  cases n with
  | chunk b =>
    cases n' with
    | chunk b' => exact congrArg Node.chunk (Stat.annotateAll_of_beqAll b b' h)
    | _ => exact absurd h Bool.false_ne_true
  | stat s =>
    cases n' with
    | stat s' => exact congrArg Node.stat (Stat.annotate_of_beq s s' h)
    | _ => exact absurd h Bool.false_ne_true
  | elseIf c =>
    cases n' with
    | elseIf c' => exact congrArg Node.elseIf (ElseIf.annotate_of_beq c c' h)
    | _ => exact absurd h Bool.false_ne_true
  | funcBody b =>
    cases n' with
    | funcBody b' => exact congrArg Node.funcBody (FuncBody.annotate_of_beq b b' h)
    | _ => exact absurd h Bool.false_ne_true
  | funcName f =>
    cases n' with
    | funcName f' => exact congrArg Node.funcName (eq_of_beq h)
    | _ => exact absurd h Bool.false_ne_true
  | parList p =>
    cases n' with
    | parList p' => exact congrArg Node.parList (eq_of_beq h)
    | _ => exact absurd h Bool.false_ne_true
  | exp e =>
    cases n' with
    | exp e' => exact congrArg Node.exp (Exp.annotate_of_beq e e' h)
    | _ => exact absurd h Bool.false_ne_true
  | prefixExp e =>
    cases n' with
    | prefixExp e' => exact congrArg Node.prefixExp (PrefixExp.annotate_of_beq e e' h)
    | _ => exact absurd h Bool.false_ne_true
  | var v =>
    cases n' with
    | var v' => exact congrArg Node.var (Var.annotate_of_beq v v' h)
    | _ => exact absurd h Bool.false_ne_true
  | call c =>
    cases n' with
    | call c' => exact congrArg Node.call (Call.annotate_of_beq c c' h)
    | _ => exact absurd h Bool.false_ne_true
  | args a =>
    cases n' with
    | args a' => exact congrArg Node.args (Args.annotate_of_beq a a' h)
    | _ => exact absurd h Bool.false_ne_true
  | field f =>
    cases n' with
    | field f' => exact congrArg Node.field (Field.annotate_of_beq f f' h)
    | _ => exact absurd h Bool.false_ne_true
  | table fs =>
    cases n' with
    | table fs' => exact congrArg Node.table (Field.annotateAll_of_beqAll fs fs' h)
    | _ => exact absurd h Bool.false_ne_true
  | nameList ns =>
    cases n' with
    | nameList ns' => exact congrArg Node.nameList (eq_of_beq h)
    | _ => exact absurd h Bool.false_ne_true
  | expList es =>
    cases n' with
    | expList es' => exact congrArg Node.expList (Exp.annotateAll_of_beqAll es es' h)
    | _ => exact absurd h Bool.false_ne_true
  | varList vs =>
    cases n' with
    | varList vs' => exact congrArg Node.varList (Var.annotateAll_of_beqAll vs vs' h)
    | _ => exact absurd h Bool.false_ne_true
  | name n =>
    cases n' with
    | name n' => exact congrArg Node.name (eq_of_beq h)
    | _ => exact absurd h Bool.false_ne_true

end

/-! ## Runs -/

/-- Trees that differ in annotations only give the same events. -/
theorem events_of_bare_eq {a b : Node} (h : a.bare = b.bare) (style : Style) :
    Unparser.events ⟨a, style⟩ = Unparser.events ⟨b, style⟩ := by
  have hlayout : a.rootLayout = b.rootLayout := by
    rw [← rootLayout_erase a, erase_eq_of_bare_eq h, rootLayout_erase b]
  rw [Unparser.events, Unparser.events, drain_events_root, drain_events_root, hlayout]

/-- **A run tells nothing about the annotations of its tree.** Two trees that are the same but for the numbers
meant by their number literals and the spellings that their string literals are known by give the same events
in every style: the same texts, and the same outcome at the same place. So do two trees that are equal. -/
theorem events_ignore_annotations :
    (∀ a b : Node, a.bare = b.bare →
      ∀ style, Unparser.events ⟨a, style⟩ = Unparser.events ⟨b, style⟩) ∧
    (∀ a b : Node, (a == b) = true →
      ∀ style, Unparser.events ⟨a, style⟩ = Unparser.events ⟨b, style⟩) := by
  constructor
  · intro a b hbare style
    exact events_of_bare_eq hbare style
  · intro a b hequal style
    have hbare : a.bare = b.bare := Node.annotate_of_beq hequal
    exact events_of_bare_eq hbare style

/-- A chunk with a number behind a minus sign and a string as arguments, and then a name that is none. -/
def annotatedChunk (number : Float) (spelling : String) : Node :=
  .chunk [.localVars ["x"] (some [.unary .negate (.number ⟨"-1", number⟩)]),
    .call (.normal (.var (.name "f")) (.string ⟨"s", spelling⟩)), .ret [.ofName "end"]]

/-- NaN in the place of 1 makes another tree, -0 in the place of 0 makes none, and no run tells of either. -/
theorem events_ignore_annotations_nan :
    ((annotatedChunk (0.0 / 0.0) "'s'" == annotatedChunk 1.0 "s") = false ∧
      (annotatedChunk (0.0 / 0.0) "'s'").bare = (annotatedChunk 1.0 "s").bare ∧
      ∀ style, Unparser.events ⟨annotatedChunk (0.0 / 0.0) "'s'", style⟩ =
        Unparser.events ⟨annotatedChunk 1.0 "s", style⟩) ∧
    ((annotatedChunk 0.0 "s" == annotatedChunk (-0.0) "s") = true ∧
      ∀ style, Unparser.events ⟨annotatedChunk 0.0 "s", style⟩ =
        Unparser.events ⟨annotatedChunk (-0.0) "s", style⟩) := by
  have hbare : (annotatedChunk (0.0 / 0.0) "'s'").bare = (annotatedChunk 1.0 "s").bare := rfl
  have hequal : (annotatedChunk 0.0 "s" == annotatedChunk (-0.0) "s") = true := by decide +kernel
  exact ⟨⟨by decide +kernel, hbare, events_ignore_annotations.1 _ _ hbare⟩,
    hequal, events_ignore_annotations.2 _ _ hequal⟩

end LuaUnparse
