import LuaUnparse.Rule.Shape

/-!
# `LuaUnparse.Proofs.Subnode` — the nodes of a tree

The parts of a node that are nodes in their turn are its children, and the nodes of a tree are its root
and the nodes of its children. The children are listed here construct by construct, in the order of the
source; the nodes that a shape leaves to be laid out are exactly they.

## Contents
- **Children.** `Node.children`, each smaller than its parent (`size_lt_of_mem_children`), and induction
  over them, `Node.inductionOn`.
- **Nodes of a tree.** `Node.preorder`, a node before its children and they from left to right.
- **Nodes of a shape.** `nodesIn_shape`: the nodes in a shape are the children.
-/

namespace LuaUnparse

/-! ## Children -/

/-- The list of expressions after a lead is a node only if there are any. -/
def valuesChildren (values : List Exp) : List Node :=
  if values.isEmpty then [] else [.expList values]

/-- The children of a statement. -/
def Stat.children : Stat → List Node
  | .function name body => [.funcName name, .funcBody body]
  | .localFunction _ body => [.funcBody body]
  | .ifThen condition body elseIfs elseBody =>
    .exp condition :: .chunk body :: elseIfs.map .elseIf ++ elseBody.toList.map .chunk
  | .numericFor _ start stop step body =>
    .exp start :: .exp stop :: step.toList.map .exp ++ [.chunk body]
  | .genericFor names values body => [.nameList names, .expList values, .chunk body]
  | .call c => [.call c]
  | .ret values => valuesChildren values
  | .localVars names values => .nameList names :: valuesChildren (values.getD [])
  | .assign targets values => [.varList targets, .expList values]
  | .block body => [.chunk body]
  | .repeatUntil body condition => [.chunk body, .exp condition]
  | .whileDo condition body => [.exp condition, .chunk body]
  | .breakLoop => []

/-- The children of an expression. -/
def Exp.children : Exp → List Node
  | .nil | .bool _ | .vararg | .number _ | .string _ => []
  | .unary _ operand => [.exp operand]
  | .binary left _ right => [.exp left, .exp right]
  | .function body => [.funcBody body]
  | .paren inner => [.exp inner]
  | .table fields => fields.map .field
  | .prefixed inner => [.prefixExp inner]

namespace Node

/-- The parts of a node that are nodes, in the order of the source. -/
def children : Node → List Node
  | .chunk body => body.map .stat
  | .stat s => s.children
  | .elseIf (.mk condition body) => [.exp condition, .chunk body]
  | .funcBody (.mk params body) => [.parList params, .chunk body]
  | .exp e => e.children
  | .prefixExp (.var v) => [.var v]
  | .prefixExp (.call c) => [.call c]
  | .prefixExp (.paren inner) => [.exp inner]
  | .var (.name _) => []
  | .var (.index base key) => [.prefixExp base, .exp key]
  | .var (.member base _) => [.prefixExp base]
  | .call (.normal callee as) => [.prefixExp callee, .args as]
  | .call (.method object _ as) => [.prefixExp object, .args as]
  | .args (.list values) => [.expList values]
  | .args (.table fields) => fields.map .field
  | .args (.string _) => []
  | .field (.positional value) => [.exp value]
  | .field (.named _ value) => [.exp value]
  | .field (.keyed key value) => [.exp key, .exp value]
  | .table fields => fields.map .field
  | .expList es => es.map .exp
  | .varList vs => vs.map .var
  | .funcName _ | .parList _ | .nameList _ | .name _ => []

end Node

/-- A member is smaller than its list, if the size of the list is that of its members and more. -/
theorem size_lt_of_mem {Part : Type} {size : Part → Nat} {sizeAll : List Part → Nat}
    (hcons : ∀ a as, sizeAll (a :: as) = 1 + size a + sizeAll as) {a : Part} {parts : List Part}
    (h : a ∈ parts) : size a < sizeAll parts := by
  induction parts with
  | nil => simp at h
  | cons b rest ih =>
    rw [hcons]
    rcases List.mem_cons.mp h with rfl | h
    · omega
    · have := ih h
      omega

theorem size_lt_of_mem_stats {s : Stat} {body : Chunk} (h : s ∈ body) :
    s.size < Stat.sizeAll body :=
  size_lt_of_mem (fun _ _ => rfl) h

theorem size_lt_of_mem_elseIfs {c : ElseIf} {clauses : List ElseIf} (h : c ∈ clauses) :
    c.size < ElseIf.sizeAll clauses :=
  size_lt_of_mem (fun _ _ => rfl) h

theorem size_lt_of_mem_exps {e : Exp} {exps : List Exp} (h : e ∈ exps) :
    e.size < Exp.sizeAll exps :=
  size_lt_of_mem (fun _ _ => rfl) h

theorem size_lt_of_mem_vars {v : Var} {vars : List Var} (h : v ∈ vars) :
    v.size < Var.sizeAll vars :=
  size_lt_of_mem (fun _ _ => rfl) h

theorem size_lt_of_mem_fields {f : Field} {fields : List Field} (h : f ∈ fields) :
    f.size < Field.sizeAll fields :=
  size_lt_of_mem (fun _ _ => rfl) h

theorem Stat.size_lt_of_mem_children {s : Stat} {m : Node} (h : m ∈ s.children) :
    m.size < s.size := by
  cases s with
  | ifThen condition body elseIfs elseBody =>
    have hc : ∀ c ∈ elseIfs, c.size < ElseIf.sizeAll elseIfs := fun c => size_lt_of_mem_elseIfs
    cases elseBody <;> simp [children] at h <;>
      rcases h with rfl | rfl | h <;> grind [Node.size, Stat.size]
  | numericFor var start stop step body =>
    cases step <;> simp [children] at h <;> grind [Node.size, Stat.size]
  | ret values => grind [children, valuesChildren, Node.size, Stat.size]
  | localVars names values =>
    cases values <;> grind [children, valuesChildren, Node.size, Stat.size]
  | _ => simp [children] at h <;> grind [Node.size, Stat.size]

theorem Exp.size_lt_of_mem_children {e : Exp} {m : Node} (h : m ∈ e.children) :
    m.size < e.size := by
  cases e with
  | table fields =>
    obtain ⟨f, hf, rfl⟩ := List.mem_map.mp h
    have := size_lt_of_mem_fields hf
    simp only [Node.size, size]
    omega
  | _ => simp [children] at h <;> grind [Node.size, size]

/-- A child is smaller than its parent. -/
theorem size_lt_of_mem_children {n m : Node} (h : m ∈ n.children) : m.size < n.size := by
  cases n with
  | chunk body =>
    obtain ⟨s, hs, rfl⟩ := List.mem_map.mp h
    exact size_lt_of_mem_stats hs
  | stat s => exact Stat.size_lt_of_mem_children h
  | elseIf c =>
    cases c
    simp [Node.children] at h
    grind [Node.size, ElseIf.size]
  | funcBody b =>
    cases b
    simp [Node.children] at h
    grind [Node.size, FuncBody.size]
  | exp e => exact Exp.size_lt_of_mem_children h
  | prefixExp e => cases e <;> simp [Node.children] at h <;> grind [Node.size, PrefixExp.size]
  | var v => cases v <;> simp [Node.children] at h <;> grind [Node.size, Var.size]
  | call c => cases c <;> simp [Node.children] at h <;> grind [Node.size, Call.size]
  | args a =>
    cases a with
    | table fields =>
      obtain ⟨f, hf, rfl⟩ := List.mem_map.mp h
      have := size_lt_of_mem_fields hf
      simp only [Node.size, Args.size]
      omega
    | _ => simp [Node.children] at h <;> grind [Node.size, Args.size]
  | field f => cases f <;> simp [Node.children] at h <;> grind [Node.size, Field.size]
  | table fields =>
    obtain ⟨f, hf, rfl⟩ := List.mem_map.mp h
    exact size_lt_of_mem_fields hf
  | expList es =>
    obtain ⟨e, he, rfl⟩ := List.mem_map.mp h
    exact size_lt_of_mem_exps he
  | varList vs =>
    obtain ⟨v, hv, rfl⟩ := List.mem_map.mp h
    exact size_lt_of_mem_vars hv
  | _ => simp [Node.children] at h

namespace Node

/-- **Induction over a tree of any category**: what holds of a node whenever it holds of its children holds
of every node. -/
@[elab_as_elim]
theorem inductionOn {motive : Node → Prop} (n : Node)
    (h : ∀ n, (∀ m ∈ n.children, motive m) → motive n) : motive n := by
  induction hs : n.size using Nat.strongRecOn generalizing n with
  | _ size ih =>
    subst hs
    exact h n fun m hm => ih m.size (size_lt_of_mem_children hm) m rfl

/-! ## Nodes of a tree -/

/-- The nodes of a tree: its root, and then the nodes of its children from left to right. -/
def preorder (n : Node) : List Node :=
  n :: n.children.attach.flatMap fun ⟨m, hm⟩ =>
    have := size_lt_of_mem_children hm
    m.preorder
termination_by n.size

theorem preorder_eq (n : Node) : n.preorder = n :: n.children.flatMap preorder := by
  rw [preorder, List.flatMap_subtype (g := preorder) (fun _ _ => rfl), List.unattach_attach]

theorem self_mem_preorder (n : Node) : n ∈ n.preorder := by
  rw [preorder_eq]
  exact List.mem_cons_self

/-- The nodes of a child are nodes of the tree. -/
theorem mem_preorder_of_child {n m k : Node} (hm : m ∈ n.children) (hk : k ∈ m.preorder) :
    k ∈ n.preorder := by
  rw [preorder_eq]
  exact List.mem_cons_of_mem n (List.mem_flatMap.mpr ⟨m, hm, hk⟩)

/-- The other way round, a node of a tree is its root or a node of a child. -/
theorem eq_or_mem_of_mem_preorder {n k : Node} (h : k ∈ n.preorder) :
    k = n ∨ ∃ m ∈ n.children, k ∈ m.preorder := by
  rw [preorder_eq] at h
  exact (List.mem_cons.mp h).imp id List.mem_flatMap.mp

end Node

/-! ## Nodes of a shape -/

/-- The nodes that pieces leave to be laid out. -/
def nodesIn : List Piece → List Node
  | [] => []
  | .node n :: rest => n :: nodesIn rest
  | .text _ :: rest => nodesIn rest
  | .lineBreak :: rest => nodesIn rest
  | .indent :: rest => nodesIn rest
  | .dedent :: rest => nodesIn rest

@[simp] theorem nodesIn_append (ps qs : List Piece) : nodesIn (ps ++ qs) = nodesIn ps ++ nodesIn qs := by
  induction ps with
  | nil => rfl
  | cons p ps ih => cases p <;> simp [nodesIn, ih]

@[simp] theorem nodesIn_flatMap {Part : Type} (f : Part → List Piece) (parts : List Part) :
    nodesIn (parts.flatMap f) = parts.flatMap fun part => nodesIn (f part) := by
  induction parts with
  | nil => rfl
  | cons part rest ih => rw [List.flatMap_cons, List.flatMap_cons, nodesIn_append, ih]

@[simp] theorem nodesIn_separated (ps : List Piece) : nodesIn (separated ps) = nodesIn ps := by
  unfold separated
  induction ps with
  | nil => rfl
  | cons p ps ih =>
    cases ps with
    | nil => rfl
    | cons q qs => cases p <;> simp_all [nodesIn]

@[simp] theorem nodesIn_texts (names : List Name) : nodesIn (names.map .text) = [] := by
  induction names with
  | nil => rfl
  | cons n ns ih => exact ih

@[simp] theorem nodesIn_nodes {Part : Type} (f : Part → Node) (parts : List Part) :
    nodesIn (parts.map fun part => .node (f part)) = parts.map f := by
  induction parts with
  | nil => rfl
  | cons part rest ih => rw [List.map_cons, List.map_cons, nodesIn, ih]

theorem nodesIn_valuesAfter (lead : String) (values : List Exp) :
    nodesIn (valuesAfter lead values) = valuesChildren values := by
  unfold valuesAfter valuesChildren
  split <;> rfl

theorem nodesIn_tableShape (fields : List Field) :
    nodesIn (tableShape fields) = fields.map .field := by
  unfold tableShape
  split
  · next h => rw [List.isEmpty_iff.mp h]; rfl
  · simp [nodesIn, List.map_eq_flatMap]

theorem nodesIn_stat (s : Stat) : nodesIn s.shape = s.children := by
  cases s with
  | ret values => exact nodesIn_valuesAfter " " values
  | localVars names values =>
    simp [Stat.shape, Stat.children, nodesIn, nodesIn_valuesAfter]
  | _ => simp [Stat.shape, Stat.children, nodesIn, Name.shape, bodyAndEnd, List.map_eq_flatMap]

theorem nodesIn_exp (e : Exp) : nodesIn e.shape = e.children := by
  cases e with
  | bool value => cases value <;> rfl
  | unary op operand =>
    simp only [Exp.shape, Exp.children, unaryGap]
    split <;> rfl
  | table fields => exact nodesIn_tableShape fields
  | _ => rfl

/-- **The nodes that a shape leaves to be laid out are the children**, in their order. -/
theorem nodesIn_shape (n : Node) : nodesIn n.shape = n.children := by
  cases n with
  | chunk body => simp [Node.shape, Chunk.shape, Chunk.lines, Node.children, nodesIn, List.map_eq_flatMap]
  | stat s => exact nodesIn_stat s
  | elseIf c => cases c; rfl
  | funcBody b => cases b; rfl
  | exp e => exact nodesIn_exp e
  | prefixExp e => cases e <;> rfl
  | var v => cases v <;> rfl
  | call c => cases c <;> rfl
  | args a =>
    cases a with
    | table fields => exact nodesIn_tableShape fields
    | _ => rfl
  | field f => cases f <;> rfl
  | table fields => exact nodesIn_tableShape fields
  | nameList names => simp [Node.shape, namesShape, Node.children]
  | expList es => simp [Node.shape, expsShape, Node.children]
  | varList vs => simp [Node.shape, varsShape, Node.children]
  | funcName f => simp [Node.shape, FuncName.shape, Node.children, nodesIn]
  | parList p =>
    simp only [Node.shape, ParList.shape, Node.children]
    split <;> simp [nodesIn, namesShape]
  | name _ => rfl

end LuaUnparse
