import LuaUnparse.Proofs.Frame
import Mathlib

/-!
# `LuaUnparse.Proofs.Equivalence` — equality of trees is an equivalence, but for NaN

Two nodes are equal if they have one frame, equal numbers, and children that are equal one by one. So the
laws of equality are those of the equality of doubles, carried up the tree by induction: it is symmetric and
transitive, and a tree is equal to itself unless one of its literals is a NaN.

## Contents
- **Children.** `EqualNodes`, nodes that are equal one by one.
- **Nodes.** `Node.beq_iff`: nodes are equal if their frames, their numbers and their children are.
- **Laws.** `Node.beq_symm`, `Node.beq_trans` and `Node.beq_self_iff`; together,
  **`equality_fails_on_nan_only`**.
-/

namespace LuaUnparse

/-! ## Children -/

/-- Nodes that are equal one by one, and as many. -/
def EqualNodes (ms ms' : List Node) : Prop :=
  List.Forall₂ (Node.beq · ·) ms ms'

@[simp] theorem equalNodes_nil : EqualNodes [] [] := .nil

@[simp] theorem equalNodes_cons {m m' : Node} {ms ms' : List Node} :
    EqualNodes (m :: ms) (m' :: ms') ↔ m.beq m' = true ∧ EqualNodes ms ms' :=
  List.forall₂_cons

theorem equalNodes_append {ms ms' : List Node} (h : ms.length = ms'.length) (ns ns' : List Node) :
    EqualNodes (ms ++ ns) (ms' ++ ns') ↔ EqualNodes ms ms' ∧ EqualNodes ns ns' := by
  induction ms generalizing ms' with
  | nil =>
    obtain rfl := List.eq_nil_of_length_eq_zero h.symm
    simp
  | cons m ms ih =>
    obtain ⟨m', ms', rfl⟩ := List.exists_cons_of_length_eq_add_one h.symm
    simp [ih (Nat.succ.inj h), and_assoc]

/-- Lists that are compared member by member are equal if they are as long as each other and their members
are equal nodes. -/
theorem beqAll_iff_parts {Part : Type} {beqAll : List Part → List Part → Bool} (node : Part → Node)
    (blank : Part) (hnil : beqAll [] [] = true)
    (hcons : ∀ a as b bs, beqAll (a :: as) (b :: bs) = ((node a).beq (node b) && beqAll as bs))
    (hleft : ∀ a as, beqAll (a :: as) [] = false) (hright : ∀ b bs, beqAll [] (b :: bs) = false)
    (as bs : List Part) : beqAll as bs = true ↔
      (as.map fun _ => blank) = (bs.map fun _ => blank) ∧ EqualNodes (as.map node) (bs.map node) := by
  induction as generalizing bs with
  | nil =>
    cases bs with
    | nil => simp [hnil]
    | cons b bs => simp [hright]
  | cons a as ih =>
    cases bs with
    | nil => simp [hleft]
    | cons b bs =>
      rw [hcons, Bool.and_eq_true, ih, List.map_cons, List.map_cons, List.map_cons, List.map_cons,
        equalNodes_cons, List.cons.injEq, eq_self_iff_true, true_and, and_left_comm]

theorem Stat.beqAll_iff (as bs : Chunk) : Stat.beqAll as bs = true ↔
    (as.map fun _ => Stat.breakLoop) = (bs.map fun _ => .breakLoop) ∧
      EqualNodes (as.map .stat) (bs.map .stat) := by
  apply beqAll_iff_parts Node.stat Stat.breakLoop <;> simp [Stat.beqAll, Node.beq]

theorem ElseIf.beqAll_iff (as bs : List ElseIf) : ElseIf.beqAll as bs = true ↔
    (as.map fun _ => ElseIf.mk .nil []) = (bs.map fun _ => .mk .nil []) ∧
      EqualNodes (as.map .elseIf) (bs.map .elseIf) := by
  apply beqAll_iff_parts Node.elseIf (ElseIf.mk .nil []) <;> simp [ElseIf.beqAll, Node.beq]

theorem Exp.beqAll_iff (as bs : List Exp) : Exp.beqAll as bs = true ↔
    (as.map fun _ => Exp.nil) = (bs.map fun _ => .nil) ∧ EqualNodes (as.map .exp) (bs.map .exp) := by
  apply beqAll_iff_parts Node.exp Exp.nil <;> simp [Exp.beqAll, Node.beq]

theorem Var.beqAll_iff (as bs : List Var) : Var.beqAll as bs = true ↔
    (as.map fun _ => Var.name "") = (bs.map fun _ => .name "") ∧
      EqualNodes (as.map .var) (bs.map .var) := by
  apply beqAll_iff_parts Node.var (Var.name "") <;> simp [Var.beqAll, Node.beq]

theorem Field.beqAll_iff (as bs : List Field) : Field.beqAll as bs = true ↔
    blankFields as = blankFields bs ∧ EqualNodes (as.map .field) (bs.map .field) := by
  apply beqAll_iff_parts Node.field (Field.positional .nil) <;> simp [Field.beqAll, Node.beq]

/-- The same for a list that is a node of its own unless it is empty. -/
theorem beqAll_iff_valuesChildren (as bs : List Exp) : Exp.beqAll as bs = true ↔
    blankValues as = blankValues bs ∧ EqualNodes (valuesChildren as) (valuesChildren bs) := by
  cases as <;> cases bs <;> simp [Exp.beqAll, blankValues, valuesChildren, Node.beq]

/-! ## Nodes -/

/-- Two facts about two things are the same if they are so for things made by one constructor, and neither
holds of others. -/
theorem iff_of_same {same p q : Prop} (hp : p → same) (hq : q → same) (h : same → (p ↔ q)) : p ↔ q := by
  constructor
  · intro hleft
    exact (h (hp hleft)).mp hleft
  · intro hright
    exact (h (hq hright)).mpr hright

theorem Stat.ctorIdx_eq_of_beq {s s' : Stat} : s.beq s' = true → s.ctorIdx = s'.ctorIdx := by
  fun_cases Stat.beq s s' with
  | case14 => simp
  | _ => exact fun _ => rfl

/-- Statements have no numbers of their own. -/
theorem Stat.beq_iff (s s' : Stat) : s.beq s' = true ↔
    s.frame = s'.frame ∧ EqualNodes s.children s'.children := by
  apply iff_of_same ctorIdx_eq_of_beq (fun h => ctorIdx_eq_of_frame h.1)
  intro hctor
  cases s with
  | function name body =>
    cases s' with
    | function name' body' => simp [Stat.beq, frame, children, Node.beq]
    | _ => cases hctor
  | localFunction name body =>
    cases s' with
    | localFunction name' body' => simp [Stat.beq, frame, children, Node.beq]
    | _ => cases hctor
  | ifThen condition body elseIfs elseBody =>
    cases s' with
    | ifThen condition' body' elseIfs' elseBody' =>
      have helseIfs := ElseIf.beqAll_iff elseIfs elseIfs'
      cases elseBody with
      | none =>
        cases elseBody' with
        | none =>
          simp [Stat.beq, frame, children, Node.beq, Stat.beqAll?, helseIfs, and_left_comm, and_assoc]
        | some elseBody' => simp [Stat.beq, frame, Stat.beqAll?]
      | some elseBody =>
        cases elseBody' with
        | none => simp [Stat.beq, frame, Stat.beqAll?]
        | some elseBody' =>
          -- one more child follows the clauses, so their number decides which child it is compared with
          by_cases hlength : elseIfs.length = elseIfs'.length
          · have happend : EqualNodes (elseIfs.map .elseIf ++ [Node.chunk elseBody])
                (elseIfs'.map .elseIf ++ [Node.chunk elseBody']) ↔ _ :=
              equalNodes_append (by simpa using hlength) _ _
            simp [Stat.beq, frame, children, Node.beq, Stat.beqAll?, helseIfs, happend, and_assoc, hlength]
          · simp [Stat.beq, frame, helseIfs, hlength]
    | _ => cases hctor
  | numericFor var start stop step body =>
    cases s' with
    | numericFor var' start' stop' step' body' =>
      cases step <;> cases step' <;> simp [Stat.beq, frame, children, Node.beq, Exp.beq?, and_assoc]
    | _ => cases hctor
  | genericFor names values body =>
    cases s' with
    | genericFor names' values' body' => simp [Stat.beq, frame, children, Node.beq, and_assoc]
    | _ => cases hctor
  | call c =>
    cases s' with
    | call c' => simp [Stat.beq, frame, children, Node.beq]
    | _ => cases hctor
  | ret values =>
    cases s' with
    | ret values' => simp [Stat.beq, frame, children, beqAll_iff_valuesChildren]
    | _ => cases hctor
  | localVars names values =>
    cases s' with
    | localVars names' values' =>
      cases values with
      | none => cases values' <;> simp [Stat.beq, frame, children, Node.beq, Exp.beqAll?, valuesChildren]
      | some values =>
        cases values' <;>
          simp [Stat.beq, frame, children, Node.beq, Exp.beqAll?, beqAll_iff_valuesChildren, and_left_comm]
    | _ => cases hctor
  | assign targets values =>
    cases s' with
    | assign targets' values' => simp [Stat.beq, frame, children, Node.beq]
    | _ => cases hctor
  | block body =>
    cases s' with
    | block body' => simp [Stat.beq, frame, children, Node.beq]
    | _ => cases hctor
  | repeatUntil body condition =>
    cases s' with
    | repeatUntil body' condition' => simp [Stat.beq, frame, children, Node.beq]
    | _ => cases hctor
  | whileDo condition body =>
    cases s' with
    | whileDo condition' body' => simp [Stat.beq, frame, children, Node.beq]
    | _ => cases hctor
  | breakLoop =>
    cases s' with
    | breakLoop => simp [Stat.beq, frame, children]
    | _ => cases hctor

theorem Exp.ctorIdx_eq_of_beq {e e' : Exp} : e.beq e' = true → e.ctorIdx = e'.ctorIdx := by
  fun_cases Exp.beq e e' with
  | case12 => simp
  | _ => exact fun _ => rfl

theorem Exp.beq_iff (e e' : Exp) : e.beq e' = true ↔
    e.frame = e'.frame ∧ List.Forall₂ (· == ·) (Node.exp e).numbers (Node.exp e').numbers ∧
      EqualNodes e.children e'.children := by
  apply iff_of_same ctorIdx_eq_of_beq (fun h => ctorIdx_eq_of_frame h.1)
  intro hctor
  cases e with
  | nil =>
    cases e' with
    | nil => simp [beq, children, Node.numbers]
    | _ => cases hctor
  | bool value =>
    cases e' with
    | bool value' => simp [beq, frame, children, Node.numbers]
    | _ => cases hctor
  | vararg =>
    cases e' with
    | vararg => simp [beq, children, Node.numbers]
    | _ => cases hctor
  | number lit =>
    cases e' with
    | number lit' => simp [beq, NumberLit.beq, frame, children, Node.numbers]
    | _ => cases hctor
  | string lit =>
    cases e' with
    | string lit' => simp [beq, frame, children, Node.numbers]
    | _ => cases hctor
  | unary op operand =>
    cases e' with
    | unary op' operand' => simp [beq, frame, children, Node.beq, Node.numbers]
    | _ => cases hctor
  | binary left op right =>
    cases e' with
    | binary left' op' right' => simp [beq, frame, children, Node.beq, and_assoc, and_left_comm, Node.numbers]
    | _ => cases hctor
  | function body =>
    cases e' with
    | function body' => simp [beq, frame, children, Node.beq, Node.numbers]
    | _ => cases hctor
  | paren inner =>
    cases e' with
    | paren inner' => simp [beq, frame, children, Node.beq, Node.numbers]
    | _ => cases hctor
  | table fields =>
    cases e' with
    | table fields' => simp [beq, frame, children, Field.beqAll_iff, Node.numbers]
    | _ => cases hctor
  | prefixed inner =>
    cases e' with
    | prefixed inner' => simp [beq, frame, children, Node.beq, Node.numbers]
    | _ => cases hctor

namespace Node

theorem ctorIdx_eq_of_beq {a b : Node} : a.beq b = true → a.ctorIdx = b.ctorIdx := by
  fun_cases beq a b with
  | case18 => simp
  | _ => exact fun _ => rfl

/-- **Nodes are equal if they have one frame, equal numbers and equal children.** -/
theorem beq_iff (a b : Node) : a.beq b = true ↔
    a.frame = b.frame ∧ List.Forall₂ (· == ·) a.numbers b.numbers ∧
      EqualNodes a.children b.children := by
  apply iff_of_same ctorIdx_eq_of_beq (fun h => ctorIdx_eq_of_frame h.1)
  intro hctor
  cases a with
  | chunk body =>
    cases b with
    | chunk body' => simp [beq, frame, numbers, children, Stat.beqAll_iff]
    | _ => cases hctor
  | stat s =>
    cases b with
    | stat s' => simp [beq, frame, numbers, children, Stat.beq_iff]
    | _ => cases hctor
  | elseIf c =>
    cases b with
    | elseIf c' => cases c; cases c'; simp [beq, ElseIf.beq, frame, numbers, children]
    | _ => cases hctor
  | funcBody fb =>
    cases b with
    | funcBody fb' => cases fb; cases fb'; simp [beq, FuncBody.beq, frame, numbers, children]
    | _ => cases hctor
  | funcName f =>
    cases b with
    | funcName f' => simp [beq, frame, numbers, children]
    | _ => cases hctor
  | parList params =>
    cases b with
    | parList params' => simp [beq, frame, numbers, children]
    | _ => cases hctor
  | exp e =>
    cases b with
    | exp e' => simp [beq, frame, children, Exp.beq_iff]
    | _ => cases hctor
  | prefixExp e =>
    cases b with
    | prefixExp e' => cases e <;> cases e' <;> simp [beq, PrefixExp.beq, frame, numbers, children]
    | _ => cases hctor
  | var v =>
    cases b with
    | var v' => cases v <;> cases v' <;> simp [beq, Var.beq, frame, numbers, children, and_comm]
    | _ => cases hctor
  | call c =>
    cases b with
    | call c' => cases c <;> cases c' <;> simp [beq, Call.beq, frame, numbers, children, and_left_comm, and_assoc]
    | _ => cases hctor
  | args as =>
    cases b with
    | args as' => cases as <;> cases as' <;> simp [beq, Args.beq, frame, numbers, children, Field.beqAll_iff]
    | _ => cases hctor
  | field f =>
    cases b with
    | field f' => cases f <;> cases f' <;> simp [beq, Field.beq, frame, numbers, children]
    | _ => cases hctor
  | table fields =>
    cases b with
    | table fields' => simp [beq, frame, numbers, children, Field.beqAll_iff]
    | _ => cases hctor
  | nameList names =>
    cases b with
    | nameList names' => simp [beq, frame, numbers, children]
    | _ => cases hctor
  | expList es =>
    cases b with
    | expList es' => simp [beq, frame, numbers, children, Exp.beqAll_iff]
    | _ => cases hctor
  | varList vs =>
    cases b with
    | varList vs' => simp [beq, frame, numbers, children, Var.beqAll_iff]
    | _ => cases hctor
  | name text =>
    cases b with
    | name text' => simp [beq, frame, numbers, children]
    | _ => cases hctor

end Node

/-! ## Laws -/

/-- A double is equal to itself unless it is a NaN. -/
theorem float_beq_self_iff (x : Float) : (x == x) = true ↔ x.isNaN = false := by
  rw [Float.beq_self_iff, Float.isNaN_eq_decide_eq_nan, decide_eq_false_iff_not]

/-- Lists are related the other way round if their members are. -/
theorem forall₂_symm_of {Part : Type} {r : Part → Part → Prop} {as bs : List Part}
    (hsymm : ∀ a ∈ as, ∀ b, r a b → r b a) (h : List.Forall₂ r as bs) : List.Forall₂ r bs as := by
  induction h with
  | nil => exact .nil
  | cons hab _ ih =>
    rw [List.forall_mem_cons] at hsymm
    exact .cons (hsymm.1 _ hab) (ih hsymm.2)

/-- Lists are related across a list in between if their members are. -/
theorem forall₂_trans_of {Part : Type} {r : Part → Part → Prop} {as bs cs : List Part}
    (htrans : ∀ a ∈ as, ∀ b c, r a b → r b c → r a c) (h : List.Forall₂ r as bs)
    (h' : List.Forall₂ r bs cs) : List.Forall₂ r as cs := by
  induction h generalizing cs with
  | nil => exact h'
  | cons hab _ ih =>
    rw [List.forall_mem_cons] at htrans
    obtain ⟨c, cs, hbc, hrest, rfl⟩ := List.forall₂_cons_left_iff.mp h'
    exact .cons (htrans.1 _ _ hab hbc) (ih htrans.2 hrest)

namespace Node

theorem beq_symm {a b : Node} (h : a.beq b = true) : b.beq a = true := by
  induction a using inductionOn generalizing b with
  | h a ih =>
    obtain ⟨hframe, hnumbers, hchildren⟩ := (beq_iff a b).mp h
    apply (beq_iff b a).mpr
    refine ⟨hframe.symm, ?_, ?_⟩
    · exact forall₂_symm_of (fun _ _ _ => BEq.symm) hnumbers
    · exact forall₂_symm_of (fun m hm _ => ih m hm) hchildren

theorem beq_trans {a b c : Node} (h : a.beq b = true) (h' : b.beq c = true) : a.beq c = true := by
  induction a using inductionOn generalizing b c with
  | h a ih =>
    obtain ⟨hframe, hnumbers, hchildren⟩ := (beq_iff a b).mp h
    obtain ⟨hframe', hnumbers', hchildren'⟩ := (beq_iff b c).mp h'
    apply (beq_iff a c).mpr
    refine ⟨hframe.trans hframe', ?_, ?_⟩
    · exact forall₂_trans_of (fun _ _ _ _ => BEq.trans) hnumbers hnumbers'
    · exact forall₂_trans_of (fun m hm _ _ => ih m hm) hchildren hchildren'

/-- A node is equal to itself if the numbers of all nodes of its tree are. -/
theorem beq_self_iff (a : Node) :
    a.beq a = true ↔ ∀ m ∈ a.preorder, ∀ x ∈ m.numbers, x.isNaN = false := by
  induction a using inductionOn with
  | h a ih =>
    have hnumbers : List.Forall₂ (· == ·) a.numbers a.numbers ↔ ∀ x ∈ a.numbers, x.isNaN = false := by
      rw [List.forall₂_same]
      exact forall₂_congr fun x _ => float_beq_self_iff x
    have hchildren : EqualNodes a.children a.children ↔
        ∀ k ∈ a.children.flatMap preorder, ∀ x ∈ k.numbers, x.isNaN = false := by
      rw [EqualNodes, List.forall₂_same, forall₂_congr ih]
      simp only [List.mem_flatMap]
      grind
    rw [beq_iff, hnumbers, hchildren, preorder_eq, List.forall_mem_cons]
    exact and_iff_right rfl

theorem numbers_forall_iff {p : Float → Prop} (ns : List Node) : (∀ m ∈ ns, ∀ x ∈ m.numbers, p x) ↔
    ∀ lit, .exp (.number lit) ∈ ns → p lit.value := by
  constructor
  · intro h lit hmem
    exact h _ hmem lit.value (List.mem_singleton.mpr rfl)
  · intro h m hm x hx
    unfold numbers at hx
    split at hx
    · next lit =>
      rw [List.mem_singleton.mp hx]
      exact h lit hm
    · exact absurd hx List.not_mem_nil

end Node

/-- **Equality of nodes is symmetric and transitive, and fails to be reflexive on NaN only**: a node of any
category is equal to itself exactly if no number literal of its tree, at any depth, is a NaN. -/
theorem equality_fails_on_nan_only :
    (∀ a b : Node, (a == b) = true → (b == a) = true) ∧
      (∀ a b c : Node, (a == b) = true → (b == c) = true → (a == c) = true) ∧
      ∀ a : Node, (a == a) = true ↔
        ∀ lit, Node.exp (.number lit) ∈ a.preorder → lit.value.isNaN = false := by
  refine ⟨?_, ?_, ?_⟩
  · intro a b h
    exact Node.beq_symm h
  · intro a b c hab hbc
    exact Node.beq_trans hab hbc
  · intro a
    exact (Node.beq_self_iff a).trans (Node.numbers_forall_iff a.preorder)

/-- A function with a number far inside. -/
def numberInside (number : Float) : Node :=
  .stat (.localFunction "f" (.mk ⟨[], false⟩ [.ret [.table [.keyed (.number ⟨"0", number⟩) .vararg]]]))

/-- The two zeros make equal trees, to and fro; a NaN makes a tree that is not even equal to itself. -/
theorem equality_fails_on_nan_only_inside :
    ((numberInside 0.0 == numberInside (-0.0)) = true ∧ (numberInside (-0.0) == numberInside 0.0) = true ∧
      (numberInside 0.0 == numberInside 0.0) = true) ∧
    (numberInside (0.0 / 0.0) == numberInside (0.0 / 0.0)) = false := by
  have hzeros : (numberInside 0.0 == numberInside (-0.0)) = true := by decide +kernel
  have hback : (numberInside (-0.0) == numberInside 0.0) = true :=
    equality_fails_on_nan_only.1 _ _ hzeros
  refine ⟨⟨hzeros, hback, equality_fails_on_nan_only.2.1 _ _ _ hzeros hback⟩, ?_⟩
  apply Bool.eq_false_iff.mpr
  intro hself
  have hmem : Node.exp (.number ⟨"0", 0.0 / 0.0⟩) ∈ (numberInside (0.0 / 0.0)).preorder := by
    simp [numberInside, Node.preorder_eq, Node.children, Stat.children, Exp.children, valuesChildren]
  have hnumber := (equality_fails_on_nan_only.2.2 _).mp hself ⟨"0", 0.0 / 0.0⟩ hmem
  exact absurd hnumber (by decide +kernel)

end LuaUnparse
