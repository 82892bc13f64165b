import LuaUnparse.Proofs.Advance
import LuaUnparse.Proofs.Failure
import LuaUnparse.Proofs.Frame

/-!
# `LuaUnparse.Proofs.Repair` — a failing run stops before the node at fault

A tree that cannot be written is compared with one that can, which has another node in the place of the node at
fault and is the same tree otherwise. Two runs over them write the same until they come to that place, where
the one fails and the other goes on. A node that looks at its parts before it writes could tell the two
trees apart too early. Only an operator with one operand does so, and all that it writes because of it is a
blank, right before the operand.

## Contents
- **Places.** `Node.Replaces`: two trees that differ in one place. Every node of a tree has its place
  (`replaces_self_of_preorder`).
- **Approaching a place.** `Approach`: two runs come to one place, and write the same on the way.
- **The minus of an operand.** `startsWithMinus_of_child` and `unaryGap_cases`: when the blank before an operand
  can come or go.
- **Replaced nodes.** `approach_of_replaces`, by induction on the way to the place, and `approach_root`.
- **Runs.** **`failing_run_begins_repaired`**.
-/

namespace LuaUnparse

/-! ## Places -/

/-- The second tree is the first one with another node, of the same category, in one place. The place is told
by the nodes of the first tree that come before it in pre-order. -/
inductive Node.Replaces (n n' : Node) : List Node → Node → Node → Prop
  | here (hcategory : n.ctorIdx = n'.ctorIdx) : Replaces n n' [] n n'
  | inside {a b c c' : Node} {left right before : List Node} (hframe : a.frame = b.frame)
      (ha : a.children = left ++ c :: right) (hb : b.children = left ++ c' :: right)
      (hpart : Replaces n n' before c c') : Replaces n n' (a :: left.flatMap Node.preorder ++ before) a b

/-- A child without siblings is reached from its parent at once. -/
theorem replaces_of_only_child {n n' a b c c' : Node} {before : List Node} (hframe : a.frame = b.frame)
    (ha : a.children = [c]) (hb : b.children = [c']) (h : n.Replaces n' before c c') :
    n.Replaces n' (a :: before) a b :=
  @Node.Replaces.inside n n' a b c c' [] [] before hframe ha hb h

/-- What is listed somewhere inside parts is listed inside one of them, after all that the parts before it
list. -/
theorem flatMap_eq_append_cons {Part Item : Type} {f : Part → List Item} {parts : List Part}
    {before after : List Item} {x : Item} (h : parts.flatMap f = before ++ x :: after) :
    ∃ (left : List Part) (part : Part) (right : List Part) (inside rest : List Item),
      parts = left ++ part :: right ∧ f part = inside ++ x :: rest ∧ before = left.flatMap f ++ inside := by
  induction parts generalizing before with
  | nil => exact absurd h (by simp)
  | cons p ps ih =>
    rw [List.flatMap_cons] at h
    rcases List.append_eq_append_iff.mp h with ⟨more, rfl, hps⟩ | ⟨more, hp, hrest⟩
    · obtain ⟨left, part, right, inside, rest, rfl, hpart, rfl⟩ := ih hps
      exact ⟨p :: left, part, right, inside, rest, rfl, hpart, by rw [List.flatMap_cons, List.append_assoc]⟩
    · cases more with
      | nil =>
        have hps : ps.flatMap f = [] ++ x :: after := hrest.symm
        obtain ⟨left, part, right, inside, rest, rfl, hpart, hinside⟩ := ih hps
        refine ⟨p :: left, part, right, inside, rest, rfl, hpart, ?_⟩
        rw [List.flatMap_cons, List.append_assoc, ← hinside, hp, List.append_nil, List.append_nil]
      | cons y more =>
        obtain ⟨rfl, -⟩ := List.cons.inj hrest
        exact ⟨[], p, ps, before, more, rfl, hp, rfl⟩

/-- Every node of a tree has its place. -/
theorem replaces_self_of_preorder {root n : Node} {before after : List Node}
    (h : root.preorder = before ++ n :: after) : n.Replaces n before root root := by
  induction root using Node.inductionOn generalizing before after with
  | h root ih =>
    rw [Node.preorder_eq] at h
    cases before with
    | nil =>
      obtain ⟨rfl, -⟩ := List.cons.inj h
      exact .here rfl
    | cons m before =>
      -- the root comes first of all, so the place is inside one of the children
      obtain ⟨rfl, hrest⟩ := List.cons.inj h
      obtain ⟨left, c, right, inside, rest, hchildren, hc, rfl⟩ := flatMap_eq_append_cons hrest
      have hmem : c ∈ root.children := by
        rw [hchildren]
        exact List.mem_append_right left List.mem_cons_self
      exact .inside rfl hchildren hchildren (ih c hmem hc)

/-! ## Approaching a place -/

/-- Pieces whose nodes are not at fault, nor any node in them, are written to the end. -/
theorem layoutPieces_fault_eq_none {ps : List Piece}
    (h : ∀ m ∈ (nodesIn ps).flatMap Node.preorder, m.fault? = none) (depth : Nat) :
    (layoutPieces depth ps).fault = none := by
  rw [layoutPieces_fault (fun n _ => layout_fault n), List.findSome?_eq_none_iff]
  exact h

/-- In the place of a node that is not at fault comes its shape. -/
theorem move_of_none {n : Node} (h : n.fault? = none) (depth : Nat) (rest : List Piece) :
    Cursor.move ⟨depth, .node n :: rest⟩ = .silent ⟨depth, n.shape ++ rest⟩ := by
  rw [Cursor.move, Node.pieces_of_none h]

section

variable {style : Style} {n n' : Node}

/-- Two runs come to one place, where they have a node each in front, and the same pieces after it. The first
one writes `items` on the way, and the second one writes a `gap` after them. -/
def Approach (style : Style) (n n' : Node) (cursor cursor' : Cursor) (items gap : List Item) : Prop :=
  ∃ place rest,
    (∀ root, Run.Writes root style cursor ⟨items, none⟩ ⟨place, .node n :: rest⟩) ∧
    ∀ root, Run.Writes root style cursor' ⟨items ++ gap, none⟩ ⟨place, .node n' :: rest⟩

namespace Approach

variable {cursor cursor' middle middle' : Cursor} {items gap : List Item}

/-- The two runs have arrived. -/
theorem arrived (depth : Nat) (rest : List Piece) :
    Approach style n n' ⟨depth, .node n :: rest⟩ ⟨depth, .node n' :: rest⟩ [] [] :=
  ⟨depth, rest, fun _ _ => .stay, fun _ _ => .stay⟩

/-- Neither run shows its next move. -/
theorem of_silent (h : Approach style n n' middle middle' items gap) (hmove : cursor.move = .silent middle)
    (hmove' : cursor'.move = .silent middle') : Approach style n n' cursor cursor' items gap := by
  obtain ⟨place, rest, hfirst, hsecond⟩ := h
  refine ⟨place, rest, ?_, ?_⟩
  · intro root
    exact .of_silent hmove (hfirst root)
  · intro root
    exact .of_silent hmove' (hsecond root)

/-- Both runs write the same pieces first. -/
theorem of_pieces {depth : Nat} {ps tail tail' : List Piece} (hps : (layoutPieces depth ps).fault = none)
    (h : Approach style n n' ⟨depthAfter depth ps, tail⟩ ⟨depthAfter depth ps, tail'⟩ items gap) :
    Approach style n n' ⟨depth, ps ++ tail⟩ ⟨depth, ps ++ tail'⟩ ((layoutPieces depth ps).items ++ items)
      gap := by
  obtain ⟨place, rest, hfirst, hsecond⟩ := h
  refine ⟨place, rest, ?_, ?_⟩
  · intro root
    have hwrites := (writes_pieces root style depth ps tail).append (hfirst root)
    rw [Layout.append_of_none hps] at hwrites
    exact hwrites
  · intro root
    have hwrites := (writes_pieces root style depth ps tail').append (hsecond root)
    rw [Layout.append_of_none hps, ← List.append_assoc] at hwrites
    exact hwrites

/-- Both runs write the same pieces first, and the second one writes a blank, too. -/
theorem of_blank {depth : Nat} {ps tail tail' : List Piece} (hps : (layoutPieces depth ps).fault = none)
    (h : Approach style n n' ⟨depthAfter depth ps, tail⟩ ⟨depthAfter depth ps, tail'⟩ [] []) :
    Approach style n n' ⟨depth, ps ++ tail⟩ ⟨depth, ps ++ .text " " :: tail'⟩ (layoutPieces depth ps).items
      [.text " "] := by
  obtain ⟨place, rest, hfirst, hsecond⟩ := h
  refine ⟨place, rest, ?_, ?_⟩
  · intro root
    have hwrites := (writes_pieces root style depth ps tail).append (hfirst root)
    rw [Layout.append_of_none hps, List.append_nil] at hwrites
    exact hwrites
  · intro root
    have hblank : Run.Writes root style ⟨depthAfter depth ps, .text " " :: tail'⟩ ⟨[.text " "], none⟩
        ⟨place, .node n' :: rest⟩ := .of_write rfl (hsecond root)
    have hwrites := (writes_pieces root style depth ps (.text " " :: tail')).append hblank
    rw [Layout.append_of_none hps] at hwrites
    exact hwrites

end Approach

/-! ## The minus of an operand -/

/-- Whether the node is an expression that is written with `-` first. -/
def Node.startsWithMinus : Node → Bool
  | .exp e => e.startsWithMinus
  | _ => false

theorem startsWithMinus_of_fault {fault : Fault} (h : n.fault? = some fault) :
    n.startsWithMinus = false := by
  cases n with
  | exp e =>
    cases e with
    | number lit =>
      have hempty : lit.raw = "" := by simp_all [Node.fault?, Exp.fault?]
      simp [Node.startsWithMinus, Exp.startsWithMinus, hempty]
    | unary op operand => simp [Node.fault?, Exp.fault?] at h
    | binary left op right => simp [Node.fault?, Exp.fault?] at h
    | _ => rfl
  | _ => rfl

theorem startsWithMinus_frame {a : Node} (h : a.operands ≠ 2) :
    a.frame.startsWithMinus = a.startsWithMinus := by
  cases a with
  | exp e =>
    cases e with
    | binary left op right => exact absurd rfl h
    | _ => rfl
  | prefixExp e => cases e <;> rfl
  | var v => cases v <;> rfl
  | call c => cases c <;> rfl
  | args as => cases as <;> rfl
  | field f => cases f <;> rfl
  | _ => rfl

theorem startsWithMinus_eq_of_frame {a b : Node} (hbinary : a.operands ≠ 2) (hframe : a.frame = b.frame) :
    a.startsWithMinus = b.startsWithMinus := by
  have hbinary' : b.operands ≠ 2 := operands_eq_of_frame hframe ▸ hbinary
  rw [← startsWithMinus_frame hbinary, hframe, startsWithMinus_frame hbinary']

/-- A node that differs in one child is written with `-` first as before, unless the child comes first of
all and is not. -/
theorem startsWithMinus_of_child {a b c c' : Node} {left right : List Node} {front back : List Piece}
    (hframe : a.frame = b.frame) (ha : a.children = left ++ c :: right)
    (hb : b.children = left ++ c' :: right) (hshape : a.shape = front ++ .node c :: back)
    (hfront : nodesIn front = left) :
    a.startsWithMinus = b.startsWithMinus ∨
      front = [] ∧ a.startsWithMinus = c.startsWithMinus ∧ b.startsWithMinus = c'.startsWithMinus := by
  by_cases hbinary : a.operands = 2
  · obtain ⟨x, op, y, rfl⟩ := eq_binary_of_operands hbinary
    obtain ⟨x', op', y', rfl⟩ := eq_binary_of_operands (operands_eq_of_frame hframe ▸ hbinary)
    cases left with
    | nil =>
      obtain ⟨rfl, -⟩ := List.cons.inj ha
      obtain ⟨rfl, -⟩ := List.cons.inj hb
      refine .inr ⟨?_, rfl, rfl⟩
      cases front with
      | nil => rfl
      | cons p front =>
        obtain ⟨rfl, -⟩ := List.cons.inj hshape
        exact absurd hfront (by simp [nodesIn])
    | cons l left =>
      obtain ⟨rfl, -⟩ := List.cons.inj ha
      obtain ⟨hx, -⟩ := List.cons.inj hb
      obtain rfl := Node.exp.inj hx
      exact .inl rfl
  · exact .inl (startsWithMinus_eq_of_frame hbinary hframe)

/-- An operator keeps the same distance from both operands, or the second one begins with the minus that the
first one lacks. -/
theorem unaryGap_cases (op : UnOp) (x x' : Exp)
    (h : x.startsWithMinus = x'.startsWithMinus ∨ x.startsWithMinus = false) :
    unaryGap op x = unaryGap op x' ∨
      x.startsWithMinus ≠ x'.startsWithMinus ∧ unaryGap op x' = unaryGap op x ++ [Piece.text " "] := by
  unfold unaryGap
  cases op.isWord <;> cases hx : x.startsWithMinus <;> cases hx' : x'.startsWithMinus <;>
    cases op == .negate <;> simp_all

/-! ## Replaced nodes -/

variable {fault : Fault} {before : List Node} {a b : Node}

theorem ctorIdx_eq_of_replaces (h : n.Replaces n' before a b) : a.ctorIdx = b.ctorIdx := by
  cases h with
  | here hcategory => exact hcategory
  | inside hframe ha hb hpart => exact Node.ctorIdx_eq_of_frame hframe

/-- If no node before a place is at fault, and no node of the repaired tree, then the same holds of the parts
of a node on the way to the place. -/
theorem faultless_parts {c' : Node} {left right : List Node}
    (hbefore : ∀ m ∈ a :: left.flatMap Node.preorder ++ before, m.fault? = none)
    (hb : ∀ m ∈ b.preorder, m.fault? = none) (hchildren : b.children = left ++ c' :: right) :
    (∀ m ∈ left.flatMap Node.preorder, m.fault? = none) ∧ (∀ m ∈ before, m.fault? = none) ∧
      ∀ m ∈ c'.preorder, m.fault? = none := by
  rw [List.cons_append, List.forall_mem_cons, List.forall_mem_append] at hbefore
  obtain ⟨-, hleft, hinside⟩ := hbefore
  refine ⟨hleft, hinside, ?_⟩
  intro m hm
  apply hb m (Node.mem_preorder_of_child _ hm)
  rw [hchildren]
  exact List.mem_append_right left List.mem_cons_self

theorem nodesIn_lines (body : Chunk) : nodesIn (Chunk.lines body) = (Node.chunk body).children := by
  rw [← nodesIn_shape]
  simp [Node.shape, Chunk.shape, nodesIn]

/-- Two runs in which a unary operator is in front come to the same place in their operands. -/
theorem approach_unary (op : UnOp) {x x' : Exp} {depth : Nat} {rest : List Piece} {items gap : List Item}
    (h : Approach style n n' ⟨depth, .node (.exp x) :: rest⟩ ⟨depth, .node (.exp x') :: rest⟩ items gap)
    (hgap : gap = [] ∨ gap = [.text " "])
    (hminus : x.startsWithMinus = x'.startsWithMinus ∨
      x.startsWithMinus = false ∧ items = [] ∧ gap = []) :
    ∃ items' gap', Approach style n n' ⟨depth, (Exp.unary op x).shape ++ rest⟩
        ⟨depth, (Exp.unary op x').shape ++ rest⟩ items' gap' ∧ (gap' = [] ∨ gap' = [.text " "]) := by
  let front : List Piece := .text op.spelling :: unaryGap op x
  have hlead : nodesIn front = [] ∧ depthAfter depth front = depth := by
    unfold front unaryGap
    split <;> exact ⟨rfl, rfl⟩
  have hfront : (layoutPieces depth front).fault = none :=
    layoutPieces_fault_eq_none (by simp [hlead.1]) depth
  have hshape : (Exp.unary op x).shape ++ rest = front ++ .node (.exp x) :: rest := by
    simp [Exp.shape, front]
  rw [hshape]
  rcases unaryGap_cases op x x' (hminus.imp_right And.left) with hsame | ⟨hdiffer, hblank⟩
  · have hshape' : (Exp.unary op x').shape ++ rest = front ++ .node (.exp x') :: rest := by
      simp [Exp.shape, front, hsame]
    rw [hshape']
    exact ⟨_, gap, Approach.of_pieces hfront (by rw [hlead.2]; exact h), hgap⟩
  · -- the place is right behind the operator, or the minus would not be another one
    obtain ⟨-, rfl, rfl⟩ := hminus.resolve_left hdiffer
    have hshape' : (Exp.unary op x').shape ++ rest = front ++ .text " " :: .node (.exp x') :: rest := by
      simp [Exp.shape, front, hblank]
    rw [hshape']
    exact ⟨_, [.text " "], .of_blank hfront (by rw [hlead.2]; exact h), .inr rfl⟩

/-- **Two runs in which a node is in front, and the node with another one in one place, come to that place**,
one with the node there, and the other with what replaces it. -/
theorem approach_of_replaces (style : Style) (h : n.Replaces n' before a b)
    (hn : n.fault? = some fault) (hbefore : ∀ m ∈ before, m.fault? = none)
    (hb : ∀ m ∈ b.preorder, m.fault? = none) (depth : Nat) (rest : List Piece) :
    ∃ items gap, Approach style n n' ⟨depth, .node a :: rest⟩ ⟨depth, .node b :: rest⟩ items gap ∧
      (gap = [] ∨ gap = [.text " "]) ∧
      (a.startsWithMinus = b.startsWithMinus ∨ a.startsWithMinus = false ∧ items = [] ∧ gap = []) := by
  induction h generalizing depth rest with
  | here _ =>
    exact ⟨[], [], .arrived depth rest, .inl rfl, .inr ⟨startsWithMinus_of_fault hn, rfl, rfl⟩⟩
  | @inside a b c c' left right before hframe ha' hb' hpart ih =>
    have ha : a.fault? = none := hbefore a List.mem_cons_self
    obtain ⟨hleft, hinside, hc'⟩ := faultless_parts hbefore hb hb'
    have hmove := move_of_none ha depth rest
    have hmove' := move_of_none (hb b b.self_mem_preorder) depth rest
    by_cases hunary : a.operands = 1
    · -- the only node that looks at its child before it writes
      obtain ⟨op, x, rfl⟩ := eq_unary_of_operands hunary
      obtain ⟨op', x', rfl⟩ := eq_unary_of_operands (operands_eq_of_frame hframe ▸ hunary)
      obtain rfl : op = op' := (Exp.unary.inj (Node.exp.inj hframe)).1
      obtain ⟨rfl, rfl⟩ : left = [] ∧ c = .exp x := by
        cases left with
        | nil => exact ⟨rfl, (List.cons.inj ha').1.symm⟩
        | cons l left => exact absurd (List.cons.inj ha').2 (by simp)
      obtain ⟨rfl, rfl⟩ := List.cons.inj hb'
      obtain ⟨items, gap, happroach, hgap, hminus⟩ := ih hinside hc' depth rest
      obtain ⟨items', gap', happroach', hgap'⟩ := approach_unary op happroach hgap hminus
      exact ⟨items', gap', happroach'.of_silent hmove hmove', hgap', .inl rfl⟩
    · -- what stands around the child is in the frame, so it is the same in both shapes
      obtain ⟨front, back, hshape, hshape', hfront⟩ := shape_split hunary hframe ha' hb'
      obtain ⟨items, gap, happroach, hgap, hminus⟩ := ih hinside hc' (depthAfter depth front) (back ++ rest)
      have hfault : (layoutPieces depth front).fault = none :=
        layoutPieces_fault_eq_none (hfront ▸ hleft) depth
      rw [hshape, List.append_assoc] at hmove
      rw [hshape', List.append_assoc] at hmove'
      refine ⟨_, gap, (happroach.of_pieces hfault).of_silent hmove hmove', hgap, ?_⟩
      rcases startsWithMinus_of_child hframe ha' hb' hshape hfront with hsame | ⟨rfl, ha₀, hb₀⟩
      · exact .inl hsame
      · -- nothing is written before the child
        rw [ha₀, hb₀]
        simpa [layoutPieces, Layout.empty] using hminus

/-- Two runs over trees that differ in one node come to its place. -/
theorem approach_root (style : Style) {root repaired : Node} (h : n.Replaces n' before root repaired)
    (hn : n.fault? = some fault) (hbefore : ∀ m ∈ before, m.fault? = none)
    (hrepaired : ∀ m ∈ repaired.preorder, m.fault? = none) :
    ∃ items gap, Approach style n n' (.atRoot root) (.atRoot repaired) items gap ∧
      (gap = [] ∨ gap = [.text " "]) := by
  have hcategory := ctorIdx_eq_of_replaces h
  cases root with
  | chunk body =>
    cases repaired with
    | chunk body' =>
      cases h with
      | here _ => cases hn
      | @inside _ _ c c' left right before hframe ha hb hpart =>
        -- a chunk that is a root is written without a shape of its own
        have hforget : (Chunk.lines body).map Piece.forget = (Chunk.lines body').map Piece.forget := by
          rw [← lines_blank body, ← lines_blank body', Node.chunk.inj hframe]
        obtain ⟨front, back, hfront, hfront', hleft⟩ := split_of_forget hforget
          ((nodesIn_lines body).trans ha) ((nodesIn_lines body').trans hb)
        obtain ⟨hbeforeLeft, hinside, hc'⟩ := faultless_parts hbefore hrepaired hb
        obtain ⟨items, gap, happroach, hgap, -⟩ :=
          approach_of_replaces style hpart hn hinside hc' (depthAfter 0 front) back
        have hfault : (layoutPieces 0 front).fault = none :=
          layoutPieces_fault_eq_none (hleft ▸ hbeforeLeft) 0
        have hroot := happroach.of_pieces hfault
        rw [← hfront, ← hfront'] at hroot
        exact ⟨_, gap, hroot, hgap⟩
    | _ => cases hcategory
  | _ =>
    cases repaired with
    | chunk body' => cases hcategory
    | _ =>
      obtain ⟨items, gap, happroach, hgap, -⟩ := approach_of_replaces style h hn hbefore hrepaired 0 []
      exact ⟨items, gap, happroach, hgap⟩

/-! ## Runs -/

/-- A run that writes items from its root has given the start and their texts. -/
theorem reaches_of_writes {root : Node} {items : List Item} {last : Cursor}
    (h : Run.Writes root style (.atRoot root) ⟨items, none⟩ last) :
    (Unparser.start ⟨root, style⟩).Reaches (.start :: (items.map style.write).map .data)
      ⟨root, style, .writing last (items.map style.write).length⟩ := by
  have hstart : (Unparser.start ⟨root, style⟩).advance =
    (some .start, ⟨root, style, .writing (.atRoot root) 0⟩) := rfl
  have hwrites := (Run.Reaches.of_advance hstart).trans (h 0)
  simpa [Layout.data, Function.comp_def] using hwrites

/-- The same run goes on as the layout to come. -/
theorem events_of_writes {root : Node} {items : List Item} {last : Cursor}
    (h : Run.Writes root style (.atRoot root) ⟨items, none⟩ last) :
    Unparser.events ⟨root, style⟩ =
      Event.start :: (items.map style.write).map .data ++ last.layout.events style := by
  rw [Unparser.events, drain_items_of_reaches (reaches_of_writes h), drain_events_writing]

/-- A run over a tree that has a text ends well. -/
theorem fault_of_writes {root : Node} {items : List Item} {last : Cursor}
    (h : Run.Writes root style (.atRoot root) ⟨items, none⟩ last)
    (hroot : root.rootLayout.fault = none) : last.layout.fault = none := by
  have hevents : Unparser.events ⟨root, style⟩ = .start :: root.rootLayout.events style :=
    drain_events_root root style
  have hlast := congrArg List.getLast? ((events_of_writes h).symm.trans hevents)
  simp only [Layout.events, hroot, List.getLast?_append, List.getLast?_cons, List.cons_append] at hlast
  cases hfault : last.layout.fault with
  | none => rfl
  | some fault => simp [hfault, Event.ending] at hlast

end

/-- **A failing run stops before the node at fault, and all that it gave is right.** If a tree has no text, some
node is at fault, and no node before it in pre-order is. Let another node of the same category be put in its
place, so that the tree has a text. Then the run over the first tree fails when it comes to the node at
fault, before it writes anything of it or of what follows. The run over the other tree comes to that place
with the same texts behind it and the same pieces before it, but for a blank that may keep a minus from the
new node, and goes on from there to its end.

The list `before` tells the place of the node in its tree. -/
theorem failing_run_begins_repaired (style : Style) :
    (∀ root fault, unparse root style = .error fault →
      ∃ n before, Node.Replaces n n before root root ∧ n.fault? = some fault ∧
        ∀ m ∈ before, m.fault? = none) ∧
    ∀ root repaired n n' before fault, Node.Replaces n n' before root repaired →
      n.fault? = some fault → (∀ m ∈ before, m.fault? = none) →
      (∃ text, unparse repaired style = .ok text) →
      ∃ texts blank more place rest, (blank = [] ∨ blank = [" "]) ∧
        (Unparser.start ⟨root, style⟩).Reaches (.start :: texts.map .data)
          ⟨root, style, .writing ⟨place, .node n :: rest⟩ texts.length⟩ ∧
        Unparser.events ⟨root, style⟩ = Event.start :: texts.map .data ++ [Event.failed fault] ∧
        (Unparser.start ⟨repaired, style⟩).Reaches (.start :: (texts ++ blank).map .data)
          ⟨repaired, style, .writing ⟨place, .node n' :: rest⟩ (texts ++ blank).length⟩ ∧
        Unparser.events ⟨repaired, style⟩ =
          Event.start :: (texts ++ blank ++ more).map .data ++ [Event.finish] := by
  constructor
  · intro root fault hfails
    rw [unparse_eq_error_iff, List.findSome?_eq_some_iff] at hfails
    obtain ⟨before, n, after, hpreorder, hn, hbefore⟩ := hfails
    exact ⟨n, before, replaces_self_of_preorder hpreorder, hn, hbefore⟩
  · intro root repaired n n' before fault hreplaces hn hbefore hrepaired
    rw [unparse_eq_ok_iff] at hrepaired
    obtain ⟨items, gap, ⟨place, rest, hfirst, hsecond⟩, hgap⟩ :=
      approach_root style hreplaces hn hbefore (List.findSome?_eq_none_iff.mp hrepaired)
    have hfault : (Cursor.layout ⟨place, .node n :: rest⟩) = ⟨[], some fault⟩ :=
      layoutPieces_of_error (Node.pieces_of_fault hn) rest
    have hfinish := fault_of_writes (hsecond repaired) ((rootLayout_fault repaired).trans hrepaired)
    refine ⟨items.map style.write, gap.map style.write,
      (Cursor.layout ⟨place, .node n' :: rest⟩).texts style, place, rest, ?_, ?_, ?_, ?_, ?_⟩
    · rcases hgap with rfl | rfl
      · exact .inl rfl
      · exact .inr rfl
    · exact reaches_of_writes (hfirst root)
    · rw [events_of_writes (hfirst root), hfault]
      rfl
    · have hreaches := reaches_of_writes (hsecond repaired)
      rwa [List.map_append] at hreaches
    · rw [events_of_writes (hsecond repaired), Layout.events, hfinish, List.map_append]
      simp [Layout.texts, Event.ending]

/-- A chunk that returns a negated number. -/
def negation (lit : NumberLit) : Node :=
  .chunk [.ret [.unary .negate (.number lit)]]

/-- The number to be negated is missing, and then it begins with a minus of its own: the blank that keeps the
two apart is all that the repaired run writes before it and the failing run does not. -/
theorem failing_run_begins_repaired_minus :
    unparse (negation ⟨"", 0⟩) = .error .numberWithoutText ∧
    unparse (negation ⟨"-1", -1⟩) = .ok "\nreturn - -1" ∧
    ∃ texts blank more place rest, (blank = [] ∨ blank = [" "]) ∧
      (Unparser.start ⟨negation ⟨"", 0⟩, {}⟩).Reaches (.start :: texts.map .data)
        ⟨negation ⟨"", 0⟩, {}, .writing ⟨place, .node (.exp (.number ⟨"", 0⟩)) :: rest⟩ texts.length⟩ ∧
      Unparser.events ⟨negation ⟨"", 0⟩, {}⟩ =
        Event.start :: texts.map .data ++ [Event.failed .numberWithoutText] ∧
      (Unparser.start ⟨negation ⟨"-1", -1⟩, {}⟩).Reaches (.start :: (texts ++ blank).map .data)
        ⟨negation ⟨"-1", -1⟩, {}, .writing ⟨place, .node (.exp (.number ⟨"-1", -1⟩)) :: rest⟩
          (texts ++ blank).length⟩ ∧
      Unparser.events ⟨negation ⟨"-1", -1⟩, {}⟩ =
        Event.start :: (texts ++ blank ++ more).map .data ++ [Event.finish] := by
  have hoperand : Node.Replaces (.exp (.number ⟨"", 0⟩)) (.exp (.number ⟨"-1", -1⟩))
      [.exp (.unary .negate (.number ⟨"", 0⟩))] (.exp (.unary .negate (.number ⟨"", 0⟩)))
      (.exp (.unary .negate (.number ⟨"-1", -1⟩))) :=
    replaces_of_only_child rfl rfl rfl (.here rfl)
  have hreturn : Node.Replaces (.exp (.number ⟨"", 0⟩)) (.exp (.number ⟨"-1", -1⟩))
      [negation ⟨"", 0⟩, .stat (.ret [.unary .negate (.number ⟨"", 0⟩)]),
        .expList [.unary .negate (.number ⟨"", 0⟩)], .exp (.unary .negate (.number ⟨"", 0⟩))]
      (negation ⟨"", 0⟩) (negation ⟨"-1", -1⟩) :=
    replaces_of_only_child rfl rfl rfl
      (replaces_of_only_child rfl rfl rfl (replaces_of_only_child rfl rfl rfl hoperand))
  have hlayout : (negation ⟨"", 0⟩).rootLayout =
      ⟨[.lineBreak 0, .text "return", .text " ", .text "-"], some .numberWithoutText⟩ := by decide +kernel
  have hlayout' : (negation ⟨"-1", -1⟩).rootLayout =
      ⟨[.lineBreak 0, .text "return", .text " ", .text "-", .text " ", .text "-1"], none⟩ := by
    decide +kernel
  have hfails : unparse (negation ⟨"", 0⟩) = .error .numberWithoutText := by
    rw [unparse_eq_layout, hlayout]
    rfl
  have hrepaired : unparse (negation ⟨"-1", -1⟩) = .ok "\nreturn - -1" := by
    rw [unparse_eq_layout, hlayout']
    decide +kernel
  refine ⟨hfails, hrepaired, ?_⟩
  exact (failing_run_begins_repaired {}).2 _ _ _ _ _ _ hreturn rfl (by decide +kernel) ⟨_, hrepaired⟩

end LuaUnparse
