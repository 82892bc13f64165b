import LuaUnparse.Proofs.Reading.Spelling

/-!
# `LuaUnparse.Proofs.Grouping` — what a text tells of the grouping of operators

Operators stand between or before their operands, and parentheses are written where the tree has them and
nowhere else. So the text of an operator tree tells its tokens and nothing more, and trees that differ in
their grouping alone have one text. A reader knows which of them is meant only by precedence: of the trees
that are grouped as a precedence says there is one for each text.

## Contents
- **Operator trees.** `OperatorTree`: names, operators and parentheses.
- **Texts.** `spaced`, the items of tokens, and `OperatorTree.rootLayout_eq`: what is written depends on
  nothing else.
- **Precedence.** `Precedence`, and `Exp.isGrouped` for the trees that need no further parentheses.
- **Reading.** `Groups`, how a reader that knows the precedence groups tokens; it has no choice
  (`Groups.unique`), and it finds every grouped tree (`groups_tokens`).
- **Grouping.** **`same_text_iff_same_tokens`**, what equal texts mean.
-/

namespace LuaUnparse

/-! ## Operator trees -/

/-- An expression of valid names, operators and parentheses. -/
inductive OperatorTree : Exp → Prop
  | name {n : Name} (valid : n.isValid = true) : OperatorTree (.ofName n)
  | unary (op : UnOp) {operand : Exp} (h : OperatorTree operand) : OperatorTree (.unary op operand)
  | binary (op : BinOp) {left right : Exp} (hleft : OperatorTree left) (hright : OperatorTree right) :
      OperatorTree (.binary left op right)
  | paren {inner : Exp} (h : OperatorTree inner) : OperatorTree (.paren inner)

theorem numbersPlain_of_children {e : Exp} (hne : ∀ lit, e ≠ .number lit)
    (h : ∀ m ∈ e.children, m.NumbersPlain) : (Node.exp e).NumbersPlain := by
  intro lit hlit
  rcases Node.eq_or_mem_of_mem_preorder hlit with heq | ⟨m, hm, hlit⟩
  · exact absurd (Node.exp.inj heq).symm (hne lit)
  · exact h m hm lit hlit

/-- There is no number in an operator tree. -/
theorem OperatorTree.numbersPlain {e : Exp} (h : OperatorTree e) : (Node.exp e).NumbersPlain := by
  induction h with
  | name valid =>
    intro lit hlit
    simp [Node.preorder_eq, Node.children, Exp.children, Exp.ofName] at hlit
  | unary op _ ih =>
    apply numbersPlain_of_children
    · intro lit heq
      cases heq
    · intro m hm
      rw [List.mem_singleton.mp hm]
      exact ih
  | binary op _ _ ihleft ihright =>
    apply numbersPlain_of_children
    · intro lit heq
      cases heq
    · intro m hm
      rcases List.mem_cons.mp hm with rfl | hm
      · exact ihleft
      · rw [List.mem_singleton.mp hm]
        exact ihright
  | paren _ ih =>
    apply numbersPlain_of_children
    · intro lit heq
      cases heq
    · intro m hm
      rw [List.mem_singleton.mp hm]
      exact ih

/-! ## Texts -/

/-- What keeps an operator apart from the tokens after it, if these are those of its operand. -/
def gapBefore (op : UnOp) (rest : List Token) : List Item :=
  if op.isWord || (op == .negate && rest.head? == some UnOp.negate.token) then [.text " "] else []

/-- The items of the tokens of an operator tree, with a flag whether an operand comes next. -/
def spaced : Bool → List Token → List Item
  | _, [] => []
  | true, t :: rest =>
    match t.unOp?, t with
    | some op, _ => .text op.spelling :: gapBefore op rest ++ spaced true rest
    | none, .name n => .text n :: spaced false rest
    | none, _ => .text "(" :: spaced true rest
  | false, t :: rest =>
    match t.binOp? with
    | some op => .text " " :: .text op.spelling :: .text " " :: spaced true rest
    | none => .text ")" :: spaced false rest

theorem spaced_unOp (op : UnOp) (rest : List Token) :
    spaced true (op.token :: rest) = .text op.spelling :: gapBefore op rest ++ spaced true rest := by
  cases op <;> rfl

theorem spaced_binOp (op : BinOp) (rest : List Token) :
    spaced false (op.token :: rest) =
      .text " " :: .text op.spelling :: .text " " :: spaced true rest := by
  cases op <;> rfl

/-- An operator tree is written with a minus first if a minus is its first token. -/
theorem OperatorTree.startsWithMinus {e : Exp} (h : OperatorTree e) (rest : List Token) :
    ((e.tokens ++ rest).head? == some UnOp.negate.token) = e.startsWithMinus := by
  induction h generalizing rest with
  | name valid => rfl
  | unary op _ _ => cases op <;> rfl
  | binary op _ _ ihleft _ =>
    rw [Exp.tokens, List.append_assoc, Exp.startsWithMinus]
    exact ihleft _
  | paren _ _ => rfl

theorem gapBefore_tokens (op : UnOp) {operand : Exp} (h : OperatorTree operand) (rest : List Token) :
    gapBefore op (operand.tokens ++ rest) =
      if op.isWord || (op == .negate && operand.startsWithMinus) then [.text " "] else [] := by
  rw [gapBefore, h.startsWithMinus]

theorem BinOp.isEmpty_spelling (op : BinOp) : op.spelling.isEmpty = false := by
  cases op <;> decide

theorem UnOp.isEmpty_spelling (op : UnOp) : op.spelling.isEmpty = false := by
  cases op <;> decide

/-- An operator tree is laid out as its tokens say, whatever comes after it. -/
theorem OperatorTree.layout_eq {e : Exp} (h : OperatorTree e) (depth : Nat) :
    ∃ items, (Node.exp e).layout depth = ⟨items, none⟩ ∧
      ∀ rest, spaced true (e.tokens ++ rest) = items ++ spaced false rest := by
  induction h with
  | @name n valid =>
    have hfault : (Node.var (.name n)).fault? = none := by
      show n.fault? = none
      rw [Name.fault?, valid]
      rfl
    have hempty : n.isEmpty = false :=
      Bool.eq_false_iff.mpr fun h => Name.ne_empty_of_isValid valid (String.isEmpty_iff.mp h)
    have hvar : (Node.var (.name n)).layout depth = ⟨[.text n], none⟩ := by
      rw [Node.layout_of_none hfault]
      show layoutPieces depth [.text n] = _
      rw [layoutPieces_text hempty, layoutPieces]
      rfl
    refine ⟨[.text n], ?_, fun rest => rfl⟩
    -- on the way from the expression to the name nothing is written
    rw [Node.layout_of_none rfl]
    show (Node.prefixExp (.var (.name n))).layout depth = _
    rw [Node.layout_of_none rfl]
    exact hvar
  | @unary op operand hoperand ih =>
    obtain ⟨items, hlayout, hitems⟩ := ih
    refine ⟨.text op.spelling :: gapBefore op operand.tokens ++ items, ?_, fun rest => ?_⟩
    · have hgap := gapBefore_tokens op hoperand []
      rw [List.append_nil] at hgap
      rw [Node.layout_of_none rfl, hgap]
      show layoutPieces depth (Piece.text op.spelling :: unaryGap op operand ++ [Piece.node (.exp operand)]) = _
      rw [List.cons_append, layoutPieces_text op.isEmpty_spelling, unaryGap]
      split
      · rw [List.singleton_append, layoutPieces_text rfl]
        show Layout.cons _ (.cons _ ((Node.exp operand).layout depth)) = _
        rw [hlayout]
        rfl
      · show Layout.cons _ ((Node.exp operand).layout depth) = _
        rw [hlayout]
        rfl
    · have hgap := gapBefore_tokens op hoperand
      have hgap' := hgap []
      rw [List.append_nil] at hgap'
      rw [Exp.tokens, List.cons_append, spaced_unOp, hitems, hgap, hgap', List.cons_append,
        List.cons_append, List.cons_append, List.append_assoc]
  | @binary op left right _ _ ihleft ihright =>
    obtain ⟨items, hleft, hitems⟩ := ihleft
    obtain ⟨others, hright, hothers⟩ := ihright
    refine ⟨items ++ .text " " :: .text op.spelling :: .text " " :: others, ?_, fun rest => ?_⟩
    · rw [Node.layout_of_none rfl]
      show layoutPieces depth [.node (.exp left), .text " ", .text op.spelling, .text " ",
        .node (.exp right)] = _
      rw [layoutPieces_node, layoutPieces_text rfl, layoutPieces_text op.isEmpty_spelling,
        layoutPieces_text rfl, layoutPieces_node, hleft, hright, layoutPieces]
      simp [Layout.cons, Layout.empty]
    · rw [Exp.tokens, List.append_assoc, hitems, List.cons_append, spaced_binOp, hothers,
        List.append_assoc]
      rfl
  | @paren inner _ ih =>
    obtain ⟨items, hlayout, hitems⟩ := ih
    refine ⟨.text "(" :: items ++ [.text ")"], ?_, fun rest => ?_⟩
    · rw [Node.layout_of_none rfl]
      show layoutPieces depth [.text "(", .node (.exp inner), .text ")"] = _
      rw [layoutPieces_text rfl, layoutPieces_node, layoutPieces_text rfl, hlayout, layoutPieces]
      simp [Layout.cons, Layout.empty]
    · rw [Exp.tokens, List.cons_append, List.append_assoc]
      show Item.text "(" :: spaced true (inner.tokens ++ .symbol .closeParen :: rest) = _
      rw [hitems]
      show Item.text "(" :: (items ++ Item.text ")" :: spaced false rest) = _
      simp

/-- **What an operator tree is written as depends on its tokens alone.** -/
theorem OperatorTree.rootLayout_eq {e : Exp} (h : OperatorTree e) :
    (Node.exp e).rootLayout = ⟨spaced true e.tokens, none⟩ := by
  obtain ⟨items, hlayout, hitems⟩ := h.layout_eq 0
  have hend := hitems []
  rw [List.append_nil, spaced, List.append_nil] at hend
  rw [hend]
  exact hlayout

/-- An operator tree has a text. -/
theorem OperatorTree.unparse_eq {e : Exp} (h : OperatorTree e) (style : Style) :
    unparse (.exp e) style = .ok (String.join ((spaced true e.tokens).map style.write)) := by
  rw [unparse_eq_layout, h.rootLayout_eq]
  rfl

/-! ## Precedence -/

/-- How strongly operators hold their operands, on the left and on the right of one between two operands and
on the only side of one before its operand. None is too weak to stand outside all others. -/
structure Precedence where
  left : BinOp → Nat
  right : BinOp → Nat
  unary : Nat
  left_pos : ∀ op, 0 < left op

/-- The precedence of Lua: concatenation and powers group to the right, all others to the left, and what
stands before an operand holds it less strongly than a power. -/
def Precedence.lua : Precedence where
  left
    | .or => 1
    | .and => 2
    | .lt | .gt | .le | .ge | .ne | .eq => 3
    | .bitOr => 4
    | .bitXor => 5
    | .bitAnd => 6
    | .shiftLeft | .shiftRight => 7
    | .concat => 9
    | .add | .sub => 10
    | .mul | .div | .floorDiv | .mod => 11
    | .pow => 14
  right
    | .or => 1
    | .and => 2
    | .lt | .gt | .le | .ge | .ne | .eq => 3
    | .bitOr => 4
    | .bitXor => 5
    | .bitAnd => 6
    | .shiftLeft | .shiftRight => 7
    | .concat => 8
    | .add | .sub => 10
    | .mul | .div | .floorDiv | .mod => 11
    | .pow => 13
  unary := 12
  left_pos := by
    intro op
    cases op <;> decide

namespace Exp

/-- Whether the operators that are met first when the expression is read hold their operands more strongly
than the limit. -/
def opensAbove (p : Precedence) (limit : Nat) : Exp → Bool
  | .binary left op _ => decide (limit < p.left op) && left.opensAbove p limit
  | _ => true

/-- Whether the operators that are met last hold their operands at least as strongly as the operator after
them. -/
def closesBefore (p : Precedence) (next : BinOp) : Exp → Bool
  | .unary _ operand => decide (p.left next ≤ p.unary) && operand.closesBefore p next
  | .binary _ op right => decide (p.left next ≤ p.right op) && right.closesBefore p next
  | _ => true

/-- Whether the operators are grouped as the precedence says, so that no operand needs parentheses that it
does not have. -/
def isGrouped (p : Precedence) : Exp → Bool
  | .unary _ operand => operand.isGrouped p && operand.opensAbove p p.unary
  | .binary left op right =>
    left.isGrouped p && left.closesBefore p op &&
      (right.isGrouped p && right.opensAbove p (p.right op))
  | .paren inner => inner.isGrouped p
  | _ => true

/-- The outermost limit is below every operator. -/
theorem opensAbove_zero (p : Precedence) {e : Exp} (h : OperatorTree e) : e.opensAbove p 0 = true := by
  induction h with
  | binary op _ _ ihleft _ =>
    rw [opensAbove, ihleft, Bool.and_true]
    exact decide_eq_true (p.left_pos op)
  | _ => rfl

end Exp

/-! ## Reading -/

/-- How a reader groups tokens. It has a limit, below which an operator is none of its own, and after an
operand it has that operand; it gives an expression and the tokens that are left. -/
inductive Groups (p : Precedence) : Nat → Option Exp → List Token → Exp → List Token → Prop
  | name {limit : Nat} {n : Name} {ts rest : List Token} {e : Exp}
      (more : Groups p limit (some (.ofName n)) ts e rest) :
      Groups p limit none (.name n :: ts) e rest
  | unary {limit : Nat} {t : Token} {op : UnOp} {ts us rest : List Token} {operand e : Exp}
      (hop : t.unOp? = some op) (here : Groups p p.unary none ts operand us)
      (more : Groups p limit (some (.unary op operand)) us e rest) :
      Groups p limit none (t :: ts) e rest
  | paren {limit : Nat} {ts us rest : List Token} {inner e : Exp}
      (here : Groups p 0 none ts inner (.symbol .closeParen :: us))
      (more : Groups p limit (some (.paren inner)) us e rest) :
      Groups p limit none (.symbol .openParen :: ts) e rest
  | binary {limit : Nat} {t : Token} {op : BinOp} {ts us rest : List Token} {left right e : Exp}
      (hop : t.binOp? = some op) (hlimit : limit < p.left op)
      (here : Groups p (p.right op) none ts right us)
      (more : Groups p limit (some (.binary left op right)) us e rest) :
      Groups p limit (some left) (t :: ts) e rest
  | stop {limit : Nat} {ts : List Token} {e : Exp}
      (hlimit : ∀ t ∈ ts.head?, ∀ op, t.binOp? = some op → p.left op ≤ limit) :
      Groups p limit (some e) ts e ts

/-- **A reader that knows the precedence has no choice.** -/
theorem Groups.unique {p : Precedence} {limit : Nat} {left : Option Exp} {ts rest rest' : List Token}
    {e e' : Exp} (h : Groups p limit left ts e rest) (h' : Groups p limit left ts e' rest') :
    e = e' ∧ rest = rest' := by
  induction h generalizing e' rest' with
  | name _ ih =>
    cases h' with
    | name more' => exact ih more'
    | unary hop' => simp [Token.unOp?, UnOp.all, UnOp.token] at hop'
  | unary hop _ _ ihhere ihmore =>
    cases h' with
    | name => simp [Token.unOp?, UnOp.all, UnOp.token] at hop
    | unary hop' here' more' =>
      rw [hop] at hop'
      cases hop'
      obtain ⟨rfl, rfl⟩ := ihhere here'
      exact ihmore more'
    | paren => simp [Token.unOp?, UnOp.all, UnOp.token] at hop
  | paren _ _ ihhere ihmore =>
    cases h' with
    | unary hop' => simp [Token.unOp?, UnOp.all, UnOp.token] at hop'
    | paren here' more' =>
      obtain ⟨rfl, hrest⟩ := ihhere here'
      cases hrest
      exact ihmore more'
  | binary hop hlimit _ _ ihhere ihmore =>
    cases h' with
    | binary hop' _ here' more' =>
      rw [hop] at hop'
      cases hop'
      obtain ⟨rfl, rfl⟩ := ihhere here'
      exact ihmore more'
    | stop hlimit' =>
      -- an operator above the limit is read on
      have := hlimit' _ rfl _ hop
      omega
  | stop hlimit =>
    cases h' with
    | binary hop' hlimit' _ _ =>
      have := hlimit _ rfl _ hop'
      omega
    | stop _ => exact ⟨rfl, rfl⟩

/-- **A grouped tree is what the reader makes of its tokens**, before any tokens that it does not take in. -/
theorem groups_tokens {p : Precedence} {e f : Exp} {limit : Nat} {rest after : List Token}
    (h : OperatorTree e) (hgrouped : e.isGrouped p = true) (hopen : e.opensAbove p limit = true)
    (hclose : ∀ t ∈ rest.head?, ∀ op, t.binOp? = some op → e.closesBefore p op = true)
    (more : Groups p limit (some e) rest f after) : Groups p limit none (e.tokens ++ rest) f after := by
  induction h generalizing f limit rest after with
  | name _ => exact .name more
  | @unary op operand hoperand ih =>
    rw [Exp.isGrouped, Bool.and_eq_true] at hgrouped
    -- what comes after the operand holds it less strongly than the operator before it
    have hafter : ∀ t ∈ rest.head?, ∀ next, t.binOp? = some next →
        p.left next ≤ p.unary ∧ operand.closesBefore p next = true := by
      intro t ht next hnext
      have hboth := hclose t ht next hnext
      rw [Exp.closesBefore, Bool.and_eq_true] at hboth
      exact ⟨of_decide_eq_true hboth.1, hboth.2⟩
    have hstop : Groups p p.unary (some operand) rest operand rest :=
      .stop fun t ht next hnext => (hafter t ht next hnext).1
    have hread := ih hgrouped.1 hgrouped.2 (fun t ht next hnext => (hafter t ht next hnext).2) hstop
    exact .unary (Token.unOp?_token op) hread more
  | @binary op left right hleft hright ihleft ihright =>
    rw [Exp.isGrouped, Bool.and_eq_true, Bool.and_eq_true, Bool.and_eq_true] at hgrouped
    obtain ⟨⟨hgleft, hcleft⟩, hgright, horight⟩ := hgrouped
    rw [Exp.opensAbove, Bool.and_eq_true] at hopen
    have hafter : ∀ t ∈ rest.head?, ∀ next, t.binOp? = some next →
        p.left next ≤ p.right op ∧ right.closesBefore p next = true := by
      intro t ht next hnext
      have hboth := hclose t ht next hnext
      rw [Exp.closesBefore, Bool.and_eq_true] at hboth
      exact ⟨of_decide_eq_true hboth.1, hboth.2⟩
    have hstop : Groups p (p.right op) (some right) rest right rest :=
      .stop fun t ht next hnext => (hafter t ht next hnext).1
    have hread := ihright hgright horight (fun t ht next hnext => (hafter t ht next hnext).2) hstop
    have hmore : Groups p limit (some left) (op.token :: (right.tokens ++ rest)) f after :=
      .binary (Token.binOp?_token op) (of_decide_eq_true hopen.1) hread more
    rw [Exp.tokens, List.append_assoc, List.cons_append]
    refine ihleft hgleft hopen.2 ?_ hmore
    intro t ht next hnext
    cases ht
    rw [Token.binOp?_token] at hnext
    cases hnext
    exact hcleft
  | @paren inner hinner ih =>
    have hstop : Groups p 0 (some inner) (.symbol .closeParen :: rest) inner
        (.symbol .closeParen :: rest) := by
      refine .stop ?_
      rintro t ⟨⟩ next hnext
      simp [Token.binOp?, BinOp.all, BinOp.token] at hnext
    have hread : Groups p 0 none (inner.tokens ++ .symbol .closeParen :: rest) inner
        (.symbol .closeParen :: rest) := by
      refine ih hgrouped (inner.opensAbove_zero p hinner) ?_ hstop
      rintro t ⟨⟩ next hnext
      simp [Token.binOp?, BinOp.all, BinOp.token] at hnext
    rw [Exp.tokens, List.cons_append, List.append_assoc]
    exact .paren hread more

/-! ## Grouping -/

/-- A grouped tree is what the reader makes of its tokens and no others. -/
theorem groups_whole {p : Precedence} {e : Exp} (h : OperatorTree e) (hgrouped : e.isGrouped p = true) :
    Groups p 0 none e.tokens e [] := by
  rw [← List.append_nil e.tokens]
  refine groups_tokens h hgrouped (e.opensAbove_zero p h) (by rintro t ⟨⟩) (.stop ?_)
  rintro t ⟨⟩

/-- **Two operator trees have the same text exactly if they have the same tokens**, and if both are grouped as
one precedence says, whatever it is, they are then the same tree. -/
theorem same_text_iff_same_tokens {a b : Exp} (ha : OperatorTree a) (hb : OperatorTree b) :
    ∃ text other, unparse (.exp a) {} = .ok text ∧ unparse (.exp b) {} = .ok other ∧
      (text = other ↔ a.tokens = b.tokens) ∧
      ∀ p, a.isGrouped p = true → b.isGrouped p = true → text = other → a = b := by
  have htext := ha.unparse_eq {}
  have hother := hb.unparse_eq {}
  refine ⟨_, _, htext, hother, ?_⟩
  have htokens : unparse (.exp a) {} = unparse (.exp b) {} → a.tokens = b.tokens := by
    intro heq
    have hlex := lex?_of_unparse ha.numbersPlain htext
    have hlex' := lex?_of_unparse hb.numbersPlain hother
    rw [htext, hother] at heq
    rw [Except.ok.inj heq, hlex'] at hlex
    exact (Option.some.inj hlex).symm
  rw [htext, hother] at htokens
  refine ⟨⟨fun heq => htokens (congrArg _ heq), fun heq => by rw [heq]⟩, ?_⟩
  intro p hgrouped hgrouped' heq
  have hread := groups_whole ha hgrouped
  rw [htokens (congrArg _ heq)] at hread
  exact (hread.unique (groups_whole hb hgrouped')).1

/-- A sum with a product in it and a product with a sum in it have one text, and only the first of them is
grouped as Lua groups it. -/
theorem same_text_iff_same_tokens_sum :
    (∃ text other,
      unparse (.exp (.binary (.ofName "x") .add (.binary (.ofName "y") .mul (.ofName "z")))) {} =
        .ok text ∧
      unparse (.exp (.binary (.binary (.ofName "x") .add (.ofName "y")) .mul (.ofName "z"))) {} =
        .ok other ∧ text = other) ∧
    Exp.isGrouped .lua (.binary (.ofName "x") .add (.binary (.ofName "y") .mul (.ofName "z"))) = true ∧
    Exp.isGrouped .lua (.binary (.binary (.ofName "x") .add (.ofName "y")) .mul (.ofName "z")) =
      false := by
  have hx : OperatorTree (.ofName "x") := .name (by decide)
  have hy : OperatorTree (.ofName "y") := .name (by decide)
  have hz : OperatorTree (.ofName "z") := .name (by decide)
  obtain ⟨text, other, htext, hother, hiff, -⟩ :=
    same_text_iff_same_tokens (.binary .add hx (.binary .mul hy hz)) (.binary .mul (.binary .add hx hy) hz)
  exact ⟨⟨text, other, htext, hother, hiff.mpr rfl⟩, by decide, by decide⟩

/-- The text of operators and names does not fix the grouping. -/
theorem regrouped_same_text :
    OperatorTree (.binary (.binary (.ofName "x") .add (.ofName "y")) .mul (.ofName "z")) ∧
    OperatorTree (.binary (.ofName "x") .add (.binary (.ofName "y") .mul (.ofName "z"))) ∧
    unparse (.exp (.binary (.binary (.ofName "x") .add (.ofName "y")) .mul (.ofName "z"))) {} =
      .ok "x + y * z" ∧
    unparse (.exp (.binary (.ofName "x") .add (.binary (.ofName "y") .mul (.ofName "z")))) {} =
      .ok "x + y * z" ∧
    Exp.binary (.binary (.ofName "x") .add (.ofName "y")) .mul (.ofName "z") ≠
      .binary (.ofName "x") .add (.binary (.ofName "y") .mul (.ofName "z")) := by
  have hx : OperatorTree (.ofName "x") := .name (by decide)
  have hy : OperatorTree (.ofName "y") := .name (by decide)
  have hz : OperatorTree (.ofName "z") := .name (by decide)
  have hproduct : OperatorTree (.binary (.binary (.ofName "x") .add (.ofName "y")) .mul (.ofName "z")) :=
    .binary .mul (.binary .add hx hy) hz
  have hsum : OperatorTree (.binary (.ofName "x") .add (.binary (.ofName "y") .mul (.ofName "z"))) :=
    .binary .add hx (.binary .mul hy hz)
  refine ⟨hproduct, hsum, ?_, ?_, ?_⟩
  · rw [hproduct.unparse_eq]
    rfl
  · rw [hsum.unparse_eq]
    rfl
  · intro heq
    simp [Exp.ofName] at heq

end LuaUnparse
