import LuaUnparse.Proofs.Seam

/-!
# `LuaUnparse.Proofs.LeadingMinus` — whether an expression is written with a minus first

Two minus signs side by side begin a comment, so the rule for a negation looks ahead into its operand, before the
operand is laid out. The look-ahead goes down the left operands only and stops at every other construct. What it
says is what the text turns out to begin with: a call, an index or a member may begin with an expression again,
but with one in parentheses or with a name.

## Contents
- **Layouts.** `Layout.Begins`, whether a minus is the first character of a layout, for a text in front
  (`begins_text`) and for a node in front (`begins_node`).
- **Expressions.** `begins_exp`, by induction on the expression together with `begins_prefixExp`, `begins_var`
  and `begins_call`.
- **Texts.** `head_text`: the first character of the text of an expression; `unparse_negate`: the text of a
  negation.
- **Negations.** **`minus_look_ahead_exact`**.
-/

namespace LuaUnparse

/-! ## Layouts -/

/-- The first character of a text. -/
def Item.head? : Item → Option Char
  | .text t => t.toList.head?
  | .lineBreak _ => none

/-- The first character of a layout that begins with a text. -/
def Layout.head? (layout : Layout) : Option Char :=
  layout.items.head?.bind Item.head?

/-- A layout that comes to its end begins with a character, which is a minus exactly as said. -/
def Layout.Begins (layout : Layout) (minus : Bool) : Prop :=
  layout.fault = none → ∃ c, layout.head? = some c ∧ (c == '-') = minus

section

variable {depth : Nat} {minus : Bool}

theorem begins_text {t : String} {c : Char} {rest : List Piece} (ht : t.toList.head? = some c)
    (hc : (c == '-') = minus) : (layoutPieces depth (.text t :: rest)).Begins minus := by
  have hempty : t.isEmpty = false := by
    rw [Bool.eq_false_iff]
    intro hempty
    rw [String.isEmpty_iff.mp hempty] at ht
    contradiction
  rw [layoutPieces_text hempty]
  intro _
  exact ⟨c, ht, hc⟩

theorem Layout.head?_append {first : Layout} {c : Char} (h : first.head? = some c) (second : Layout) :
    (first ++ second).head? = some c := by
  obtain ⟨items, _ | fault⟩ := first
  · cases items with
    | nil => contradiction
    | cons item items => exact h
  · exact h

/-- What follows a node has no say in how the node begins. -/
theorem begins_node {n : Node} {rest : List Piece} (h : (n.layout depth).Begins minus) :
    (layoutPieces depth (.node n :: rest)).Begins minus := by
  rw [layoutPieces_node]
  intro hfault
  rw [Layout.append_fault, Option.or_eq_none_iff] at hfault
  obtain ⟨c, hhead, hc⟩ := h hfault.1
  exact ⟨c, Layout.head?_append hhead _, hc⟩

/-- A node begins as its shape does, and if it is at fault there is nothing to show. -/
theorem begins_of_shape {n : Node} (h : n.fault? = none → (layoutPieces depth n.shape).Begins minus) :
    (n.layout depth).Begins minus := by
  cases hn : n.fault? with
  | none =>
    rw [Node.layout_of_none hn]
    exact h hn
  | some fault =>
    rw [Node.layout_of_fault hn]
    exact fun hnone => absurd hnone (Option.some_ne_none fault)

theorem begins_name {name : Name} {rest : List Piece} (h : name.fault? = none) :
    (layoutPieces depth (.text name :: rest)).Begins false := by
  obtain ⟨⟨c, hc, hstart⟩, -⟩ := Name.ends_of_isValid (Name.isValid_of_fault h)
  have hne : c ≠ '-' := by
    rintro rfl
    exact absurd hstart (by decide)
  exact begins_text hc (by simpa using hne)

theorem begins_table (fields : List Field) : (layoutPieces depth (tableShape fields)).Begins false := by
  unfold tableShape
  split
  · exact begins_text rfl rfl
  · exact begins_text rfl rfl

end

/-! ## Expressions -/

mutual

/-- **An expression begins with a minus exactly as the look-ahead says.** -/
theorem begins_exp (e : Exp) (depth : Nat) : ((Node.exp e).layout depth).Begins e.startsWithMinus := by
  apply begins_of_shape
  intro hnone
  cases e with
  | nil => exact begins_text rfl rfl
  | bool value =>
    cases value
    · exact begins_text rfl rfl
    · exact begins_text rfl rfl
  | vararg => exact begins_text rfl rfl
  | number lit =>
    -- the digits are not empty, and the look-ahead reads their first character
    have hdigits : lit.raw.toList ≠ [] := by
      intro hempty
      have hraw : lit.raw = "" := String.toList_eq_nil_iff.mp hempty
      simp [Node.fault?, Exp.fault?, hraw] at hnone
    obtain ⟨c, rest, hchars⟩ := List.exists_cons_of_ne_nil hdigits
    have hhead : lit.raw.toList.head? = some c := by rw [hchars, List.head?_cons]
    apply begins_text hhead
    rw [Exp.startsWithMinus, hhead]
    rfl
  | string lit => exact begins_text rfl rfl
  | unary op operand => cases op <;> exact begins_text rfl rfl
  | binary left op right => exact begins_node (begins_exp left depth)
  | function body => exact begins_text rfl rfl
  | paren inner => exact begins_text rfl rfl
  | table fields => exact begins_table fields
  | prefixed inner => exact begins_node (begins_prefixExp inner depth)
termination_by structural e

theorem begins_prefixExp (e : PrefixExp) (depth : Nat) :
    ((Node.prefixExp e).layout depth).Begins false := by
  apply begins_of_shape
  intro _
  cases e with
  | var v => exact begins_node (begins_var v depth)
  | call c => exact begins_node (begins_call c depth)
  | paren inner => exact begins_text rfl rfl
termination_by structural e

theorem begins_var (v : Var) (depth : Nat) : ((Node.var v).layout depth).Begins false := by
  apply begins_of_shape
  intro hnone
  cases v with
  | name name => exact begins_name hnone
  | index base key => exact begins_node (begins_prefixExp base depth)
  | member base name => exact begins_node (begins_prefixExp base depth)
termination_by structural v

theorem begins_call (c : Call) (depth : Nat) : ((Node.call c).layout depth).Begins false := by
  apply begins_of_shape
  intro _
  cases c with
  | normal callee args => exact begins_node (begins_prefixExp callee depth)
  | method object name args => exact begins_node (begins_prefixExp object depth)
termination_by structural c

end

/-! ## Texts -/

/-- The first character of a layout is that of its text. -/
theorem head_text {layout : Layout} {style : Style} {text : String} {c : Char}
    (htext : layout.text style = .ok text) (hhead : layout.head? = some c) :
    text.toList.head? = some c := by
  obtain ⟨items, _ | fault⟩ := layout
  · obtain rfl : String.join (items.map style.write) = text := Except.ok.inj htext
    cases items with
    | nil => contradiction
    | cons item items =>
      cases item with
      | lineBreak depth => contradiction
      | text t =>
        have ht : t.toList.head? = some c := hhead
        rw [List.map_cons, String.join_cons, String.toList_append, List.head?_append]
        show t.toList.head?.or _ = some c
        rw [ht, Option.some_or]
  · contradiction

theorem fault_of_text {layout : Layout} {style : Style} {text : String}
    (h : layout.text style = .ok text) : layout.fault = none := by
  obtain ⟨items, _ | fault⟩ := layout
  · rfl
  · contradiction

theorem text_cons (style : Style) (t : String) (layout : Layout) :
    Layout.text style (.cons (.text t) layout) = (layout.text style).map (t ++ ·) := by
  obtain ⟨items, _ | fault⟩ := layout
  · show Except.ok (String.join (t :: items.map style.write)) = _
    rw [String.join_cons]
    rfl
  · rfl

/-- A negation is written as a minus, a blank if the look-ahead asks for one, and its operand. It fails exactly
if the operand fails. -/
theorem unparse_negate (e : Exp) (style : Style) :
    unparse (.exp (.unary .negate e)) style =
      (unparse (.exp e) style).map fun text => (if e.startsWithMinus then "- " else "-") ++ text := by
  have hshape : (Node.exp (.unary .negate e)).rootLayout =
      .cons (.text "-") (layoutPieces 0 (unaryGap .negate e ++ [.node (.exp e)])) := by
    rw [← layoutPieces_text rfl]
    exact Node.layout_of_none rfl 0
  rw [unparse_eq_layout, unparse_eq_layout, hshape, text_cons, unaryGap]
  cases hminus : e.startsWithMinus with
  | true =>
    show Except.map _ (Layout.text style (layoutPieces 0 (.text " " :: [.node (.exp e)]))) = _
    rw [layoutPieces_text rfl, text_cons]
    show Except.map _ (Except.map _ (Layout.text style (Node.exp e).rootLayout)) = _
    cases Layout.text style (Node.exp e).rootLayout with
    | error fault => rfl
    | ok text =>
      show Except.ok ("-" ++ (" " ++ text)) = .ok ("- " ++ text)
      rw [← String.append_assoc]
      rfl
  | false => rfl

/-! ## Negations -/

/-- **The look-ahead of a negation is exact.** An expression that has a text is said to be written with a minus
first exactly if its text begins with one, in every style. So the text of its negation is a minus and the text,
with a blank in between exactly if the text begins with a minus, and never begins with two. -/
theorem minus_look_ahead_exact {e : Exp} {style : Style} {text : String}
    (h : unparse (.exp e) style = .ok text) :
    (e.startsWithMinus = true ↔ text.toList.head? = some '-') ∧
      ∃ negated, unparse (.exp (.unary .negate e)) style = .ok negated ∧
        negated = (if text.toList.head? = some '-' then "- " ++ text else "-" ++ text) ∧
        ¬ ['-', '-'] <+: negated.toList := by
  have htext : Layout.text style (Node.exp e).rootLayout = .ok text := by rw [← unparse_eq_layout, h]
  obtain ⟨c, hhead, hc⟩ := begins_exp e 0 (fault_of_text htext)
  have hfirst : text.toList.head? = some c := head_text htext hhead
  have hiff : e.startsWithMinus = true ↔ text.toList.head? = some '-' := by
    rw [← hc, hfirst, beq_iff_eq, Option.some_inj]
  refine ⟨hiff, _, by rw [unparse_negate, h]; rfl, ?_, ?_⟩
  · split
    · next hminus => rw [if_pos (hiff.mp hminus)]
    · next hminus => rw [if_neg (hminus ∘ hiff.mpr)]
  · split
    · -- the second character is the blank
      simp
    · next hminus =>
      -- the second character is the first one of the operand
      intro hprefix
      obtain ⟨rest, hrest⟩ : ['-'] <+: text.toList := by simpa using hprefix
      have hminus' : text.toList.head? = some '-' := by rw [← hrest]; rfl
      exact hminus (hiff.mpr hminus')

/-- The minus of a sum that begins with a negation. -/
theorem minus_look_ahead_exact_sum :
    unparse (.exp (.binary (.unary .negate (.ofName "x")) .add (.ofName "y"))) {} = .ok "-x + y" ∧
      ∃ negated,
        unparse (.exp (.unary .negate (.binary (.unary .negate (.ofName "x")) .add (.ofName "y")))) {} =
          .ok negated ∧ negated = "- -x + y" := by
  have hlayout : (Node.exp (.binary (.unary .negate (.ofName "x")) .add (.ofName "y"))).rootLayout =
      ⟨[.text "-", .text "x", .text " ", .text "+", .text " ", .text "y"], none⟩ := by decide +kernel
  have htext : unparse (.exp (.binary (.unary .negate (.ofName "x")) .add (.ofName "y"))) {} =
      .ok "-x + y" := by
    rw [unparse_eq_layout, hlayout]
    rfl
  obtain ⟨-, negated, hnegated, heq, -⟩ := minus_look_ahead_exact htext
  exact ⟨htext, negated, hnegated, heq⟩

end LuaUnparse
