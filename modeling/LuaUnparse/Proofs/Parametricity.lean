import LuaUnparse.Proofs.Refinement
import Mathlib.Data.List.Forall2

/-!
# `LuaUnparse.Proofs.Parametricity` — a style only fills in the line breaks

A run takes its way through a tree without a look at the style: where a text comes, where a line ends and
how deep the next one stands, and which node is at fault, is the same in every style. The style enters
where a line break becomes a text, and nowhere else. So two runs of one tree go side by side, whatever
their styles are, also if a line break or its indentation is empty.

## Contents
- **Texts.** `Layout.Filled`: no text of a layout is empty (`filled_layoutPieces`).
- **Styles.** `Style.fillIn`, an item in a style, and `Event.Corresponds`, for events of two styles.
- **Runs.** **`style_fills_line_breaks`**, for all styles at once and for any two of them.
-/

namespace LuaUnparse

/-! ## Texts -/

/-- No text among the items is empty. -/
def Layout.Filled (layout : Layout) : Prop :=
  ∀ text, .text text ∈ layout.items → text ≠ ""

namespace Layout

theorem filled_empty : Layout.empty.Filled := by
  intro text h
  exact absurd h (by simp [empty])

theorem filled_fault (fault : Fault) : (⟨[], some fault⟩ : Layout).Filled := by
  intro text h
  exact absurd h (by simp)

theorem Filled.cons {item : Item} {layout : Layout} (hitem : ∀ text, item = .text text → text ≠ "")
    (h : layout.Filled) : (cons item layout).Filled := by
  intro text hmem
  rcases List.mem_cons.mp hmem with hhead | hrest
  · exact hitem text hhead.symm
  · exact h text hrest

theorem Filled.append {first second : Layout} (h : first.Filled) (hs : second.Filled) :
    (first ++ second).Filled := by
  obtain ⟨items, _ | fault⟩ := first
  · intro text hmem
    rcases List.mem_append.mp hmem with hfirst | hsecond
    · exact h text hfirst
    · exact hs text hsecond
  · exact h

end Layout

/-- **No text of a layout is empty**: one that is is passed over. -/
theorem filled_layoutPieces (depth : Nat) (ps : List Piece) : (layoutPieces depth ps).Filled := by
  fun_induction layoutPieces depth ps with
  | case1 depth => exact Layout.filled_empty
  | case2 depth t rest hempty ih => exact ih
  | case3 depth t rest hempty ih =>
    refine Layout.Filled.cons ?_ ih
    intro text htext
    obtain rfl := Item.text.inj htext
    exact fun h => hempty (String.isEmpty_iff.mpr h)
  | case4 depth rest ih => exact Layout.Filled.cons (fun text htext => nomatch htext) ih
  | case5 depth rest ih => exact ih
  | case6 depth rest ih => exact ih
  | case7 depth n rest pieces hn hlt ih ihRest => exact ih.append ihRest
  | case8 depth n rest fault hn => exact Layout.filled_fault fault

/-! ## Styles -/

/-- The text of an item. A line break is the line end of the style, and its indentation once for each
level. -/
def Style.fillIn (style : Style) : Item → String
  | .text text => text
  | .lineBreak depth => style.newLine ++ String.join (List.replicate depth style.indent)

/-- A run spells an item so, whether it takes the short way for lines that have no indentation or not. -/
theorem write_eq_fillIn (style : Style) (item : Item) : style.write item = style.fillIn item := by
  cases item with
  | text text => rfl
  | lineBreak depth => exact style.lineBreak_eq depth

/-- Events of two runs that stand for the same: one text, line breaks of one depth, or one outcome. -/
inductive Event.Corresponds (style style' : Style) : Event → Event → Prop
  | start : Corresponds style style' .start .start
  | text {text : String} (h : text ≠ "") : Corresponds style style' (.data text) (.data text)
  | lineBreak (depth : Nat) : Corresponds style style'
      (.data (style.fillIn (.lineBreak depth))) (.data (style'.fillIn (.lineBreak depth)))
  | ending (outcome : Option Fault) : Corresponds style style' (.ending outcome) (.ending outcome)

/-- The events of one item in two styles. -/
theorem corresponds_item {item : Item} (h : ∀ text, item = .text text → text ≠ "")
    (style style' : Style) :
    Event.Corresponds style style' (.data (style.fillIn item)) (.data (style'.fillIn item)) := by
  cases item with
  | text text => exact .text (h text rfl)
  | lineBreak depth => exact .lineBreak depth

/-! ## Runs -/

/-- **A style only fills in the line breaks.** To a tree belongs one list of items, texts that are not empty
and line breaks of some depth, and one outcome. In every style the events of a run are a start, the items as
the style fills them in, and the outcome. So in any two styles there are as many events, and the events at
the same place stand for the same. -/
theorem style_fills_line_breaks (root : Node) :
    ∃ (items : List Item) (outcome : Option Fault),
      (∀ text, .text text ∈ items → text ≠ "") ∧
      (∀ style, Unparser.events ⟨root, style⟩ =
        .start :: items.map (fun item => .data (style.fillIn item)) ++ [.ending outcome]) ∧
      ∀ style style',
        (Unparser.events ⟨root, style⟩).length = (Unparser.events ⟨root, style'⟩).length ∧
        List.Forall₂ (Event.Corresponds style style')
          (Unparser.events ⟨root, style⟩) (Unparser.events ⟨root, style'⟩) := by
  have hfilled : root.rootLayout.Filled := filled_layoutPieces 0 root.opening
  have hevents : ∀ style, Unparser.events ⟨root, style⟩ =
      .start :: root.rootLayout.items.map (fun item => .data (style.fillIn item)) ++
        [.ending root.rootLayout.fault] := by
    intro style
    simp only [← write_eq_fillIn]
    rw [Unparser.events, drain_events_start, drain_events_writing]
    rfl
  refine ⟨root.rootLayout.items, root.rootLayout.fault, hfilled, hevents, ?_⟩
  intro style style'
  have hpairs : List.Forall₂ (Event.Corresponds style style')
      (Unparser.events ⟨root, style⟩) (Unparser.events ⟨root, style'⟩) := by
    rw [hevents style, hevents style']
    refine .cons .start (List.rel_append ?_ (.cons (.ending _) .nil))
    rw [List.forall₂_map_left_iff, List.forall₂_map_right_iff, List.forall₂_same]
    intro item hitem
    exact corresponds_item (fun text htext => hfilled text (htext ▸ hitem)) style style'
  exact ⟨hpairs.length_eq, hpairs⟩

/-- With neither a line end nor an indentation, line breaks still come, as empty texts. -/
example : Unparser.events ⟨.stat (.block [.breakLoop]), "", ""⟩ =
    [.start, .data "do", .data "", .data "break", .data "", .data "end", .finish] := by
  decide +kernel

end LuaUnparse
