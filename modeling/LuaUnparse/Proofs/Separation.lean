import LuaUnparse.Proofs.Seam

/-!
# `LuaUnparse.Proofs.Separation` — the fragments of a run do not run together

A run gives its text in fragments. Whoever reads the text does not see where one fragment ends and the next
one begins, so no two fragments may meet in characters that would be read as one token, as a comment, a
long bracket, a number or a label. In a style whose line ends are white space they never do.

## Contents
- **White space.** `isBlank`, and `glues_of_isBlank`: white space keeps any two characters apart.
- **Pairs.** `fragments_never_glue`, for any two consecutive fragments of a run.
-/

namespace LuaUnparse

/-! ## White space -/

/-- The characters with the property `White_Space`. -/
def isBlank (c : Char) : Bool :=
  (0x9 ≤ c.toNat && c.toNat ≤ 0xd) || (0x2000 ≤ c.toNat && c.toNat ≤ 0x200a) ||
    [0x20, 0x85, 0xa0, 0x1680, 0x2028, 0x2029, 0x202f, 0x205f, 0x3000].contains c.toNat

/-- Only characters that are seen glue. -/
theorem toNat_of_glues {a b : Char} (h : Glues a b = true) :
    (0x21 ≤ a.toNat ∧ a.toNat < 0x7f) ∧ (0x21 ≤ b.toNat ∧ b.toNat < 0x7f) := by
  have hdigit : ∀ c : Char, c.isDigit = true → 0x21 ≤ c.toNat ∧ c.toNat < 0x7f := fun c hc => by
    have := toNat_of_isDigit hc
    omega
  have hpart : ∀ c, Name.isPart c = true → 0x21 ≤ c.toNat ∧ c.toNat < 0x7f := fun c hc => by
    rcases Name.isPart_iff.mp hc with hc | hc
    · have := Name.toNat_of_isStart hc
      omega
    · exact hdigit c hc
  simp only [Glues, Bool.or_eq_true, Bool.and_eq_true, beq_iff_eq] at h
  rcases h with ((((⟨ha, hb⟩ | ⟨rfl, rfl⟩) | ⟨rfl, rfl | rfl⟩) | ⟨rfl, rfl | hb⟩) | ⟨rfl, rfl⟩) |
    ⟨rfl, rfl⟩
  · exact ⟨hpart a ha, hpart b hb⟩
  · decide
  · decide
  · decide
  · decide
  · exact ⟨by decide, hdigit b hb⟩
  · decide
  · decide

/-- White space neither ends nor begins a pair of characters that glue. -/
theorem glues_of_isBlank {a b : Char} (h : isBlank a = true ∨ isBlank b = true) :
    Glues a b = false := by
  rw [Bool.eq_false_iff]
  intro hglues
  have := toNat_of_glues hglues
  simp [isBlank] at h
  omega

/-- A style that ends lines, and with nothing but white space. -/
def Style.IsBlank (style : Style) : Prop :=
  style.newLine ≠ "" ∧ style.newLine.toList.all isBlank = true ∧ style.indent.toList.all isBlank = true

theorem Style.IsBlank.lineBreak {style : Style} (h : style.IsBlank) (depth : Nat) :
    style.lineBreak depth ≠ "" ∧ (style.lineBreak depth).toList.all isBlank = true := by
  obtain ⟨hne, hline, hindent⟩ := h
  constructor
  · intro he
    have hlist : style.newLine.toList = [] := by
      have := congrArg String.toList he
      rw [Style.lineBreak_eq, String.toList_append] at this
      exact (List.append_eq_nil_iff.mp this).1
    exact hne (String.toList_eq_nil_iff.mp hlist)
  · have hdepth : (style.indentation depth).toList.all isBlank = true := by
      rw [Style.indentation, String.toList_join, List.all_flatMap]
      simp only [List.all_replicate, hindent]
      simp
    rw [Style.lineBreak_eq, String.toList_append, List.all_append, hline, hdepth]
    rfl

/-! ## Pairs -/

/-- The last and the first character of two texts do not glue. -/
def Apart (x y : String) : Prop :=
  ∃ a b, x.toList.getLast? = some a ∧ y.toList.head? = some b ∧ Glues a b = false

theorem apart_of_ne {x y : String} (hx : x ≠ "") (hy : y ≠ "")
    (h : ∀ a ∈ x.toList, ∀ b ∈ y.toList, x.toList.getLast? = some a → y.toList.head? = some b →
      Glues a b = false) : Apart x y := by
  have hx' : x.toList ≠ [] := fun he => hx (String.toList_eq_nil_iff.mp he)
  have hy' : y.toList ≠ [] := fun he => hy (String.toList_eq_nil_iff.mp he)
  exact ⟨x.toList.getLast hx', y.toList.head hy', List.getLast?_eq_some_getLast hx',
    List.head?_eq_some_head hy', h _ (List.getLast_mem hx') _ (List.head_mem hy')
      (List.getLast?_eq_some_getLast hx') (List.head?_eq_some_head hy')⟩

theorem glues_of_sticks {x : String} {a b : Char} (ha : x.toList.getLast? = some a)
    (h : Sticks x b = false) : Glues a b = false := by
  rw [Sticks, Bool.or_eq_false_iff, ha] at h
  have hmerge : Merges a b = false := h.1
  simp only [Merges, Bool.or_eq_false_iff] at hmerge
  exact hmerge.1.1.1.1

/-- Items next to each other in a seamless list are apart in a style of white space. -/
theorem apart_of_seamless {style : Style} (hs : style.IsBlank) {before : Option String} {i j : Item}
    {rest : List Item} (h : Seamless before (i :: j :: rest)) : Apart (style.write i) (style.write j) := by
  cases i with
  | lineBreak depth =>
    obtain ⟨hne, hblank⟩ := hs.lineBreak depth
    have hj : style.write j ≠ "" := by
      cases j with
      | lineBreak d => exact (hs.lineBreak d).1
      | text t => exact h.1
    refine apart_of_ne hne hj fun a ha b _ _ _ => ?_
    exact glues_of_isBlank (.inl (List.all_eq_true.mp hblank a ha))
  | text t =>
    cases j with
    | lineBreak depth =>
      obtain ⟨hne, hblank⟩ := hs.lineBreak depth
      refine apart_of_ne h.1 hne fun a _ b hb _ _ => ?_
      exact glues_of_isBlank (.inr (List.all_eq_true.mp hblank b hb))
    | text t' =>
      obtain ⟨ht, -, ht', hfollows, -⟩ := h
      refine apart_of_ne ht ht' fun a _ b _ ha hb => ?_
      exact glues_of_sticks ha (hfollows t rfl b hb)

/-- **Fragments never glue.** In a style whose line ends are not empty and hold only white space, as its
indentation does, and if the numbers of the tree are spelled as numbers, no two consecutive fragments of a
run, also of one that fails, meet in characters that would be read together. -/
theorem fragments_never_glue (unparser : Unparser) (hs : unparser.style.IsBlank)
    (hnum : unparser.root.NumbersSpelled) (x y : String)
    (h : [.ok x, .ok y] <:+: unparser.fragments) :
    ∃ a b, x.toList.getLast? = some a ∧ y.toList.head? = some b ∧ Glues a b = false := by
  obtain ⟨front, back, hsplit⟩ := h
  rw [fragments_eq_layout, Layout.fragments] at hsplit
  -- the texts among the fragments are the items of the layout in the style
  have htexts : front.filterMap Except.toOption ++ [x, y] ++ back.filterMap Except.toOption =
      unparser.root.rootLayout.items.map unparser.style.write := by
    have h := congrArg (List.filterMap Except.toOption) hsplit
    cases hf : unparser.root.rootLayout.fault with
    | none => simpa [hf, Layout.texts, Function.comp_def, Except.toOption] using h
    | some fault =>
      have hnone : [Except.error fault].filterMap (Except.toOption (α := String)) = [] := rfl
      simpa [hf, Layout.texts, Function.comp_def, Except.toOption, hnone] using h
  obtain ⟨is, js, hitems, his, -⟩ := List.map_eq_append_iff.mp htexts.symm
  obtain ⟨before, rest, rfl, -, hpair⟩ := List.map_eq_append_iff.mp his
  obtain ⟨i, last, rfl, rfl, hlast⟩ := List.map_eq_cons_iff.mp hpair
  obtain ⟨j, _, rfl, rfl, -⟩ := List.map_eq_cons_iff.mp hlast
  have hseam := seamless_rootLayout hnum
  rw [hitems, List.append_assoc, seamless_append] at hseam
  exact apart_of_seamless hs hseam.2

/-- A sign is kept apart from the operator before it. -/
theorem fragments_never_glue_signs :
    [.ok "-", .ok " "] <:+: (Unparser.mk (.exp (.unary .negate (.number ⟨"-1", 0⟩))) {}).fragments ∧
      ∃ a b, "-".toList.getLast? = some a ∧ " ".toList.head? = some b ∧ Glues a b = false := by
  have hlayout : (Node.exp (.unary .negate (.number ⟨"-1", 0⟩))).rootLayout =
      ⟨[.text "-", .text " ", .text "-1"], none⟩ := by decide +kernel
  have hfragments : [.ok "-", .ok " "] <:+:
      (Unparser.mk (.exp (.unary .negate (.number ⟨"-1", 0⟩))) {}).fragments := by
    rw [fragments_eq_layout, hlayout]
    exact ⟨[], [.ok "-1"], rfl⟩
  refine ⟨hfragments, fragments_never_glue _ ⟨by decide, by decide, by decide⟩ ?_ _ _ hfragments⟩
  intro lit hlit _
  simp [Node.preorder_eq, Node.children, Exp.children] at hlit
  subst hlit
  exact ⟨['-'], '1', [], rfl, .inr rfl, rfl⟩

end LuaUnparse
