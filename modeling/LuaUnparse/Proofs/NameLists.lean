import LuaUnparse.Proofs.DottedPath
import LuaUnparse.Proofs.Seam

/-!
# `LuaUnparse.Proofs.NameLists` — names with commas between them, checked at once or one by one

Names stand in lists of four kinds. A list of names and a parameter list check and write all their names
themselves. A list of variables and a list of expressions leave each of their members to a node of its own, which
checks its name when it is reached. As long as every name is valid nothing tells the two ways apart. Where one is
not, both report the first such name, but the names before it are written only where they were reached before it
was found.

## Contents
- **Texts.** `Unparser.Gives`, the fragments and the text of a tree at once; `ParList.texts` and `reachedTexts`.
- **At once.** `layout_nameList` and `layout_parList`: a node that checks all names before it writes any.
- **One by one.** `layout_separated`, by induction on the names, for nodes that are each written as their name.
- **Lists.** **`name_lists_alike`**.
-/

namespace LuaUnparse

/-! ## Texts -/

/-- A tree is written as these fragments and has this outcome: its text is the fragments together, or there is
none, but a fault after the fragments. -/
def Unparser.Gives (unparser : Unparser) (texts : List String) (outcome : Option Fault) : Prop :=
  unparser.fragments = texts.map .ok ++ outcome.toList.map .error ∧
    unparser.text =
      match outcome with
      | none => .ok (String.join texts)
      | some fault => .error fault

theorem gives_of_layout {root : Node} {texts : List String} {outcome : Option Fault}
    (h : root.rootLayout = ⟨texts.map .text, outcome⟩) (style : Style) :
    Unparser.Gives ⟨root, style⟩ texts outcome := by
  have htexts : root.rootLayout.texts style = texts := by
    rw [h, Layout.texts, List.map_map]
    exact List.map_id texts
  have hfault : root.rootLayout.fault = outcome := by rw [h]
  constructor
  · rw [fragments_eq_layout, Layout.fragments, htexts, hfault]
  · show unparse root style = _
    cases outcome with
    | none => simp only [unparse_eq_layout, Layout.text, htexts, hfault]
    | some fault => simp only [unparse_eq_layout, Layout.text, hfault]

/-- The texts of a parameter list. -/
def ParList.texts (params : ParList) : List String :=
  "(" :: params.names.intersperse ", " ++
    if params.vararg then [if params.names.isEmpty then "..." else ", ...", ")"] else [")"]

/-- The texts of names that are checked one by one: all names, with commas between them, or those before the
first one that is none, with a comma after each. -/
def reachedTexts (names : List Name) : List String :=
  match firstInvalid? names with
  | none => names.intersperse ", "
  | some _ => (names.takeWhile (·.isValid)).flatMap fun n => [n, ", "]

theorem isValid_of_some {name : Name} {fault : Fault} (h : name.fault? = some fault) :
    name.isValid = false := by
  unfold Name.fault? at h
  split at h
  · contradiction
  · next hvalid => exact Bool.eq_false_iff.mpr hvalid

theorem firstInvalid_eq_find? (names : List Name) :
    firstInvalid? names = (names.find? (!·.isValid)).map .invalidName := by
  rw [firstInvalid_eq_head?, List.head?_filter]

/-- Nothing is reached before a first name that is none. -/
theorem reachedTexts_of_some {name : Name} {fault : Fault} (h : name.fault? = some fault)
    (names : List Name) : reachedTexts (name :: names) = [] := by
  have hvalid : ¬ name.isValid = true := by rw [isValid_of_some h]; decide
  rw [reachedTexts, firstInvalid_cons, h, Option.some_or, List.takeWhile_cons_of_neg hvalid]
  rfl

/-- A valid name is reached, and so is the comma after it. -/
theorem reachedTexts_of_none {name : Name} (h : name.fault? = none) (next : Name) (names : List Name) :
    reachedTexts (name :: next :: names) = name :: ", " :: reachedTexts (next :: names) := by
  rw [reachedTexts, reachedTexts, firstInvalid_cons, h, Option.none_or]
  cases firstInvalid? (next :: names) with
  | none => exact List.intersperse_cons_cons
  | some fault =>
    show ((name :: next :: names).takeWhile _).flatMap _ = _
    rw [List.takeWhile_cons_of_pos (Name.isValid_of_fault h)]
    rfl

/-! ## At once -/

theorem namesShape_eq (names : List Name) : namesShape names = (names.intersperse ", ").map .text := by
  unfold namesShape separated
  induction names with
  | nil => rfl
  | cons name names ih =>
    cases names with
    | nil => rfl
    | cons next names =>
      rw [List.map_cons, List.map_cons, List.intersperse_cons_cons, ← List.map_cons, ih,
        List.intersperse_cons_cons]
      rfl

theorem eq_comma_or_mem {names : List Name} {t : String} (h : t ∈ names.intersperse ", ") :
    t = ", " ∨ t ∈ names := by
  induction names with
  | nil => contradiction
  | cons name names ih =>
    cases names with
    | nil => exact .inr h
    | cons next names =>
      rw [List.intersperse_cons_cons] at h
      rcases List.mem_cons.mp h with rfl | h
      · exact .inr List.mem_cons_self
      · rcases List.mem_cons.mp h with rfl | h
        · exact .inl rfl
        · exact (ih h).imp_right (List.mem_cons_of_mem name)

/-- Valid names and the commas between them are no empty texts. -/
theorem ne_empty_of_mem_intersperse {names : List Name} (h : firstInvalid? names = none) {t : String}
    (ht : t ∈ names.intersperse ", ") : t ≠ "" := by
  rcases eq_comma_or_mem ht with rfl | hname
  · decide
  · exact ne_empty_of_none (List.findSome?_eq_none_iff.mp h t hname)

theorem layout_nameList (names : List Name) :
    (Node.nameList names).rootLayout = .ofTexts (firstInvalid? names) (names.intersperse ", ") := by
  apply layout_of_texts
  · exact namesShape_eq names
  · exact fun h t ht => ne_empty_of_mem_intersperse h ht

theorem layout_parList (params : ParList) :
    (Node.parList params).rootLayout = .ofTexts (firstInvalid? params.names) params.texts := by
  obtain ⟨names, vararg⟩ := params
  apply layout_of_texts
  · cases vararg <;> simp [Node.shape, ParList.shape, ParList.texts, namesShape_eq]
  · intro h t ht
    rcases List.mem_append.mp ht with ht | ht
    · rcases List.mem_cons.mp ht with rfl | ht
      · decide
      · exact ne_empty_of_mem_intersperse h ht
    · have hclose : ∀ dots : String, dots ≠ "" → t ∈ [dots, ")"] → t ≠ "" := by
        intro dots hdots ht
        simp only [List.mem_cons, List.not_mem_nil, or_false] at ht
        rcases ht with rfl | rfl
        · exact hdots
        · decide
      cases vararg with
      | false => exact hclose ")" (by decide) (List.mem_cons_of_mem _ ht)
      | true => exact hclose _ (by split <;> decide) ht

/-! ## One by one -/

/-- **Members that are each written as their name.** The first name that is none ends the list where it is
reached, behind the comma after the name before it. -/
theorem layout_separated {part : Name → Node} {depth : Nat}
    (hpart : ∀ n, (part n).layout depth = .ofTexts n.fault? [n]) (names : List Name) :
    layoutPieces depth (separated (names.map fun n => .node (part n))) =
      ⟨(reachedTexts names).map .text, firstInvalid? names⟩ := by
  induction names with
  | nil =>
    rw [List.map_nil, separated, List.intersperse_nil, layoutPieces]
    rfl
  | cons name names ih =>
    rw [List.map_cons]
    cases hname : name.fault? with
    | some fault =>
      -- the first name is none, so nothing after it matters
      have hlayout : (part name).layout depth = ⟨[], some fault⟩ := by rw [hpart, hname]; rfl
      rw [separated_cons, layoutPieces_node, hlayout, reachedTexts_of_some hname, firstInvalid_cons, hname]
      rfl
    | none =>
      have hlayout : (part name).layout depth = ⟨[.text name], none⟩ := by rw [hpart, hname]; rfl
      cases names with
      | nil =>
        rw [List.map_nil, separated, List.intersperse_singleton, layoutPieces_node, hlayout, layoutPieces,
          reachedTexts, firstInvalid_cons, hname]
        rfl
      | cons next names =>
        rw [separated, List.map_cons] at ih
        rw [separated, List.map_cons, List.intersperse_cons_cons, layoutPieces_node, hlayout,
          layoutPieces_text rfl, ih, reachedTexts_of_none hname, firstInvalid_cons name, hname, Option.none_or]
        rfl

/-- A name as an expression is written as the variable. -/
theorem layout_nameExp (name : Name) (depth : Nat) :
    (Node.exp (.ofName name)).layout depth = .ofTexts name.fault? [name] := by
  have hexp : (Node.exp (.ofName name)).layout depth =
      (Node.prefixExp (.var (.name name))).layout depth := Node.layout_of_none rfl depth
  have hprefix : (Node.prefixExp (.var (.name name))).layout depth =
      (Node.var (.name name)).layout depth := Node.layout_of_none rfl depth
  rw [hexp, hprefix, layout_nameVar]

theorem layout_nameVars (names : List Name) :
    (Node.varList (names.map .name)).rootLayout = ⟨(reachedTexts names).map .text, firstInvalid? names⟩ := by
  have hlist : (Node.varList (names.map .name)).rootLayout =
      layoutPieces 0 (varsShape (names.map .name)) := Node.layout_of_none rfl 0
  rw [hlist, varsShape, List.map_map]
  exact layout_separated (fun n => layout_nameVar n 0) names

theorem layout_nameExps (names : List Name) :
    (Node.expList (names.map .ofName)).rootLayout =
      ⟨(reachedTexts names).map .text, firstInvalid? names⟩ := by
  have hlist : (Node.expList (names.map .ofName)).rootLayout =
      layoutPieces 0 (expsShape (names.map .ofName)) := Node.layout_of_none rfl 0
  rw [hlist, expsShape, List.map_map]
  exact layout_separated (fun n => layout_nameExp n 0) names

/-! ## Lists -/

/-- **Names with commas between them are written alike wherever they stand.** If every name is valid, a list of
names, a list of variables and a list of expressions have the same fragments, and a parameter list has them
between parentheses, with the dots behind them if there are any. Otherwise all of them fail at the first name
that is invalid. The lists that check their names at once have written nothing then, and the others all names
before it, with a comma after each. -/
theorem name_lists_alike (names : List Name) (style : Style) :
    match names.find? (!·.isValid) with
    | none =>
      let texts := names.intersperse ", "
      Unparser.Gives ⟨.nameList names, style⟩ texts none ∧
        Unparser.Gives ⟨.varList (names.map .name), style⟩ texts none ∧
        Unparser.Gives ⟨.expList (names.map .ofName), style⟩ texts none ∧
        Unparser.Gives ⟨.parList ⟨names, false⟩, style⟩ ("(" :: texts ++ [")"]) none ∧
        Unparser.Gives ⟨.parList ⟨names, true⟩, style⟩
          ("(" :: texts ++ [if names.isEmpty then "..." else ", ...", ")"]) none
    | some first =>
      let before := (names.takeWhile (·.isValid)).flatMap fun n => [n, ", "]
      Unparser.Gives ⟨.nameList names, style⟩ [] (some (.invalidName first)) ∧
        Unparser.Gives ⟨.parList ⟨names, false⟩, style⟩ [] (some (.invalidName first)) ∧
        Unparser.Gives ⟨.parList ⟨names, true⟩, style⟩ [] (some (.invalidName first)) ∧
        Unparser.Gives ⟨.varList (names.map .name), style⟩ before (some (.invalidName first)) ∧
        Unparser.Gives ⟨.expList (names.map .ofName), style⟩ before (some (.invalidName first)) := by
  have hfirst := firstInvalid_eq_find? names
  have hnames := layout_nameList names
  have hvars := layout_nameVars names
  have hexps := layout_nameExps names
  have hparams (vararg : Bool) := layout_parList ⟨names, vararg⟩
  cases hfind : names.find? (!·.isValid) with
  | none =>
    have hnone : firstInvalid? names = none := by rw [hfirst, hfind]; rfl
    simp only [reachedTexts, hnone] at hnames hvars hexps hparams
    exact ⟨gives_of_layout hnames style, gives_of_layout hvars style, gives_of_layout hexps style,
      gives_of_layout (hparams false) style, gives_of_layout (hparams true) style⟩
  | some first =>
    have hsome : firstInvalid? names = some (.invalidName first) := by rw [hfirst, hfind]; rfl
    simp only [reachedTexts, hsome] at hnames hvars hexps hparams
    exact ⟨gives_of_layout hnames style, gives_of_layout (hparams false) style,
      gives_of_layout (hparams true) style, gives_of_layout hvars style, gives_of_layout hexps style⟩

end LuaUnparse
