import LuaUnparse.Proofs.Failure
import Mathlib.Data.List.Induction

/-!
# `LuaUnparse.Proofs.DottedPath` — a function name is written as the expression for it

The name of a function, a base with fields and perhaps a method, is one node that writes all its parts itself.
The expression that stands for the same function is a tree as deep as the name is long, with the last name at
its root. Both are written alike. But of several names that are none the first one is found in the name of the
function, and the last one in the expression, where a node checks its name before all that is on its left.

## Contents
- **Names.** `firstInvalid_eq_head?`: which of the names is found.
- **Paths.** `pathVar`, the variable for a base and fields, and `FuncName.asNode`, the expression for a function
  name.
- **Layouts.** `Layout.ofTexts`, and `layout_pathVar`: by induction from the last field, with the texts after a
  variable as `layout_of_suffix` puts them there. So `layout_funcName` and `layout_asNode`.
- **Runs.** **`dotted_path_alike`**.
-/

namespace LuaUnparse

/-! ## Names -/

theorem firstInvalid_cons (name : Name) (names : List Name) :
    firstInvalid? (name :: names) = name.fault?.or (firstInvalid? names) := by
  rw [firstInvalid?, List.findSome?_cons]
  cases name.fault? <;> rfl

/-- The first fault is that of the first name that is none. -/
theorem firstInvalid_eq_head? (names : List Name) :
    firstInvalid? names = (names.filter (!·.isValid)).head?.map .invalidName := by
  induction names with
  | nil => rfl
  | cons name names ih =>
    rw [firstInvalid_cons, ih, Name.fault?]
    cases hvalid : name.isValid <;> simp [hvalid]

/-- A name that passes its check has a text. -/
theorem ne_empty_of_none {name : Name} (h : name.fault? = none) : name ≠ "" := by
  rintro rfl
  exact absurd h (by decide)

/-! ## Paths -/

/-- The texts of a base and of the fields reached from it. -/
def pathTexts (base : Name) (indexers : List Name) : List String :=
  base :: indexers.flatMap fun n => [".", n]

/-- The texts of a function name. -/
def FuncName.texts (name : FuncName) : List String :=
  pathTexts name.base name.indexers ++ name.method.toList.flatMap fun n => [":", n]

/-- The variable for a base and the fields reached from it: each field is a member of what comes before. -/
def pathVar (base : Name) (indexers : List Name) : Var :=
  indexers.foldl (fun v n => .member (.var v) n) (.name base)

/-- The expression for a function name: a variable, or the call of a method without arguments. -/
def FuncName.asNode (name : FuncName) : Node :=
  match name.method with
  | none => .var (pathVar name.base name.indexers)
  | some m => .call (.method (.var (pathVar name.base name.indexers)) m (.list []))

theorem pathTexts_snoc (base : Name) (indexers : List Name) (last : Name) :
    pathTexts base (indexers ++ [last]) = pathTexts base indexers ++ [".", last] := by
  simp [pathTexts]

theorem eq_or_mem_of_mem_texts {name : FuncName} {t : String} (h : t ∈ name.texts) :
    t = "." ∨ t = ":" ∨ t ∈ name.names := by
  simp only [FuncName.texts, pathTexts, List.mem_append, List.mem_cons, List.mem_flatMap,
    List.not_mem_nil, or_false] at h
  simp only [FuncName.names, List.mem_append, List.mem_cons]
  grind

theorem pathVar_snoc (base : Name) (indexers : List Name) (last : Name) :
    pathVar base (indexers ++ [last]) = .member (.var (pathVar base indexers)) last := by
  simp [pathVar]

/-! ## Layouts -/

/-- Texts, and the fault that there may be instead of them. -/
def Layout.ofTexts (fault : Option Fault) (texts : List String) : Layout :=
  match fault with
  | none => ⟨texts.map .text, none⟩
  | some fault => ⟨[], some fault⟩

theorem fragments_ofTexts (style : Style) (fault : Option Fault) (texts : List String) :
    (Layout.ofTexts fault texts).fragments style =
      match fault with
      | none => texts.map .ok
      | some fault => [.error fault] := by
  cases fault with
  | none => simp [Layout.ofTexts, Layout.fragments, Layout.texts, Function.comp_def, Style.write]
  | some fault => rfl

/-- Texts that are not empty are laid out as they are. -/
theorem layoutPieces_texts (depth : Nat) {texts : List String} (h : ∀ t ∈ texts, t ≠ "") :
    layoutPieces depth (texts.map .text) = ⟨texts.map .text, none⟩ := by
  induction texts with
  | nil =>
    rw [List.map_nil, layoutPieces]
    rfl
  | cons t texts ih =>
    rw [List.forall_mem_cons] at h
    have htext : t.isEmpty = false := Bool.eq_false_iff.mpr (h.1 ∘ String.isEmpty_iff.mp)
    rw [List.map_cons, layoutPieces_text htext, ih h.2]
    rfl

theorem ofTexts_append (fault : Option Fault) (texts more : List String) :
    Layout.ofTexts fault texts ++ ⟨more.map .text, none⟩ = .ofTexts fault (texts ++ more) := by
  cases fault with
  | none => simp [Layout.ofTexts]
  | some fault => rfl

/-- A node without children is written as its texts. -/
theorem layout_of_texts {n : Node} {texts : List String} (hshape : n.shape = texts.map .text)
    (htexts : n.fault? = none → ∀ t ∈ texts, t ≠ "") (depth : Nat) :
    n.layout depth = .ofTexts n.fault? texts := by
  cases hn : n.fault? with
  | some fault => exact Node.layout_of_fault hn depth
  | none =>
    rw [Node.layout_of_none hn, hshape, layoutPieces_texts depth (htexts hn)]
    rfl

/-- A node that puts texts after a variable, and checks a name before the variable is reached. -/
theorem layout_of_suffix {n : Node} {v : Var} {last : Name} {suffix : List Piece} {depth : Nat}
    {fault : Option Fault} {texts more : List String} (hfault : n.fault? = last.fault?)
    (hshape : n.shape = .node (.prefixExp (.var v)) :: suffix)
    (hvar : (Node.var v).layout depth = .ofTexts fault texts)
    (hsuffix : last.fault? = none → layoutPieces depth suffix = ⟨more.map .text, none⟩) :
    n.layout depth = .ofTexts (last.fault?.or fault) (texts ++ more) := by
  cases hlast : last.fault? with
  | some invalid => exact Node.layout_of_fault (hfault.trans hlast) depth
  | none =>
    have hinner : (Node.prefixExp (.var v)).layout depth = (Node.var v).layout depth :=
      Node.layout_of_none rfl depth
    rw [Node.layout_of_none (hfault.trans hlast), hshape, layoutPieces_node, hinner, hvar, hsuffix hlast,
      ofTexts_append]
    rfl

theorem layout_nameVar (name : Name) (depth : Nat) :
    (Node.var (.name name)).layout depth = .ofTexts name.fault? [name] :=
  layout_of_texts rfl (fun h => by simpa using ne_empty_of_none h) depth

/-- **A variable for a path is written as the path**, unless one of the names is none. The one on the right is
found first. -/
theorem layout_pathVar (depth : Nat) (base : Name) (indexers : List Name) :
    (Node.var (pathVar base indexers)).layout depth =
      .ofTexts (firstInvalid? (base :: indexers).reverse) (pathTexts base indexers) := by
  induction indexers using List.reverseRecOn with
  | nil =>
    rw [List.reverse_singleton, firstInvalid_cons, firstInvalid?, List.findSome?_nil, Option.or_none]
    exact layout_nameVar base depth
  | append_singleton indexers last ih =>
    -- the last field is at the root of the variable, so it is checked first and written last
    rw [pathVar_snoc, pathTexts_snoc, ← List.cons_append, List.reverse_append, List.reverse_singleton,
      List.singleton_append, firstInvalid_cons]
    apply layout_of_suffix rfl rfl ih
    intro hlast
    have htexts : ∀ t ∈ [".", last], t ≠ "" := by simp [ne_empty_of_none hlast]
    exact layoutPieces_texts depth htexts

/-- The expression for a function name is written as the name, with an empty argument list after a method. -/
theorem layout_asNode (name : FuncName) :
    name.asNode.rootLayout = .ofTexts (firstInvalid? name.names.reverse)
      (name.texts ++ if name.method.isSome then ["(", ")"] else []) := by
  obtain ⟨base, indexers, method⟩ := name
  have hpath := layout_pathVar 0 base indexers
  cases method with
  | none =>
    simp only [FuncName.asNode, FuncName.names, FuncName.texts, Option.toList_none, List.append_nil,
      List.flatMap_nil, Option.isSome_none, Bool.false_eq_true, if_false]
    exact hpath
  | some m =>
    have hnames : (FuncName.names ⟨base, indexers, some m⟩).reverse = m :: (base :: indexers).reverse := by
      simp [FuncName.names]
    have htexts : (FuncName.texts ⟨base, indexers, some m⟩ ++
        if (some m).isSome then ["(", ")"] else []) = pathTexts base indexers ++ [":", m, "(", ")"] := by
      simp [FuncName.texts]
    rw [hnames, htexts, firstInvalid_cons]
    apply layout_of_suffix rfl rfl hpath
    intro hm
    have htext : m.isEmpty = false := Bool.eq_false_iff.mpr (ne_empty_of_none hm ∘ String.isEmpty_iff.mp)
    have hargs : (Node.args (.list [])).layout 0 = ⟨[.text "(", .text ")"], none⟩ := by decide +kernel
    show layoutPieces 0 (.text ":" :: .text m :: [.node (.args (.list []))]) = _
    rw [layoutPieces_text rfl, layoutPieces_text htext, ← Node.layout, hargs]
    rfl

/-- A function name is written as its texts, unless one of its names is none. The one on the left is found
first. -/
theorem layout_funcName (name : FuncName) :
    (Node.funcName name).rootLayout = .ofTexts (firstInvalid? name.names) name.texts := by
  apply layout_of_texts
  · simp [Node.shape, FuncName.shape, FuncName.texts, pathTexts, List.map_flatMap]
  · intro hnames t ht
    have hvalid : ∀ n ∈ name.names, n.fault? = none := List.findSome?_eq_none_iff.mp hnames
    rcases eq_or_mem_of_mem_texts ht with rfl | rfl | hname
    · decide
    · decide
    · exact ne_empty_of_none (hvalid t hname)

/-! ## Runs -/

/-- **A dotted path is written alike as the name of a function and as an expression.** The one has a text exactly
if the other one has, that is, if every name in it is valid. Then the fragments are the same, and after them the
expression for a method has an empty argument list. Otherwise neither run writes anything: the name of the
function fails at the first name that is invalid, and the expression at the last one. -/
theorem dotted_path_alike (name : FuncName) (style : Style) :
    ((∃ text, unparse (.funcName name) style = .ok text) ↔
      ∃ text, unparse name.asNode style = .ok text) ∧
    match name.names.filter (!·.isValid) with
    | [] =>
      Unparser.fragments ⟨.funcName name, style⟩ = name.texts.map .ok ∧
        Unparser.fragments ⟨name.asNode, style⟩ =
          (name.texts ++ if name.method.isSome then ["(", ")"] else []).map .ok
    | first :: rest =>
      let last := (first :: rest).getLast (List.cons_ne_nil first rest)
      Unparser.fragments ⟨.funcName name, style⟩ = [.error (.invalidName first)] ∧
        Unparser.fragments ⟨name.asNode, style⟩ = [.error (.invalidName last)] ∧
        (Fault.invalidName first).kind = .name ∧ (Fault.invalidName last).kind = .name := by
  have hreverse : firstInvalid? name.names.reverse =
      (name.names.filter (!·.isValid)).getLast?.map .invalidName := by
    rw [firstInvalid_eq_head?, List.filter_reverse, List.head?_reverse]
  rw [unparse_eq_layout, unparse_eq_layout, fragments_eq_layout, fragments_eq_layout, layout_funcName,
    layout_asNode, fragments_ofTexts, fragments_ofTexts, hreverse, firstInvalid_eq_head?]
  cases name.names.filter (!·.isValid) with
  | nil =>
    refine ⟨?_, rfl, rfl⟩
    exact iff_of_true ⟨_, rfl⟩ ⟨_, rfl⟩
  | cons first rest =>
    rw [List.getLast?_eq_some_getLast (List.cons_ne_nil first rest)]
    refine ⟨?_, rfl, rfl, rfl, rfl⟩
    exact iff_of_false (by simp [Layout.ofTexts, Layout.text]) (by simp [Layout.ofTexts, Layout.text])

end LuaUnparse
