import LuaUnparse.Proofs.Monitor.Basic

/-!
# `LuaUnparse.Proofs.Monitor.Nesting` — brackets and blocks are well nested

A reader of fragments who keeps the brackets and the heads of blocks that are still open on a stack can
match every bracket and every `end` with what it closes: the last one that is open, and of its own kind.
Nothing is left open at the end of a tree. This needs that nothing but a bracket or a head of a block looks
like one: neither a name nor a number, and what stands between the quotes of a literal is passed over.

## Contents
- **Brackets.** `Bracket`, with the texts that open and close each of them.
- **Reading.** `Nesting.read`, which keeps the stack, and `WellNested`.
- **Shapes.** `nesting`, the monitor that reads so, and `Nesting.takes_shape`: every construct closes what
  it opens.
- **Runs.** **`brackets_nest`**, for the fragments of any run.
-/

namespace LuaUnparse

/-! ## Brackets -/

/-- What is opened and closed. A loop is closed by its condition, every other block by `end`. -/
inductive Bracket where
  | round
  | square
  | curly
  | block
  | loop
  deriving DecidableEq

namespace Bracket

/-- The fragments that open a bracket. -/
def openers : List (String × Bracket) :=
  [("(", .round), ("[", .square), ("\x7b", .curly), ("function ", .block),
    ("local function ", .block), ("function", .block), ("if ", .block), ("for ", .block),
    ("while ", .block), ("do", .block), ("repeat", .loop)]

/-- The fragments that close one. -/
def closers : List (String × Bracket) :=
  [(")", .round), ("]", .square), ("] = ", .square), ("\x7d", .curly), ("end", .block),
    ("until ", .loop)]

/-- A fragment that closes the bracket. -/
def closer : Bracket → String
  | .round => ")"
  | .square => "]"
  | .curly => "\x7d"
  | .block => "end"
  | .loop => "until "

end Bracket

/-! ## Reading -/

/-- Where a reader of fragments is: in a literal or not, and in which open brackets, the last one first. -/
structure Nesting where
  quoted : Bool
  opened : List Bracket
  deriving DecidableEq

/-- Reads a fragment. Only the bracket that was opened last may be closed. -/
def Nesting.read (nesting : Nesting) (text : String) : Option Nesting :=
  if text = "\"" then some { nesting with quoted := !nesting.quoted }
  else if nesting.quoted then some nesting
  else
    match Bracket.openers.lookup text, Bracket.closers.lookup text with
    | some bracket, _ => some { nesting with opened := bracket :: nesting.opened }
    | none, some bracket =>
      match nesting.opened with
      | [] => none
      | last :: rest => if last = bracket then some { nesting with opened := rest } else none
    | none, none => some nesting

/-- The fragments of a run in the default style that are a matched sequence of brackets, line breaks and the
contents of literals apart. -/
def WellNested (texts : List String) : Prop :=
  (texts.filter (!isLineBreak ·)).foldlM Nesting.read ⟨false, []⟩ = some ⟨false, []⟩

instance (texts : List String) : Decidable (WellNested texts) :=
  inferInstanceAs (Decidable (_ = _))

/-- What is open can be closed, the last bracket first. -/
theorem read_closers (opened : List Bracket) :
    (opened.map Bracket.closer).foldlM Nesting.read ⟨false, opened⟩ = some ⟨false, []⟩ := by
  induction opened with
  | nil => rfl
  | cons bracket opened ih =>
    have hread : Nesting.read ⟨false, bracket :: opened⟩ bracket.closer = some ⟨false, opened⟩ := by
      cases bracket <;> rfl
    rw [List.map_cons, List.foldlM_cons, hread]
    exact ih

/-- A text that neither opens a bracket nor closes one, and neither begins nor ends a literal. -/
def IsInert (text : String) : Prop :=
  text.isEmpty = false ∧ isLineBreak text = false ∧ text ≠ "\"" ∧
    Bracket.openers.lookup text = none ∧ Bracket.closers.lookup text = none

instance (text : String) : Decidable (IsInert text) :=
  inferInstanceAs (Decidable (_ ∧ _ ∧ _ ∧ _ ∧ _))

/-- Names and numbers are no brackets. -/
theorem isInert_of_isLeafText {text : String} (h : isLeafText text = true) : IsInert text := by
  obtain ⟨hempty, hline, hquote⟩ := not_empty_of_isLeafText h
  have hnone : ∀ table : List (String × Bracket), (∀ entry ∈ table.map Prod.fst, isLeafText entry = false) →
      table.lookup text = none := by
    intro table htable
    rw [List.lookup_eq_none_iff]
    intro entry hentry
    rw [bne_iff_ne]
    exact (ne_of_isLeafText htable h entry.1 (List.mem_map_of_mem hentry)).symm
  exact ⟨hempty, hline, hquote, hnone _ (by decide), hnone _ (by decide)⟩

/-! ## Shapes -/

/-- The reader of brackets, on items. A node closes all that it opens. -/
def nesting : Monitor Nesting where
  step nesting
    | .text text => if isLineBreak text then none else nesting.read text
    | .lineBreak _ => some nesting
  whole _ _ nesting := if nesting.quoted then none else some nesting

/-- Whether the node, if it is a number that is spelled at all, is spelled with a digit first. -/
def Node.isSpelledDigitFirst : Node → Bool
  | .exp (.number lit) => lit.raw.isEmpty || lit.raw.toList.head?.any Char.isDigit
  | _ => true

/-- A tree in which every number that is spelled at all is spelled with a digit first. -/
def Node.SpelledDigitsFirst (n : Node) : Prop :=
  ∀ m ∈ n.preorder, m.isSpelledDigitFirst = true

instance (n : Node) : Decidable n.SpelledDigitsFirst :=
  inferInstanceAs (Decidable (∀ m ∈ n.preorder, m.isSpelledDigitFirst = true))

namespace Nesting

open Monitor

variable {depth : Nat} {opened : List Bracket} {s' : Nesting} {ps : List Piece}

theorem takes_inert {text : String} (ht : IsInert text)
    (hr : nesting.Takes depth ⟨false, opened⟩ ps s') :
    nesting.Takes depth ⟨false, opened⟩ (.text text :: ps) s' := by
  obtain ⟨hempty, hline, hquote, hopener, hcloser⟩ := ht
  refine takes_text hempty ?_ hr
  show (if isLineBreak text then none else Nesting.read ⟨false, opened⟩ text) = _
  rw [hline, if_neg (by decide), Nesting.read, if_neg hquote, hopener, hcloser]
  rfl

theorem takes_name {name : Name} (hv : name.isValid = true)
    (hr : nesting.Takes depth ⟨false, opened⟩ ps s') :
    nesting.Takes depth ⟨false, opened⟩ (.text name :: ps) s' :=
  takes_inert (isInert_of_isLeafText (isLeafText_name hv)) hr

/-- What stands between the quotes of a literal is passed over. -/
theorem takes_string (lit : StringLit) :
    nesting.Takes depth ⟨false, opened⟩ lit.shape ⟨false, opened⟩ := by
  obtain ⟨hquote, hline⟩ := escape_ne_quote lit.value
  have hcontent : nesting.Takes depth ⟨true, opened⟩ [.text (Quoted.escape lit.value), .text "\""]
      ⟨false, opened⟩ := by
    refine takes_text? (fun _ => ?_) rfl
    show (if isLineBreak (Quoted.escape lit.value) then none else Nesting.read ⟨true, opened⟩ _) = _
    rw [hline, if_neg (by decide), Nesting.read, if_neg hquote]
    rfl
  exact takes_text (by decide) rfl hcontent

theorem takes_names {names : List Name} (hv : ∀ n ∈ names, n.isValid = true) :
    nesting.Takes depth ⟨false, opened⟩ (namesShape names) ⟨false, opened⟩ :=
  takes_separated_self (fun _ => rfl) (fun n hn => takes_name (hv n hn) takes_nil) rfl

theorem takes_nodes {Part : Type} (f : Part → Node) (parts : List Part) :
    nesting.Takes depth ⟨false, opened⟩ (separated (parts.map fun part => .node (f part)))
      ⟨false, opened⟩ :=
  takes_separated_self (fun _ => rfl) (fun _ _ => rfl) rfl

theorem takes_table (fields : List Field) :
    nesting.Takes depth ⟨false, opened⟩ (tableShape fields) ⟨false, opened⟩ := by
  unfold tableShape
  cases fields with
  | nil => rfl
  | cons field fields =>
    have hentries : nesting.Takes (depth + 1) ⟨false, .curly :: opened⟩
        ((field :: fields).flatMap fun f => [.lineBreak, .node (.field f), .text ","])
        ⟨false, .curly :: opened⟩ :=
      takes_flatMap_self (fun _ => rfl) fun _ _ => rfl
    have hrest : nesting.Takes (depth + 1) ⟨false, .curly :: opened⟩
        (((field :: fields).flatMap fun f => [Piece.lineBreak, .node (.field f), .text ","]) ++
          [Piece.dedent, .lineBreak, .text "\x7d"])
        ⟨false, opened⟩ := hentries.append (by simp) rfl
    exact takes_text (by decide) rfl (takes_indent hrest)

theorem takes_lines (body : Chunk) :
    nesting.Takes depth ⟨false, opened⟩ (Chunk.lines body) ⟨false, opened⟩ :=
  takes_flatMap_self (fun _ => rfl) fun _ _ => rfl

theorem takes_stat {s : Stat} (hf : s.fault? = none) :
    nesting.Takes depth ⟨false, opened⟩ s.shape ⟨false, opened⟩ := by
  cases s with
  | localFunction name body =>
    have hrest : nesting.Takes depth ⟨false, .block :: opened⟩
        [.text name, .node (.funcBody body), .lineBreak, .text "end"] ⟨false, opened⟩ :=
      takes_name (Name.isValid_of_fault hf) rfl
    exact takes_text (by decide) rfl hrest
  | ifThen condition body elseIfs elseBody =>
    have hhead : nesting.Takes depth ⟨false, opened⟩
        [.text "if ", .node (.exp condition), .text " then", .node (.chunk body)]
        ⟨false, .block :: opened⟩ := rfl
    have hclauses : nesting.Takes depth ⟨false, .block :: opened⟩
        (elseIfs.flatMap fun clause => [.lineBreak, .node (.elseIf clause)])
        ⟨false, .block :: opened⟩ :=
      takes_flatMap_self (fun _ => rfl) fun _ _ => rfl
    have helse : nesting.Takes depth ⟨false, .block :: opened⟩
        (elseBody.toList.flatMap fun b => [.lineBreak, .text "else", .node (.chunk b)])
        ⟨false, .block :: opened⟩ :=
      takes_flatMap_self (fun _ => rfl) fun _ _ => rfl
    rw [Stat.shape, List.append_assoc, List.append_assoc]
    exact hhead.append rfl (hclauses.append (by simp) (helse.append (by simp) rfl))
  | numericFor var start stop step body =>
    have hrange : nesting.Takes depth ⟨false, .block :: opened⟩
        [.text " = ", .node (.exp start), .text ", ", .node (.exp stop)] ⟨false, .block :: opened⟩ := rfl
    have hstep : nesting.Takes depth ⟨false, .block :: opened⟩
        (step.toList.flatMap fun e => [.text ", ", .node (.exp e)]) ⟨false, .block :: opened⟩ :=
      takes_flatMap_self (fun _ => rfl) fun _ _ => rfl
    have hname : nesting.Takes depth ⟨false, .block :: opened⟩
        (.text var :: ([Piece.text " = ", .node (.exp start), .text ", ", .node (.exp stop)] ++
          (step.toList.flatMap (fun e => [Piece.text ", ", .node (.exp e)]) ++
            .text " do" :: bodyAndEnd body)))
        ⟨false, opened⟩ :=
      takes_name (Name.isValid_of_fault hf) (hrange.append rfl (hstep.append (by simp) rfl))
    rw [Stat.shape, List.append_assoc, List.append_assoc]
    exact takes_text (by decide) rfl hname
  | ret values => cases values <;> rfl
  | localVars names values => rcases values with _ | _ | _ <;> rfl
  | _ => rfl

theorem takes_exp {e : Exp} (hf : e.fault? = none) (hdigit : (Node.exp e).isSpelledDigitFirst = true) :
    nesting.Takes depth ⟨false, opened⟩ e.shape ⟨false, opened⟩ := by
  cases e with
  | bool value => cases value <;> rfl
  | number lit =>
    have hdigits : lit.raw.toList.head?.any Char.isDigit = true := by
      cases hempty : lit.raw.isEmpty with
      | true => simp [Exp.fault?, hempty] at hf
      | false =>
        rw [Node.isSpelledDigitFirst, hempty, Bool.false_or] at hdigit
        exact hdigit
    exact takes_inert (isInert_of_isLeafText (isLeafText_number hdigits)) takes_nil
  | string lit => exact takes_string lit
  | unary op operand =>
    have hop : IsInert op.spelling := by cases op <;> decide
    exact takes_inert hop (takes_unaryGap op operand rfl rfl)
  | binary left op right => cases op <;> rfl
  | table fields => exact takes_table fields
  | _ => rfl

theorem takes_funcName {name : FuncName} (hv : ∀ n ∈ name.names, n.isValid = true) :
    nesting.Takes depth ⟨false, opened⟩ name.shape ⟨false, opened⟩ :=
  takes_path (fun _ => ⟨false, opened⟩) (takes_name (hv _ List.mem_cons_self) takes_nil) (fun _ => rfl)
    (fun _ => rfl) fun _ n hn => takes_name (hv n (List.mem_cons_of_mem _ hn)) takes_nil

theorem takes_parList {params : ParList} (hv : ∀ n ∈ params.names, n.isValid = true) :
    nesting.Takes depth ⟨false, opened⟩ params.shape ⟨false, opened⟩ := by
  have hnames : nesting.Takes depth ⟨false, .round :: opened⟩ (namesShape params.names)
      ⟨false, .round :: opened⟩ := takes_names hv
  exact takes_params rfl hnames rfl rfl rfl

/-- **Every construct closes what it opens**, in its order, and nothing else. -/
theorem takes_shape {n : Node} (hf : n.fault? = none) (hdigit : n.isSpelledDigitFirst = true) :
    nesting.Takes depth ⟨false, opened⟩ n.shape ⟨false, opened⟩ := by
  cases n with
  | chunk body =>
    exact takes_indent ((takes_lines body).append (by simp [Chunk.lines]) rfl)
  | stat s => exact takes_stat hf
  | elseIf c => cases c; rfl
  | funcBody b => cases b; rfl
  | funcName name => exact takes_funcName (isValid_of_firstInvalid hf)
  | parList params => exact takes_parList (isValid_of_firstInvalid hf)
  | exp e => exact takes_exp hf hdigit
  | prefixExp e => cases e <;> rfl
  | var v =>
    cases v with
    | name n => exact takes_name (Name.isValid_of_fault hf) takes_nil
    | index base key => rfl
    | member base n =>
      refine takes_node rfl (takes_inert (by decide) ?_)
      exact takes_name (Name.isValid_of_fault hf) takes_nil
  | call c =>
    cases c with
    | normal callee args => rfl
    | method object name args =>
      refine takes_node rfl (takes_inert (by decide) ?_)
      exact takes_name (Name.isValid_of_fault hf) rfl
  | args a =>
    cases a with
    | list values => rfl
    | table fields => exact takes_table fields
    | string lit => exact takes_string lit
  | field f =>
    cases f with
    | named name value => exact takes_name (Name.isValid_of_fault hf) rfl
    | _ => rfl
  | table fields => exact takes_table fields
  | nameList names => exact takes_names (isValid_of_firstInvalid hf)
  | expList es => exact takes_nodes Node.exp es
  | varList vs => exact takes_nodes Node.var vs
  | name n => exact takes_name (Name.isValid_of_fault hf) takes_nil

end Nesting

theorem nesting_sound : nesting.Sound Node.SpelledDigitsFirst where
  child h hm := fun k hk => h k (Node.mem_preorder_of_child hm hk)
  shape {n depth s s'} h hf hwhole := by
    obtain ⟨quoted, opened⟩ := s
    cases quoted with
    | true => exact absurd hwhole (by simp [nesting])
    | false =>
      obtain rfl : ⟨false, opened⟩ = s' := Option.some.inj hwhole
      exact Nesting.takes_shape hf (h n n.self_mem_preorder)

/-! ## Runs -/

/-- What the monitor makes of items the reader makes of their texts, line breaks apart. -/
theorem foldlM_unbroken {layout : Layout} {s s' : Nesting} (h : nesting.read s layout.items = some s') :
    layout.unbroken.foldlM Nesting.read s = some s' := by
  rw [Layout.unbroken, Layout.texts, List.foldlM_filter, List.foldlM_map]
  apply Monitor.foldlM_of_read ?_ h
  intro s item s₁ hstep
  cases item with
  | lineBreak depth =>
    have hline : isLineBreak (({} : Style).write (.lineBreak depth)) = true := isLineBreak_lineBreak depth
    rw [hline]
    exact hstep
  | text t =>
    show (if !isLineBreak t then s.read t else some s) = some s₁
    cases hline : isLineBreak t with
    | true => simp [nesting, hline] at hstep
    | false =>
      simp only [nesting, hline] at hstep
      exact hstep

/-- **Brackets and blocks are well nested.** In the fragments of a run, line breaks and the contents of
literals apart, every bracket and every end of a block closes what was opened last, and is of its kind. A
run that does not fail leaves nothing open; what is open when a run fails could still be closed. -/
theorem brackets_nest {root : Node} (hdigit : root.SpelledDigitsFirst) :
    ∃ texts fault, Unparser.fragments ⟨root, {}⟩ = texts.map .ok ++ fault.toList.map .error ∧
      ∃ more, WellNested (texts ++ more) ∧ (fault = none → more = []) ∧
        ∀ text ∈ more, text ∈ Bracket.closers.map Prod.fst := by
  have hopening : nesting.Takes 0 ⟨false, []⟩ root.opening ⟨false, []⟩ := by
    cases root with
    | chunk body => exact Nesting.takes_lines body
    | _ => rfl
  have hreads := nesting_sound.reads_rootLayout hdigit hopening
  refine ⟨root.rootLayout.texts {}, root.rootLayout.fault, fragments_eq_layout _, ?_⟩
  cases hfault : root.rootLayout.fault with
  | none =>
    rw [Monitor.Reads, hfault] at hreads
    have hread := foldlM_unbroken hreads
    exact ⟨[], by rwa [List.append_nil], fun _ => rfl, by simp⟩
  | some fault =>
    rw [Monitor.Reads, hfault] at hreads
    obtain ⟨⟨quoted, opened⟩, hitems, n, depth, hwhole⟩ := hreads
    cases quoted with
    | true => exact absurd hwhole (by simp [nesting])
    | false =>
      have hread : root.rootLayout.unbroken.foldlM Nesting.read ⟨false, []⟩ = some ⟨false, opened⟩ :=
        foldlM_unbroken hitems
      have hclosers : ∀ text ∈ opened.map Bracket.closer, isLineBreak text = false ∧
          text ∈ Bracket.closers.map Prod.fst := by
        rw [List.forall_mem_map]
        rintro bracket -
        cases bracket <;> decide
      refine ⟨opened.map Bracket.closer, ?_, by simp, fun text h => (hclosers text h).2⟩
      have hkeep : (opened.map Bracket.closer).filter (!isLineBreak ·) = opened.map Bracket.closer :=
        List.filter_eq_self.mpr fun text h => by rw [(hclosers text h).1]; rfl
      show (List.filter _ _).foldlM Nesting.read _ = _
      rw [List.filter_append, hkeep, List.foldlM_append]
      show (root.rootLayout.unbroken.foldlM Nesting.read ⟨false, []⟩).bind _ = _
      rw [hread]
      exact read_closers opened

/-- No bracket closes one of another kind. In a literal there are none. -/
example : ¬ WellNested ["(", "\x7b", ")", "\x7d"] ∧ WellNested ["(", "\"", "\x7b", "\"", ")"] := by
  decide +kernel

/-- A run that fails with a function and a table open, after literals that look like brackets. -/
theorem brackets_nest_unfinished :
    (Node.exp (.function (.mk ⟨["x"], true⟩ [.ret [.string ⟨"(", ""⟩,
        .table [.keyed (.string ⟨"]", ""⟩) (.number ⟨"", 0⟩)]]]))).SpelledDigitsFirst ∧
      ∃ texts fault, Unparser.fragments ⟨.exp (.function (.mk ⟨["x"], true⟩ [.ret [.string ⟨"(", ""⟩,
          .table [.keyed (.string ⟨"]", ""⟩) (.number ⟨"", 0⟩)]]])), {}⟩ =
            texts.map .ok ++ fault.toList.map .error ∧
        ∃ more, WellNested (texts ++ more) ∧ (fault = none → more = []) ∧
          ∀ text ∈ more, text ∈ Bracket.closers.map Prod.fst := by
  have hdigit : (Node.exp (.function (.mk ⟨["x"], true⟩ [.ret [.string ⟨"(", ""⟩,
      .table [.keyed (.string ⟨"]", ""⟩) (.number ⟨"", 0⟩)]]]))).SpelledDigitsFirst := by
    decide +kernel
  exact ⟨hdigit, brackets_nest hdigit⟩

end LuaUnparse
