import LuaUnparse.Proofs.Monitor.Basic

/-!
# `LuaUnparse.Proofs.Monitor.BlankLine` — every line holds a text

A line break is there for what stands on the line after it. In every run a text follows it at once, unless
the run fails there: no line is blank, and none is begun at the end. To see this one has to know of every
node whether it begins with a text. A block inside a tree begins with a line, so it never stands at the
beginning of one; the empty lists write nothing; and every other node begins with a text, however many
nodes have to be laid out before it comes.

## Contents
- **Spacing.** `spacing`, the monitor that waits for a text after a line break, and `Node.isEmptyList`, the
  nodes that write nothing.
- **Shapes.** `Spacing.takes_shape`, for one construct.
- **Reading.** What a monitored list of items is like: `text_of_lineBreak` and `head_of_due`.
- **Runs.** **`lines_hold_text`**, for any run, in any style.
-/

namespace LuaUnparse

/-! ## Spacing -/

/-- Whether the node is a list of no parts, which is written as nothing. -/
def Node.isEmptyList : Node → Bool
  | .nameList names => names.isEmpty
  | .expList es => es.isEmpty
  | .varList vs => vs.isEmpty
  | _ => false

/-- The reader who waits for a text after a line break, and finds no other one there. Whether a text is due is
its state. Blocks bring their own line breaks, so they may not come while it waits. -/
def spacing : Monitor Bool where
  step due
    | .text text => if text.isEmpty then none else some false
    | .lineBreak _ => if due then none else some true
  whole n _ due :=
    match n with
    | .chunk _ => if due then none else some false
    | n => some (due && n.isEmptyList)

/-! ## Shapes -/

namespace Spacing

open Monitor

variable {depth : Nat} {due due' : Bool} {ps : List Piece} {text : String}

/-- Behind a node that is no block a text is still due only if the node is an empty list. -/
theorem whole_of_not_isBlock {n : Node} (h : n.isBlock = false) :
    spacing.whole n depth due = some (due && n.isEmptyList) := by
  cases n with
  | chunk body => exact absurd h.symm Bool.false_ne_true
  | _ => rfl

/-- A text is taken whether it is due or not, and then none is due. -/
theorem takes_word (h : text.isEmpty = false) (hr : spacing.Takes depth false ps due') :
    spacing.Takes depth due (.text text :: ps) due' := by
  refine takes_text h ?_ hr
  show (if text.isEmpty then none else some false) = some false
  rw [h]
  rfl

theorem takes_name {name : Name} (hv : name.isValid = true) (hr : spacing.Takes depth false ps due') :
    spacing.Takes depth due (.text name :: ps) due' := by
  refine takes_word ?_ hr
  rw [Bool.eq_false_iff, ne_eq, String.isEmpty_iff]
  exact Name.ne_empty_of_isValid hv

/-- A node that begins with a text is taken whether one is due or not. -/
theorem takes_part {n : Node} (hblock : n.isBlock = false) (hempty : n.isEmptyList = false)
    (hr : spacing.Takes depth false ps due') : spacing.Takes depth due (.node n :: ps) due' := by
  refine takes_node ?_ hr
  rw [whole_of_not_isBlock hblock, hempty, Bool.and_false]

/-- Parts with commas between them. A text is still due behind them if there are none. -/
theorem takes_list {Part : Type} {f : Part → Piece} {parts : List Part}
    (hlevel : ∀ part, (f part).isLevel = true)
    (h : ∀ part ∈ parts, ∀ due, spacing.Takes depth due [f part] false) :
    spacing.Takes depth due (separated (parts.map f)) (due && parts.isEmpty) := by
  have hmore : ∀ done part, (due && (done ++ [part] : List Part).isEmpty) = false := fun done part => by
    cases done <;> exact Bool.and_false due
  have hparts := takes_separated (fun done => due && done.isEmpty) hlevel fun done part hpart =>
    (hmore done part).symm ▸ h part hpart (due && done.isEmpty)
  rw [List.isEmpty_nil, Bool.and_true] at hparts
  refine hparts fun done hdone => ?_
  cases done with
  | nil => exact absurd rfl hdone
  | cons part done =>
    rw [List.isEmpty_cons, Bool.and_false]
    rfl

theorem takes_string (lit : StringLit) : spacing.Takes depth due lit.shape false := by
  have hclose : spacing.Takes depth false [.text "\""] false := rfl
  have hcontent : spacing.Takes depth false [.text (Quoted.escape lit.value), .text "\""] false := by
    refine takes_text? (fun h => ?_) hclose
    show (if (Quoted.escape lit.value).isEmpty then none else some false) = some false
    rw [h]
    rfl
  exact takes_word rfl hcontent

/-- Each statement of a block stands on a line of its own. -/
theorem takes_lines (body : Chunk) : spacing.Takes depth false (Chunk.lines body) false :=
  takes_flatMap_self (fun _ => rfl) fun _ _ => rfl

theorem takes_table (fields : List Field) : spacing.Takes depth due (tableShape fields) false := by
  unfold tableShape
  cases fields with
  | nil => exact takes_word rfl takes_nil
  | cons field fields =>
    have hentries : spacing.Takes (depth + 1) false
        ((field :: fields).flatMap fun f => [.lineBreak, .node (.field f), .text ","]) false :=
      takes_flatMap_self (fun _ => rfl) fun _ _ => rfl
    refine takes_word rfl (takes_indent ?_)
    exact hentries.append (by simp) rfl

theorem takes_values (lead : String) (h : lead.isEmpty = false) (values : List Exp) :
    spacing.Takes depth false (valuesAfter lead values) false := by
  unfold valuesAfter
  split
  · exact takes_nil
  · exact takes_word h rfl

theorem takes_stat {s : Stat} (hf : s.fault? = none) : spacing.Takes depth due s.shape false := by
  cases s with
  | function name body => exact takes_word rfl rfl
  | localFunction name body => exact takes_word rfl (takes_name (Name.isValid_of_fault hf) rfl)
  | ifThen condition body elseIfs elseBody =>
    have hhead : spacing.Takes depth due
        [.text "if ", .node (.exp condition), .text " then", .node (.chunk body)] false :=
      takes_word rfl rfl
    have hclauses : spacing.Takes depth false
        (elseIfs.flatMap fun clause => [.lineBreak, .node (.elseIf clause)]) false :=
      takes_flatMap_self (fun _ => rfl) fun _ _ => rfl
    have helse : spacing.Takes depth false
        (elseBody.toList.flatMap fun b => [.lineBreak, .text "else", .node (.chunk b)]) false :=
      takes_flatMap_self (fun _ => rfl) fun _ _ => rfl
    rw [Stat.shape, List.append_assoc, List.append_assoc]
    exact hhead.append rfl (hclauses.append (by simp) (helse.append (by simp) rfl))
  | numericFor var start stop step body =>
    have hstep : spacing.Takes depth false
        (step.toList.flatMap fun e => [.text ", ", .node (.exp e)]) false :=
      takes_flatMap_self (fun _ => rfl) fun _ _ => rfl
    have hrange : spacing.Takes depth false
        [.text " = ", .node (.exp start), .text ", ", .node (.exp stop)] false := rfl
    have hbody : spacing.Takes depth false (.text " do" :: bodyAndEnd body) false := rfl
    have hafter := hrange.append rfl (hstep.append (by simp) hbody)
    rw [Stat.shape, List.append_assoc, List.append_assoc]
    exact takes_word rfl (takes_name (Name.isValid_of_fault hf) hafter)
  | genericFor names values body => exact takes_word rfl rfl
  | call c => exact takes_part rfl rfl takes_nil
  | ret values => exact takes_word rfl (takes_values " " rfl values)
  | localVars names values =>
    exact takes_word rfl (takes_values " = " rfl (values.getD []))
  | assign targets values =>
    cases targets with
    | nil => exact absurd hf (by simp [Stat.fault?])
    | cons target targets => exact takes_part rfl rfl rfl
  | block body => exact takes_word rfl rfl
  | repeatUntil body condition => exact takes_word rfl rfl
  | whileDo condition body => exact takes_word rfl rfl
  | breakLoop => exact takes_word rfl takes_nil

theorem takes_exp {e : Exp} (hf : e.fault? = none) : spacing.Takes depth due e.shape false := by
  cases e with
  | nil => exact takes_word rfl takes_nil
  | bool value => cases value <;> exact takes_word rfl takes_nil
  | vararg => exact takes_word rfl takes_nil
  | number lit =>
    refine takes_word ?_ takes_nil
    cases hempty : lit.raw.isEmpty with
    | true => exact absurd hf (by simp [Exp.fault?, hempty])
    | false => rfl
  | string lit => exact takes_string lit
  | unary op operand =>
    have hoperand : spacing.Takes depth false (unaryGap op operand ++ [Piece.node (.exp operand)]) false :=
      takes_unaryGap op operand rfl rfl
    cases op <;> exact takes_word rfl hoperand
  | binary left op right => cases op <;> exact takes_part rfl rfl rfl
  | function body => exact takes_word rfl rfl
  | paren inner => exact takes_word rfl rfl
  | table fields => exact takes_table fields
  | prefixed inner => exact takes_part rfl rfl takes_nil

theorem takes_funcName {name : FuncName} (hv : ∀ n ∈ name.names, n.isValid = true) :
    spacing.Takes depth due name.shape false :=
  takes_path (fun _ => false) (takes_name (hv _ List.mem_cons_self) takes_nil) (fun _ => rfl) (fun _ => rfl)
    fun _ n hn => takes_name (hv n (List.mem_cons_of_mem _ hn)) takes_nil

theorem takes_names {names : List Name} (hv : ∀ n ∈ names, n.isValid = true) :
    spacing.Takes depth due (namesShape names) (due && names.isEmpty) :=
  takes_list (fun _ => rfl) fun n hn _ => takes_name (hv n hn) takes_nil

theorem takes_parList {params : ParList} (hv : ∀ n ∈ params.names, n.isValid = true) :
    spacing.Takes depth due params.shape false := by
  have hnames : spacing.Takes depth false (namesShape params.names) false := takes_names hv
  exact takes_params rfl hnames rfl rfl rfl

theorem takes_var {v : Var} (hf : v.fault? = none) : spacing.Takes depth due v.shape false := by
  cases v with
  | name n => exact takes_name (Name.isValid_of_fault hf) takes_nil
  | index base key => exact takes_part rfl rfl rfl
  | member base n =>
    have hname : spacing.Takes depth false [.text n] false :=
      takes_name (Name.isValid_of_fault hf) takes_nil
    exact takes_part rfl rfl (takes_word rfl hname)

theorem takes_call {c : Call} (hf : c.fault? = none) : spacing.Takes depth due c.shape false := by
  cases c with
  | normal callee args => exact takes_part rfl rfl rfl
  | method object name args =>
    exact takes_part rfl rfl (takes_word rfl (takes_name (Name.isValid_of_fault hf) rfl))

theorem takes_field {f : Field} (hf : f.fault? = none) : spacing.Takes depth due f.shape false := by
  cases f with
  | positional value => exact takes_part rfl rfl takes_nil
  | named name value => exact takes_name (Name.isValid_of_fault hf) rfl
  | keyed key value => exact takes_word rfl rfl

/-- **Every node but a block begins with a text**, unless it is an empty list, and ends with one. -/
theorem takes_shape {n : Node} (hf : n.fault? = none) (hblock : n.isBlock = false) :
    spacing.Takes depth due n.shape (due && n.isEmptyList) := by
  -- for all but the lists of parts
  have hwrites : ∀ m : Node, m.isEmptyList = false → spacing.Takes depth due m.shape false →
      spacing.Takes depth due m.shape (due && m.isEmptyList) := by
    intro m hm h
    rwa [hm, Bool.and_false]
  cases n with
  | chunk body => exact absurd hblock.symm Bool.false_ne_true
  | stat s => exact hwrites _ rfl (takes_stat hf)
  | elseIf clause => cases clause; exact hwrites _ rfl (takes_word rfl rfl)
  | funcBody body => cases body; exact hwrites _ rfl (takes_part rfl rfl rfl)
  | funcName name => exact hwrites _ rfl (takes_funcName (isValid_of_firstInvalid hf))
  | parList params => exact hwrites _ rfl (takes_parList (isValid_of_firstInvalid hf))
  | exp e => exact hwrites _ rfl (takes_exp hf)
  | prefixExp e =>
    cases e with
    | var v => exact hwrites _ rfl (takes_part rfl rfl takes_nil)
    | call c => exact hwrites _ rfl (takes_part rfl rfl takes_nil)
    | paren inner => exact hwrites _ rfl (takes_word rfl rfl)
  | var v => exact hwrites _ rfl (takes_var hf)
  | call c => exact hwrites _ rfl (takes_call hf)
  | args a =>
    cases a with
    | list values => exact hwrites _ rfl (takes_word rfl rfl)
    | table fields => exact hwrites _ rfl (takes_table fields)
    | string lit => exact hwrites _ rfl (takes_string lit)
  | field f => exact hwrites _ rfl (takes_field hf)
  | table fields => exact hwrites _ rfl (takes_table fields)
  | nameList names => exact takes_names (isValid_of_firstInvalid hf)
  | expList es => exact takes_list (fun _ => rfl) fun _ _ _ => takes_part rfl rfl takes_nil
  | varList vs => exact takes_list (fun _ => rfl) fun _ _ _ => takes_part rfl rfl takes_nil
  | name n => exact hwrites _ rfl (takes_name (Name.isValid_of_fault hf) takes_nil)

end Spacing

theorem spacing_sound : spacing.Sound fun _ => True where
  child _ _ := trivial
  shape {n depth due due'} _ hf hwhole := by
    cases hblock : n.isBlock with
    | false =>
      rw [Spacing.whole_of_not_isBlock hblock] at hwhole
      obtain rfl := Option.some.inj hwhole
      exact Spacing.takes_shape hf hblock
    | true =>
      cases n with
      | chunk body =>
        cases due with
        | true => exact absurd hwhole (by simp [spacing])
        | false =>
          obtain rfl : false = due' := Option.some.inj hwhole
          exact Monitor.takes_indent ((Spacing.takes_lines body).append (by simp [Chunk.lines]) rfl)
      | _ => exact absurd hblock Bool.false_ne_true


/-! ## Reading -/

section

variable {items : List Item} {due due' : Bool}

/-- A line break is followed by a text, or by nothing. Then a text is still due at the end. -/
theorem text_of_lineBreak (h : spacing.read due items = some due') {before after : List Item} {depth : Nat}
    (heq : items = before ++ .lineBreak depth :: after) :
    (∃ text rest, after = .text text :: rest ∧ text ≠ "") ∨ (after = [] ∧ due' = true) := by
  rw [heq, Monitor.read, List.foldlM_append] at h
  obtain ⟨s, -, hrest⟩ := Option.bind_eq_some_iff.mp h
  obtain ⟨s', hstep, hafter⟩ := Option.bind_eq_some_iff.mp hrest
  cases s with
  | true => exact absurd hstep (by simp [spacing])
  | false =>
    obtain rfl : true = s' := Option.some.inj hstep
    cases after with
    | nil => exact .inr ⟨rfl, (Option.some.inj hafter).symm⟩
    | cons item rest =>
      obtain ⟨s'', hitem, -⟩ := Option.bind_eq_some_iff.mp hafter
      cases item with
      | lineBreak depth => exact absurd hitem (by simp [spacing])
      | text text =>
        refine .inl ⟨text, rest, rfl, ?_⟩
        rintro rfl
        exact absurd hitem (by simp [spacing])

/-- Where a text is due, no line break comes first. -/
theorem head_of_due (h : spacing.read true items = some due') (depth : Nat) :
    items.head? ≠ some (.lineBreak depth) := by
  cases items with
  | nil => exact nofun
  | cons item items =>
    obtain ⟨s, hitem, -⟩ := Option.bind_eq_some_iff.mp h
    intro hhead
    obtain rfl : item = .lineBreak depth := Option.some.inj hhead
    exact absurd hitem (by simp [spacing])

end

/-! ## Runs -/

/-- At the beginning of a run a text is due, unless the root is a block. -/
theorem takes_opening (root : Node) : spacing.Takes 0 (!root.isBlock) root.opening root.isEmptyList := by
  cases root with
  | chunk body => exact Spacing.takes_lines body
  | _ => rfl

/-- The items of any run are taken. If it does not fail, a text is still due only if the root is an empty
list. -/
theorem read_rootLayout (root : Node) :
    ∃ due, spacing.read (!root.isBlock) root.rootLayout.items = some due ∧
      (root.rootLayout.fault = none → due = root.isEmptyList) := by
  have hreads := spacing_sound.reads_rootLayout trivial (takes_opening root)
  unfold Monitor.Reads at hreads
  split at hreads
  · exact ⟨root.isEmptyList, hreads, fun _ => rfl⟩
  · next fault hfault =>
    obtain ⟨due, hread, -⟩ := hreads
    exact ⟨due, hread, fun hnone => absurd (hnone.symm.trans hfault) nofun⟩

theorem rootLayout_of_isEmptyList {root : Node} (h : root.isEmptyList = true) : root.rootLayout = .empty := by
  have hempty : ∀ n : Node, n.fault? = none → n.shape = [] → n.layout 0 = .empty := by
    intro n hf hshape
    rw [Node.layout_of_none hf, hshape, layoutPieces]
  cases root with
  | nameList names =>
    obtain rfl := List.isEmpty_iff.mp h
    exact hempty _ rfl rfl
  | expList es =>
    obtain rfl := List.isEmpty_iff.mp h
    exact hempty _ rfl rfl
  | varList vs =>
    obtain rfl := List.isEmpty_iff.mp h
    exact hempty _ rfl rfl
  | _ => exact absurd h Bool.false_ne_true

/-- A block at the root begins with a line outside all blocks. -/
theorem head_rootLayout_chunk (stat : Stat) (rest : Chunk) :
    (Node.chunk (stat :: rest)).rootLayout.items.head? = some (.lineBreak 0) := by
  rw [rootLayout_chunk_cons]
  rfl

theorem isEmptyList_iff (root : Node) :
    root.isEmptyList = true ↔ root = .nameList [] ∨ root = .expList [] ∨ root = .varList [] := by
  cases root <;> simp [Node.isEmptyList]

/-- Only a block with statements begins with a line break, which stands outside all blocks. -/
theorem chunk_of_head {root : Node} {depth : Nat}
    (hhead : root.rootLayout.items.head? = some (.lineBreak depth)) :
    (∃ stat rest, root = .chunk (stat :: rest)) ∧ depth = 0 := by
  obtain ⟨due, hread, -⟩ := read_rootLayout root
  cases hblock : root.isBlock with
  | false =>
    rw [hblock] at hread
    exact absurd hhead (head_of_due hread depth)
  | true =>
    cases root with
    | chunk body =>
      cases body with
      | nil =>
        rw [rootLayout_chunk_nil] at hhead
        cases hhead
      | cons stat rest =>
        rw [head_rootLayout_chunk] at hhead
        cases hhead
        exact ⟨⟨stat, rest, rfl⟩, rfl⟩
    | _ => exact absurd hblock Bool.false_ne_true

/-- What a run without fault has to write, if it writes nothing at all. -/
theorem items_eq_nil_iff {root : Node} (hfault : root.rootLayout.fault = none) :
    root.rootLayout.items = [] ↔ root = .chunk [] ∨ root.isEmptyList = true := by
  obtain ⟨due, hread, hdue⟩ := read_rootLayout root
  constructor
  · intro hitems
    rw [hitems] at hread
    -- nothing came, so a text is due at the end if it was at the beginning
    obtain rfl : (!root.isBlock) = due := Option.some.inj hread
    have hempty := hdue hfault
    cases root with
    | chunk body =>
      cases body with
      | nil => exact .inl rfl
      | cons stat rest =>
        have hhead := head_rootLayout_chunk stat rest
        rw [hitems] at hhead
        cases hhead
    | _ => exact .inr hempty.symm
  · rintro (rfl | hempty)
    · rw [rootLayout_chunk_nil]
      rfl
    · rw [rootLayout_of_isEmptyList hempty]
      rfl

/-- **No line is blank, and none is begun in vain.** In every run a line break is followed at once by a text
that is not empty and no line break, or by the fault with which the run ends. The first text is a line break
only if the root is a block with statements, and then it is the line end alone. A run that does not fail
gives no text exactly if the root is a block without statements or an empty list of names, expressions or
variables. -/
theorem lines_hold_text (root : Node) (style : Style) :
    Unparser.events ⟨root, style⟩ =
        .start :: root.rootLayout.items.map (fun item => .data (style.write item)) ++
          [.ending root.rootLayout.fault] ∧
      (∀ before depth after, root.rootLayout.items = before ++ .lineBreak depth :: after →
        (∃ text rest, after = .text text :: rest ∧ text ≠ "") ∨
          after = [] ∧ ∃ fault, root.rootLayout.fault = some fault) ∧
      (∀ depth, root.rootLayout.items.head? = some (.lineBreak depth) →
        (∃ stat rest, root = .chunk (stat :: rest)) ∧
          style.write (.lineBreak depth) = style.newLine) ∧
      (root.rootLayout.fault = none →
        (root.rootLayout.items = [] ↔
          root = .chunk [] ∨ root = .nameList [] ∨ root = .expList [] ∨ root = .varList [])) := by
  obtain ⟨due, hread, hdue⟩ := read_rootLayout root
  refine ⟨?_, ?_, ?_, ?_⟩
  · rw [Unparser.events, drain_events_start, drain_events_writing]
    rfl
  · intro before depth after heq
    rcases text_of_lineBreak hread heq with htext | ⟨hafter, hlast⟩
    · exact .inl htext
    · cases hfault : root.rootLayout.fault with
      | some fault => exact .inr ⟨hafter, fault, rfl⟩
      | none =>
        -- only an empty list leaves a text due, and it has no line breaks
        have hempty : root.rootLayout = .empty := rootLayout_of_isEmptyList ((hdue hfault).symm.trans hlast)
        rw [hempty] at heq
        exact absurd heq (by simp [Layout.empty])
  · intro depth hhead
    obtain ⟨hroot, rfl⟩ := chunk_of_head hhead
    exact ⟨hroot, style.lineBreak_zero⟩
  · intro hfault
    rw [items_eq_nil_iff hfault, isEmptyList_iff]

/-- A block in a block, in the middle of which a line begins. -/
theorem lines_hold_text_block :
    (Node.chunk [.block [.breakLoop]]).rootLayout.items =
        [.lineBreak 0, .text "do"] ++ .lineBreak 1 :: [.text "break", .lineBreak 0, .text "end"] ∧
      ((∃ text rest, [.text "break", .lineBreak 0, .text "end"] = Item.text text :: rest ∧ text ≠ "") ∨
        [.text "break", .lineBreak 0, .text "end"] = ([] : List Item) ∧
          ∃ fault, (Node.chunk [.block [.breakLoop]]).rootLayout.fault = some fault) ∧
      (Node.chunk [.block [.breakLoop]]).rootLayout.items.head? = some (.lineBreak 0) ∧
      (∃ stat rest, Node.chunk [.block [.breakLoop]] = .chunk (stat :: rest)) ∧
      Style.write ⟨"\r\n", "\t"⟩ (.lineBreak 0) = "\r\n" := by
  have hitems : (Node.chunk [.block [.breakLoop]]).rootLayout.items =
      [.lineBreak 0, .text "do"] ++ .lineBreak 1 :: [.text "break", .lineBreak 0, .text "end"] := by
    decide +kernel
  have hhead : (Node.chunk [.block [.breakLoop]]).rootLayout.items.head? = some (.lineBreak 0) := by
    rw [hitems]
    rfl
  obtain ⟨-, hbreak, hfirst, -⟩ := lines_hold_text (.chunk [.block [.breakLoop]]) ⟨"\r\n", "\t"⟩
  obtain ⟨hroot, hwrite⟩ := hfirst 0 hhead
  exact ⟨hitems, hbreak _ 1 _ hitems, hhead, hroot, hwrite⟩

end LuaUnparse
