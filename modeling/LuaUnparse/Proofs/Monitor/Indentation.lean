import LuaUnparse.Proofs.Monitor.Basic

/-!
# `LuaUnparse.Proofs.Monitor.Indentation` — lines stand where the text says

How deep a line stands is kept by the walk, apart from the texts. It can be told from the texts all the
same: a reader who counts the texts that head a block or a table, and those that end one, knows the
indentation of every line, if a text that ends something stands as deep as what it ends.

## Contents
- **Counting.** `Gauge`, the count of a reader, and `Gauge.due`, the depth at which a text may stand.
- **Margins.** `margins`, the monitor that compares each line with the text after it.
- **Shapes.** `Margin.takes_shape`, for one construct.
- **Runs.** **`indentation_matches`**, for the fragments of any run, in any style.
-/

namespace LuaUnparse

/-! ## Counting -/

/-- The texts that head a block or a table, so that lines stand one level deeper after them. -/
def Gauge.rises : List String :=
  ["\x7b", "function ", "local function ", "function", " then", " do", "do", "repeat", "else"]

/-- The texts that end one, so that they stand one level less deep themselves. -/
def Gauge.falls : List String :=
  ["\x7d", "end", "until ", "elseif ", "else"]

/-- Where a reader of fragments is: in a literal or not, and how deep. -/
structure Gauge where
  quoted : Bool
  level : Nat
  deriving DecidableEq

namespace Gauge

/-- One level less, before a text that ends something. There is none below the outermost. -/
def leave (gauge : Gauge) (text : String) : Option Gauge :=
  if text ∈ falls then
    match gauge.level with
    | 0 => none
    | level + 1 => some { gauge with level }
  else some gauge

/-- One level more, after a text that heads something. -/
def enter (gauge : Gauge) (text : String) : Gauge :=
  if text ∈ rises then { gauge with level := gauge.level + 1 } else gauge

/-- Reads a text. What stands in a literal does not count. -/
def read (gauge : Gauge) (text : String) : Option Gauge :=
  if text = "\"" then some { gauge with quoted := !gauge.quoted }
  else if gauge.quoted then some gauge
  else (gauge.leave text).map (·.enter text)

/-- Reads an item. Line breaks do not count. -/
def pass (gauge : Gauge) : Item → Option Gauge
  | .text text => gauge.read text
  | .lineBreak _ => some gauge

/-- How deep the line should stand that begins with the item. -/
def due (gauge : Gauge) : Option Item → Nat
  | some (.text text) => if text ∈ falls then gauge.level - 1 else gauge.level
  | some (.lineBreak _) => gauge.level
  | none => gauge.level

end Gauge

/-! ## Margins -/

/-- The count of a reader, and the depth of the line that has just begun, if nothing stands on it yet. -/
structure Margin where
  gauge : Gauge
  line : Option Nat
  deriving DecidableEq

/-- The depth of the line that an item begins. -/
def Item.line? : Item → Option Nat
  | .text _ => none
  | .lineBreak depth => some depth

namespace Node

/-- How deep a reader is where a node begins. The parts of a construct that has its head behind it stand
inside that construct, at the depth of their parent all the same. -/
def level (depth : Nat) : Node → Nat
  | .chunk _ | .elseIf _ | .funcBody _ | .funcName _ | .parList _ => depth + 1
  | _ => depth

/-- Whether the node writes something, the first of it on the line on which it begins. -/
def beginsLine : Node → Bool
  | .chunk _ | .funcBody _ | .funcName _ | .parList _ | .nameList _ | .expList _ => false
  | .varList vs => !vs.isEmpty
  | _ => true

/-- Whether the node may begin here. -/
def Fits (n : Node) (depth : Nat) (margin : Margin) : Prop :=
  margin.gauge = ⟨false, n.level depth⟩ ∧
    (margin.line = none ∨ n.beginsLine = true ∧ margin.line = some depth)

instance (n : Node) (depth : Nat) (margin : Margin) : Decidable (n.Fits depth margin) :=
  inferInstanceAs (Decidable (_ ∧ (_ ∨ _ ∧ _)))

end Node

/-- The reader who compares the depth of each line with what is due where it begins. A node leaves the count
as it is, and no line without a text. -/
def margins : Monitor Margin where
  step margin item :=
    if margin.line = none ∨ margin.line = some (margin.gauge.due item) then
      (margin.gauge.pass item).map (⟨·, item.line?⟩)
    else none
  whole n depth margin := if n.Fits depth margin then some ⟨margin.gauge, none⟩ else none

/-! ## Shapes -/

namespace Margin

open Monitor

variable {depth level : Nat} {line : Option Nat} {gauge gauge' : Gauge} {s' : Margin} {ps : List Piece}

/-- A text at the beginning of a line that stands as deep as is due before it, or in the middle of one. -/
theorem step_text {text : String} (hline : line = none ∨ line = some (gauge.due (some (.text text))))
    (hread : gauge.read text = some gauge') :
    margins.step ⟨gauge, line⟩ (.text text) = some ⟨gauge', none⟩ := by
  show (if _ then (gauge.read text).map _ else none) = _
  rw [if_pos hline, hread]
  rfl

theorem takes_firstWord {text : String} (hempty : text.isEmpty = false)
    (hline : line = none ∨ line = some (gauge.due (some (.text text))))
    (hread : gauge.read text = some gauge') (hr : margins.Takes depth ⟨gauge', none⟩ ps s') :
    margins.Takes depth ⟨gauge, line⟩ (.text text :: ps) s' :=
  takes_text hempty (step_text hline hread) hr

theorem takes_word {text : String} (hempty : text.isEmpty = false) (hread : gauge.read text = some gauge')
    (hr : margins.Takes depth ⟨gauge', none⟩ ps s') :
    margins.Takes depth ⟨gauge, none⟩ (.text text :: ps) s' :=
  takes_firstWord hempty (.inl rfl) hread hr

/-- The text of a leaf does not count. -/
theorem takes_leaf {text : String} (h : isLeafText text = true) (hline : line = none ∨ line = some level)
    (hr : margins.Takes depth ⟨⟨false, level⟩, none⟩ ps s') :
    margins.Takes depth ⟨⟨false, level⟩, line⟩ (.text text :: ps) s' := by
  obtain ⟨hempty, -, hquote⟩ := not_empty_of_isLeafText h
  have hrise : text ∉ Gauge.rises := fun hmem => ne_of_isLeafText (by decide) h text hmem rfl
  have hfall : text ∉ Gauge.falls := fun hmem => ne_of_isLeafText (by decide) h text hmem rfl
  have hdue : Gauge.due ⟨false, level⟩ (some (.text text)) = level := if_neg hfall
  have hread : Gauge.read ⟨false, level⟩ text = some ⟨false, level⟩ := by
    simp [Gauge.read, Gauge.leave, Gauge.enter, hquote, hrise, hfall]
  exact takes_firstWord hempty (hdue.symm ▸ hline) hread hr

theorem takes_name {name : Name} (hv : name.isValid = true) (hline : line = none ∨ line = some level)
    (hr : margins.Takes depth ⟨⟨false, level⟩, none⟩ ps s') :
    margins.Takes depth ⟨⟨false, level⟩, line⟩ (.text name :: ps) s' :=
  takes_leaf (isLeafText_name hv) hline hr

/-- A new line after a text, whatever its depth. -/
theorem takes_line (hr : margins.Takes depth ⟨gauge, some depth⟩ ps s') :
    margins.Takes depth ⟨gauge, none⟩ (.lineBreak :: ps) s' :=
  takes_lineBreak rfl hr

/-- A node at the beginning of its line, or in the middle of one. -/
theorem takes_firstNode {n : Node} (hbegins : n.beginsLine = true) (hlevel : n.level depth = level)
    (hline : line = none ∨ line = some depth)
    (hr : margins.Takes depth ⟨⟨false, level⟩, none⟩ ps s') :
    margins.Takes depth ⟨⟨false, level⟩, line⟩ (.node n :: ps) s' := by
  subst hlevel
  have hfits : n.Fits depth ⟨⟨false, n.level depth⟩, line⟩ := ⟨rfl, hline.imp id fun h => ⟨hbegins, h⟩⟩
  refine takes_node ?_ hr
  show (if _ then some _ else none) = _
  rw [if_pos hfits]

theorem takes_child {n : Node} (hlevel : n.level depth = level)
    (hr : margins.Takes depth ⟨⟨false, level⟩, none⟩ ps s') :
    margins.Takes depth ⟨⟨false, level⟩, none⟩ (.node n :: ps) s' := by
  subst hlevel
  have hfits : n.Fits depth ⟨⟨false, n.level depth⟩, none⟩ := ⟨rfl, .inl rfl⟩
  refine takes_node ?_ hr
  show (if _ then some _ else none) = _
  rw [if_pos hfits]

/-- What stands between the quotes of a literal does not count. -/
theorem takes_string (lit : StringLit) (hline : line = none ∨ line = some level) :
    margins.Takes depth ⟨⟨false, level⟩, line⟩ lit.shape ⟨⟨false, level⟩, none⟩ := by
  have hcontent : margins.Takes depth ⟨⟨true, level⟩, none⟩
      [.text (Quoted.escape lit.value), .text "\""] ⟨⟨false, level⟩, none⟩ := by
    refine takes_text? (fun _ => step_text (.inl rfl) ?_) rfl
    rw [Gauge.read, if_neg (escape_ne_quote lit.value).1]
    rfl
  exact takes_firstWord rfl hline rfl hcontent

theorem takes_names {names : List Name} (hv : ∀ n ∈ names, n.isValid = true) :
    margins.Takes depth ⟨⟨false, level⟩, none⟩ (namesShape names) ⟨⟨false, level⟩, none⟩ :=
  takes_separated_self (fun _ => rfl) (fun n hn => takes_name (hv n hn) (.inl rfl) takes_nil) rfl

/-- Each statement begins a line of its own. -/
theorem takes_lines (body : Chunk) :
    margins.Takes depth ⟨⟨false, depth⟩, none⟩ (Chunk.lines body) ⟨⟨false, depth⟩, none⟩ :=
  takes_flatMap_self (fun _ => rfl) fun _ _ => takes_line (takes_firstNode rfl rfl (.inr rfl) takes_nil)

/-- A block of a construct, and `end` at the depth of the construct. -/
theorem takes_bodyAndEnd (body : Chunk) :
    margins.Takes depth ⟨⟨false, depth + 1⟩, none⟩ (bodyAndEnd body) ⟨⟨false, depth⟩, none⟩ :=
  takes_child rfl (takes_line (takes_firstWord rfl (.inr rfl) rfl takes_nil))

theorem takes_funcBodyAndEnd (body : FuncBody) :
    margins.Takes depth ⟨⟨false, depth + 1⟩, none⟩ [.node (.funcBody body), .lineBreak, .text "end"]
      ⟨⟨false, depth⟩, none⟩ :=
  takes_child rfl (takes_line (takes_firstWord rfl (.inr rfl) rfl takes_nil))

theorem takes_table (fields : List Field) (hline : line = none ∨ line = some depth) :
    margins.Takes depth ⟨⟨false, depth⟩, line⟩ (tableShape fields) ⟨⟨false, depth⟩, none⟩ := by
  unfold tableShape
  cases fields with
  | nil => exact takes_firstWord rfl hline rfl takes_nil
  | cons field fields =>
    have hentries : margins.Takes (depth + 1) ⟨⟨false, depth + 1⟩, none⟩
        ((field :: fields).flatMap fun f => [.lineBreak, .node (.field f), .text ","])
        ⟨⟨false, depth + 1⟩, none⟩ :=
      takes_flatMap_self (fun _ => rfl) fun _ _ =>
        takes_line (takes_firstNode rfl rfl (.inr rfl) (takes_word rfl rfl takes_nil))
    have hclose : margins.Takes (depth + 1) ⟨⟨false, depth + 1⟩, none⟩
        [.dedent, .lineBreak, .text "\x7d"] ⟨⟨false, depth⟩, none⟩ :=
      takes_dedent (takes_line (takes_firstWord rfl (.inr rfl) rfl takes_nil))
    have hrest := hentries.append (by simp) hclose
    exact takes_firstWord rfl hline rfl (takes_indent hrest)

theorem takes_values (lead : String) (hempty : lead.isEmpty = false)
    (hread : Gauge.read ⟨false, depth⟩ lead = some ⟨false, depth⟩) (values : List Exp) :
    margins.Takes depth ⟨⟨false, depth⟩, none⟩ (valuesAfter lead values) ⟨⟨false, depth⟩, none⟩ := by
  unfold valuesAfter
  split
  · exact takes_nil
  · exact takes_word hempty hread (takes_child rfl takes_nil)

theorem takes_stat {s : Stat} (hf : s.fault? = none) (hline : line = none ∨ line = some depth) :
    margins.Takes depth ⟨⟨false, depth⟩, line⟩ s.shape ⟨⟨false, depth⟩, none⟩ := by
  cases s with
  | function name body =>
    exact takes_firstWord rfl hline rfl (takes_child rfl (takes_funcBodyAndEnd body))
  | localFunction name body =>
    refine takes_firstWord rfl hline rfl (takes_name (Name.isValid_of_fault hf) (.inl rfl) ?_)
    exact takes_funcBodyAndEnd body
  | ifThen condition body elseIfs elseBody =>
    have hhead : margins.Takes depth ⟨⟨false, depth⟩, line⟩
        [.text "if ", .node (.exp condition), .text " then", .node (.chunk body)]
        ⟨⟨false, depth + 1⟩, none⟩ := by
      refine takes_firstWord rfl hline rfl (takes_child rfl ?_)
      exact takes_word rfl rfl (takes_child rfl takes_nil)
    have hclauses : margins.Takes depth ⟨⟨false, depth + 1⟩, none⟩
        (elseIfs.flatMap fun clause => [.lineBreak, .node (.elseIf clause)])
        ⟨⟨false, depth + 1⟩, none⟩ :=
      takes_flatMap_self (fun _ => rfl) fun _ _ =>
        takes_line (takes_firstNode rfl rfl (.inr rfl) takes_nil)
    have helse : margins.Takes depth ⟨⟨false, depth + 1⟩, none⟩
        (elseBody.toList.flatMap fun b => [.lineBreak, .text "else", .node (.chunk b)])
        ⟨⟨false, depth + 1⟩, none⟩ :=
      takes_flatMap_self (fun _ => rfl) fun _ _ =>
        takes_line (takes_firstWord rfl (.inr rfl) rfl (takes_child rfl takes_nil))
    have hend : margins.Takes depth ⟨⟨false, depth + 1⟩, none⟩ [.lineBreak, .text "end"]
        ⟨⟨false, depth⟩, none⟩ := takes_line (takes_firstWord rfl (.inr rfl) rfl takes_nil)
    rw [Stat.shape, List.append_assoc, List.append_assoc]
    exact hhead.append rfl (hclauses.append (by simp) (helse.append (by simp) hend))
  | numericFor var start stop step body =>
    have hrange : margins.Takes depth ⟨⟨false, depth⟩, none⟩
        [.text " = ", .node (.exp start), .text ", ", .node (.exp stop)] ⟨⟨false, depth⟩, none⟩ := by
      refine takes_word rfl rfl (takes_child rfl ?_)
      exact takes_word rfl rfl (takes_child rfl takes_nil)
    have hstep : margins.Takes depth ⟨⟨false, depth⟩, none⟩
        (step.toList.flatMap fun e => [.text ", ", .node (.exp e)]) ⟨⟨false, depth⟩, none⟩ :=
      takes_flatMap_self (fun _ => rfl) fun _ _ =>
        takes_word rfl rfl (takes_child rfl takes_nil)
    have hbody : margins.Takes depth ⟨⟨false, depth⟩, none⟩ (.text " do" :: bodyAndEnd body)
        ⟨⟨false, depth⟩, none⟩ := takes_word rfl rfl (takes_bodyAndEnd body)
    have hafter := hrange.append rfl (hstep.append (by simp) hbody)
    rw [Stat.shape, List.append_assoc, List.append_assoc]
    exact takes_firstWord rfl hline rfl (takes_name (Name.isValid_of_fault hf) (.inl rfl) hafter)
  | genericFor names values body =>
    refine takes_firstWord rfl hline rfl (takes_child rfl ?_)
    refine takes_word rfl rfl (takes_child rfl ?_)
    exact takes_word rfl rfl (takes_bodyAndEnd body)
  | call c => exact takes_firstNode rfl rfl hline takes_nil
  | ret values => exact takes_firstWord rfl hline rfl (takes_values " " rfl rfl values)
  | localVars names values =>
    refine takes_firstWord rfl hline rfl (takes_child rfl ?_)
    exact takes_values " = " rfl rfl (values.getD [])
  | assign targets values =>
    have htargets : (Node.varList targets).beginsLine = true := by
      cases targets with
      | nil => exact absurd hf (by simp [Stat.fault?])
      | cons target targets => rfl
    refine takes_firstNode htargets rfl hline ?_
    exact takes_word rfl rfl (takes_child rfl takes_nil)
  | block body => exact takes_firstWord rfl hline rfl (takes_bodyAndEnd body)
  | repeatUntil body condition =>
    refine takes_firstWord rfl hline rfl (takes_child rfl (takes_line ?_))
    exact takes_firstWord rfl (.inr rfl) rfl (takes_child rfl takes_nil)
  | whileDo condition body =>
    refine takes_firstWord rfl hline rfl (takes_child rfl ?_)
    exact takes_word rfl rfl (takes_bodyAndEnd body)
  | breakLoop => exact takes_firstWord rfl hline rfl takes_nil

theorem takes_exp {e : Exp} (hf : e.fault? = none) (hdigit : (Node.exp e).isDigitFirst = true)
    (hline : line = none ∨ line = some depth) :
    margins.Takes depth ⟨⟨false, depth⟩, line⟩ e.shape ⟨⟨false, depth⟩, none⟩ := by
  cases e with
  | nil => exact takes_firstWord rfl hline rfl takes_nil
  | bool value => cases value <;> exact takes_firstWord rfl hline rfl takes_nil
  | vararg => exact takes_firstWord rfl hline rfl takes_nil
  | number lit => exact takes_leaf (isLeafText_number hdigit) hline takes_nil
  | string lit => exact takes_string lit hline
  | unary op operand =>
    have hoperand : margins.Takes depth ⟨⟨false, depth⟩, none⟩
        (unaryGap op operand ++ [Piece.node (.exp operand)]) ⟨⟨false, depth⟩, none⟩ :=
      takes_unaryGap op operand rfl (takes_child rfl takes_nil)
    cases op <;> exact takes_firstWord rfl hline rfl hoperand
  | binary left op right =>
    have hright : margins.Takes depth ⟨⟨false, depth⟩, none⟩
        [.text " ", .text op.spelling, .text " ", .node (.exp right)] ⟨⟨false, depth⟩, none⟩ := by
      refine takes_word rfl rfl ?_
      have hspace : margins.Takes depth ⟨⟨false, depth⟩, none⟩ [.text " ", .node (.exp right)]
          ⟨⟨false, depth⟩, none⟩ :=
        takes_word rfl rfl (takes_child rfl takes_nil)
      cases op <;> exact takes_word rfl rfl hspace
    exact takes_firstNode rfl rfl hline hright
  | function body => exact takes_firstWord rfl hline rfl (takes_funcBodyAndEnd body)
  | paren inner =>
    refine takes_firstWord rfl hline rfl (takes_child rfl ?_)
    exact takes_word rfl rfl takes_nil
  | table fields => exact takes_table fields hline
  | prefixed inner => exact takes_firstNode rfl rfl hline takes_nil

theorem takes_funcName {name : FuncName} (hv : ∀ n ∈ name.names, n.isValid = true) :
    margins.Takes depth ⟨⟨false, level⟩, none⟩ name.shape ⟨⟨false, level⟩, none⟩ :=
  takes_path (fun _ => ⟨⟨false, level⟩, none⟩) (takes_name (hv _ List.mem_cons_self) (.inl rfl) takes_nil)
    (fun _ => rfl) (fun _ => rfl)
    fun _ n hn => takes_name (hv n (List.mem_cons_of_mem _ hn)) (.inl rfl) takes_nil

theorem takes_parList {params : ParList} (hv : ∀ n ∈ params.names, n.isValid = true) :
    margins.Takes depth ⟨⟨false, level⟩, none⟩ params.shape ⟨⟨false, level⟩, none⟩ :=
  takes_params rfl (takes_names hv) rfl rfl rfl

/-- Arguments and tables begin and end where they stand. -/
theorem takes_args (a : Args) (hline : line = none ∨ line = some depth) :
    margins.Takes depth ⟨⟨false, depth⟩, line⟩ a.shape ⟨⟨false, depth⟩, none⟩ := by
  cases a with
  | list values =>
    refine takes_firstWord rfl hline rfl (takes_child rfl ?_)
    exact takes_word rfl rfl takes_nil
  | table fields => exact takes_table fields hline
  | string lit => exact takes_string lit hline

theorem takes_field {f : Field} (hf : f.fault? = none) (hline : line = none ∨ line = some depth) :
    margins.Takes depth ⟨⟨false, depth⟩, line⟩ f.shape ⟨⟨false, depth⟩, none⟩ := by
  cases f with
  | positional value => exact takes_firstNode rfl rfl hline takes_nil
  | named name value =>
    refine takes_name (Name.isValid_of_fault hf) hline ?_
    exact takes_word rfl rfl (takes_child rfl takes_nil)
  | keyed key value =>
    refine takes_firstWord rfl hline rfl (takes_child rfl ?_)
    exact takes_word rfl rfl (takes_child rfl takes_nil)

theorem takes_var {v : Var} (hf : v.fault? = none) (hline : line = none ∨ line = some depth) :
    margins.Takes depth ⟨⟨false, depth⟩, line⟩ v.shape ⟨⟨false, depth⟩, none⟩ := by
  cases v with
  | name n => exact takes_name (Name.isValid_of_fault hf) hline takes_nil
  | index base key =>
    refine takes_firstNode rfl rfl hline ?_
    refine takes_word rfl rfl (takes_child rfl ?_)
    exact takes_word rfl rfl takes_nil
  | member base n =>
    refine takes_firstNode rfl rfl hline (takes_word rfl rfl ?_)
    exact takes_name (Name.isValid_of_fault hf) (.inl rfl) takes_nil

theorem takes_call {c : Call} (hf : c.fault? = none) (hline : line = none ∨ line = some depth) :
    margins.Takes depth ⟨⟨false, depth⟩, line⟩ c.shape ⟨⟨false, depth⟩, none⟩ := by
  cases c with
  | normal callee args =>
    refine takes_firstNode rfl rfl hline ?_
    exact takes_child rfl takes_nil
  | method object name args =>
    refine takes_firstNode rfl rfl hline (takes_word rfl rfl ?_)
    refine takes_name (Name.isValid_of_fault hf) (.inl rfl) ?_
    exact takes_child rfl takes_nil

/-- **Every construct stands as deep as its texts say**, and its lines with it. -/
theorem takes_shape {n : Node} (hf : n.fault? = none) (hdigit : n.isDigitFirst = true)
    (hline : line = none ∨ n.beginsLine = true ∧ line = some depth) :
    margins.Takes depth ⟨⟨false, n.level depth⟩, line⟩ n.shape ⟨⟨false, n.level depth⟩, none⟩ := by
  have hdepth : line = none ∨ line = some depth := hline.imp id And.right
  have hmiddle : n.beginsLine = false → line = none := fun hbegins =>
    hline.resolve_right fun h => absurd h.1 (by simp [hbegins])
  cases n with
  | chunk body =>
    obtain rfl := hmiddle rfl
    exact takes_indent ((takes_lines body).append (by simp [Chunk.lines]) rfl)
  | stat s => exact takes_stat hf hdepth
  | elseIf clause =>
    obtain ⟨condition, body⟩ := clause
    refine takes_firstWord rfl hdepth rfl (takes_child rfl ?_)
    exact takes_word rfl rfl (takes_child rfl takes_nil)
  | funcBody body =>
    obtain rfl := hmiddle rfl
    obtain ⟨params, body⟩ := body
    exact takes_child rfl (takes_child rfl takes_nil)
  | funcName name =>
    obtain rfl := hmiddle rfl
    exact takes_funcName (isValid_of_firstInvalid hf)
  | parList params =>
    obtain rfl := hmiddle rfl
    exact takes_parList (isValid_of_firstInvalid hf)
  | exp e => exact takes_exp hf hdigit hdepth
  | prefixExp e =>
    cases e with
    | var v => exact takes_firstNode rfl rfl hdepth takes_nil
    | call c => exact takes_firstNode rfl rfl hdepth takes_nil
    | paren inner =>
      exact takes_firstWord rfl hdepth rfl (takes_child rfl (takes_word rfl rfl takes_nil))
  | var v => exact takes_var hf hdepth
  | call c => exact takes_call hf hdepth
  | args a => exact takes_args a hdepth
  | field f => exact takes_field hf hdepth
  | table fields => exact takes_table fields hdepth
  | nameList names =>
    obtain rfl := hmiddle rfl
    exact takes_names (isValid_of_firstInvalid hf)
  | expList es =>
    obtain rfl := hmiddle rfl
    exact takes_separated_self (fun _ => rfl) (fun _ _ => takes_child rfl takes_nil) rfl
  | varList vs =>
    cases vs with
    | nil =>
      obtain rfl := hmiddle rfl
      exact takes_nil
    | cons v vs =>
      have hmore : margins.Takes depth ⟨⟨false, depth⟩, none⟩
          ((vs.map fun v => Piece.node (.var v)).flatMap fun q => [.text ", ", q])
          ⟨⟨false, depth⟩, none⟩ := by
        rw [List.flatMap_map]
        exact takes_flatMap_self (fun _ => rfl) fun _ _ => takes_word rfl rfl (takes_child rfl takes_nil)
      show margins.Takes depth _ (separated (.node (.var v) :: _)) _
      rw [separated_cons]
      exact takes_firstNode rfl rfl hdepth hmore
  | name n => exact takes_name (Name.isValid_of_fault hf) hdepth takes_nil

end Margin

theorem margins_sound : margins.Sound Node.DigitsFirst where
  child h hm := h.child hm
  shape {n depth s s'} h hf hwhole := by
    obtain ⟨gauge, line⟩ := s
    have hwhole' : (if n.Fits depth ⟨gauge, line⟩ then some (⟨gauge, none⟩ : Margin) else none) = some s' :=
      hwhole
    split at hwhole'
    · next hfits =>
      obtain ⟨rfl, hline⟩ := hfits
      obtain rfl := Option.some.inj hwhole'
      exact Margin.takes_shape hf (h n n.self_mem_preorder) hline
    · exact absurd hwhole' (by simp)

/-! ## Runs -/

/-- What the monitor does at an item, the reader does to the count. -/
theorem pass_of_step (s : Margin) (item : Item) (s' : Margin) (h : margins.step s item = some s') :
    s.gauge.pass item = some s'.gauge ∧ s'.line = item.line? ∧
      (s.line = none ∨ s.line = some (s.gauge.due (some item))) := by
  simp only [margins] at h
  split at h
  · next hline =>
    obtain ⟨gauge, hgauge, rfl⟩ := Option.map_eq_some_iff.mp h
    exact ⟨hgauge, rfl, hline⟩
  · exact absurd h (by simp)

theorem foldlM_pass {items : List Item} {s s' : Margin} (h : margins.read s items = some s') :
    items.foldlM Gauge.pass s.gauge = some s'.gauge :=
  Monitor.foldlM_of_read (fun s item s' hstep => (pass_of_step s item s' hstep).1) h

/-- A line that has just begun stands as deep as is due. -/
theorem due_of_read {items : List Item} {depth : Nat} {gauge gauge' : Gauge}
    (h : margins.read ⟨gauge, some depth⟩ items = some ⟨gauge', none⟩) : depth = gauge.due items.head? := by
  cases items with
  | nil => exact absurd h (by simp [Monitor.read])
  | cons item items =>
    obtain ⟨s₁, hstep, -⟩ := Option.bind_eq_some_iff.mp h
    obtain ⟨-, -, hline | hline⟩ := pass_of_step _ _ _ hstep
    · exact absurd hline (by simp)
    · exact Option.some.inj hline

/-- Whether the node is no part of a construct whose head is outside the node. Chunks, statements and
expressions stand alone, and all that expressions are made of. -/
def Node.standsAlone : Node → Bool
  | .elseIf _ | .funcBody _ | .funcName _ | .parList _ => false
  | _ => true

/-- **Indentation matches the nesting that the texts show.** A reader of a run who counts the texts that head
a block or a table, and those that end one, never counts below zero and comes out at zero. Every line break
is the line end of the style and the indentation of the style, as often as the count says: one time less if
the next fragment ends something. -/
theorem indentation_matches {root : Node} (hroot : root.standsAlone = true) (hdigit : root.DigitsFirst)
    (style : Style) {text : String} (h : unparse root style = .ok text) :
    Unparser.fragments ⟨root, style⟩ = root.rootLayout.items.map (fun item => .ok (style.write item)) ∧
      root.rootLayout.items.foldlM Gauge.pass ⟨false, 0⟩ = some ⟨false, 0⟩ ∧
      ∀ before depth after, root.rootLayout.items = before ++ .lineBreak depth :: after →
        ∃ gauge, before.foldlM Gauge.pass ⟨false, 0⟩ = some gauge ∧
          style.write (.lineBreak depth) = style.newLine ++
            String.join (List.replicate (gauge.due after.head?) style.indent) := by
  have hopening : margins.Takes 0 ⟨⟨false, 0⟩, none⟩ root.opening ⟨⟨false, 0⟩, none⟩ := by
    cases root with
    | chunk body => exact Margin.takes_lines body
    | elseIf _ | funcBody _ | funcName _ | parList _ => exact absurd hroot (by simp [Node.standsAlone])
    | _ => exact Margin.takes_child rfl Monitor.takes_nil
  have hread := margins_sound.read_of_ok hdigit hopening h
  refine ⟨?_, foldlM_pass hread, ?_⟩
  · rw [fragments_of_ok h, Layout.texts, List.map_map]
    rfl
  · intro before depth after heq
    have hsplit : (margins.read ⟨⟨false, 0⟩, none⟩ before).bind
        (margins.read · (.lineBreak depth :: after)) = some ⟨⟨false, 0⟩, none⟩ := by
      rw [← hread, heq, Monitor.read, Monitor.read, List.foldlM_append]
      rfl
    obtain ⟨s, hbefore, hafter⟩ := Option.bind_eq_some_iff.mp hsplit
    obtain ⟨⟨gauge, line⟩, hstep, hrest⟩ := Option.bind_eq_some_iff.mp hafter
    -- the line break leaves the count alone, and what follows finds its depth right
    obtain ⟨hgauge, hline, -⟩ := pass_of_step _ _ _ hstep
    obtain rfl : s.gauge = gauge := Option.some.inj hgauge
    obtain rfl : line = some depth := hline
    refine ⟨s.gauge, foldlM_pass hbefore, ?_⟩
    rw [← due_of_read hrest]
    exact style.lineBreak_eq depth

/-- A loop with a table in its condition, with a tab for each level and two characters to a line end. -/
theorem indentation_matches_loop :
    (Node.stat (.repeatUntil [.breakLoop] (.table [.positional .nil]))).standsAlone = true ∧
      (Node.stat (.repeatUntil [.breakLoop] (.table [.positional .nil]))).DigitsFirst ∧
      unparse (.stat (.repeatUntil [.breakLoop] (.table [.positional .nil]))) ⟨"\r\n", "\t"⟩ =
        .ok "repeat\r\n\tbreak\r\nuntil \x7b\r\n\tnil,\r\n\x7d" ∧
      Unparser.fragments ⟨.stat (.repeatUntil [.breakLoop] (.table [.positional .nil])), "\r\n", "\t"⟩ =
        (Node.stat (.repeatUntil [.breakLoop] (.table [.positional .nil]))).rootLayout.items.map
          (fun item => .ok (Style.write ⟨"\r\n", "\t"⟩ item)) ∧
      (Node.stat (.repeatUntil [.breakLoop] (.table [.positional .nil]))).rootLayout.items.foldlM
        Gauge.pass ⟨false, 0⟩ = some ⟨false, 0⟩ ∧
      ∀ before depth after,
        (Node.stat (.repeatUntil [.breakLoop] (.table [.positional .nil]))).rootLayout.items =
          before ++ .lineBreak depth :: after →
        ∃ gauge, before.foldlM Gauge.pass ⟨false, 0⟩ = some gauge ∧
          Style.write ⟨"\r\n", "\t"⟩ (.lineBreak depth) =
            "\r\n" ++ String.join (List.replicate (gauge.due after.head?) "\t") := by
  have hdigit : (Node.stat (.repeatUntil [.breakLoop] (.table [.positional .nil]))).DigitsFirst := by
    decide +kernel
  have hlayout : (Node.stat (.repeatUntil [.breakLoop] (.table [.positional .nil]))).rootLayout =
      ⟨[.text "repeat", .lineBreak 1, .text "break", .lineBreak 0, .text "until ", .text "\x7b",
        .lineBreak 1, .text "nil", .text ",", .lineBreak 0, .text "\x7d"], none⟩ := by decide +kernel
  have htext : unparse (.stat (.repeatUntil [.breakLoop] (.table [.positional .nil]))) ⟨"\r\n", "\t"⟩ =
      .ok "repeat\r\n\tbreak\r\nuntil \x7b\r\n\tnil,\r\n\x7d" := by
    rw [unparse_eq_layout, hlayout]
    rfl
  exact ⟨rfl, hdigit, htext, indentation_matches rfl hdigit ⟨"\r\n", "\t"⟩ htext⟩

end LuaUnparse
