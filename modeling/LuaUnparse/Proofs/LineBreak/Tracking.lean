import LuaUnparse.Proofs.LineBreak.Scan
import LuaUnparse.Proofs.Reading.Spelling

/-!
# `LuaUnparse.Proofs.LineBreak.Tracking` — the line breaks of a tree are found again

A reader of fragments finds the line breaks of a tree again if the tree has no block in which a statement
that may be called is followed by one that begins with a parenthesis. The proof follows the fragments of
each construct through the modes of the reader.

## Contents
- **Ends and beginnings.** `Exp.isCallable`, `Stat.isCallable` and `Stat.beginsParen`, and `Node.Separate`,
  the trees in which no line break is in doubt.
- **Pieces.** `Tracks`, for pieces between which the reader puts every line break back, and its rules.
- **Trees.** `Node.Tracked`, what the reader goes through at a node, and `Node.tracked`.
-/

namespace LuaUnparse

/-! ## Ends and beginnings -/

/-- Whether the expression ends in one that may be called. -/
def Exp.isCallable : Exp → Bool
  | .unary _ operand => operand.isCallable
  | .binary _ _ right => right.isCallable
  | .paren _ | .prefixed _ => true
  | _ => false

/-- Whether the last of the expressions, if there is one, ends in one that may be called. -/
def lastCallable (values : List Exp) : Bool :=
  values.getLast?.any Exp.isCallable

/-- Whether the statement ends in an expression that may be called. -/
def Stat.isCallable : Stat → Bool
  | .call _ => true
  | .ret values => lastCallable values
  | .localVars _ values => lastCallable (values.getD [])
  | .assign _ values => lastCallable values
  | .repeatUntil _ condition => condition.isCallable
  | _ => false

mutual

/-- Whether the expression is written with a parenthesis first. -/
def PrefixExp.beginsParen : PrefixExp → Bool
  | .var v => v.beginsParen
  | .call c => c.beginsParen
  | .paren _ => true

/-- Whether the variable is written with a parenthesis first. -/
def Var.beginsParen : Var → Bool
  | .name _ => false
  | .index base _ => base.beginsParen
  | .member base _ => base.beginsParen

/-- Whether the call is written with a parenthesis first. -/
def Call.beginsParen : Call → Bool
  | .normal callee _ => callee.beginsParen
  | .method object _ _ => object.beginsParen

end

/-- Whether the statement is written with a parenthesis first. -/
def Stat.beginsParen : Stat → Bool
  | .call c => c.beginsParen
  | .assign (target :: _) _ => target.beginsParen
  | _ => false

/-- Whether no statement that may be called stands before one that begins with a parenthesis. -/
def Chunk.isSeparate : Chunk → Bool
  | first :: second :: rest =>
    !(first.isCallable && second.beginsParen) && Chunk.isSeparate (second :: rest)
  | _ => true

/-- Whether the node, if it is a block, leaves no doubt where its statements end. -/
def Node.isSeparate : Node → Bool
  | .chunk body => Chunk.isSeparate body
  | _ => true

/-- A tree in which no block leaves a doubt where its statements end. -/
def Node.Separate (n : Node) : Prop :=
  ∀ m ∈ n.preorder, m.isSeparate = true

instance (n : Node) : Decidable n.Separate :=
  inferInstanceAs (Decidable (∀ m ∈ n.preorder, m.isSeparate = true))

/-! ## Pieces -/

/-- From one state to the other, the reader puts the line breaks of the pieces back. -/
def Tracks (s : Scan) (ps : List Piece) (s' : Scan) : Prop :=
  ∀ depth, (layoutPieces depth ps).fault = none ∧ ∀ rest,
    recover s ((layoutPieces depth ps).unbroken ++ rest) =
      (layoutPieces depth ps).items.map Item.mark ++ recover s' rest

/-- The text is a fragment in this role, and no line break. -/
def IsFragment (t : String) (role : Role) : Prop :=
  t.isEmpty = false ∧ isLineBreak t = false ∧ Role.of t = role

instance (t : String) (role : Role) : Decidable (IsFragment t role) :=
  inferInstanceAs (Decidable (_ ∧ _ ∧ _))

section

variable {s s' s'' : Scan} {ps qs : List Piece} {t : String} {role : Role}

theorem tracks_nil : Tracks s [] s := by
  intro depth
  rw [layoutPieces]
  exact ⟨rfl, fun _ => rfl⟩

theorem Tracks.append (h : Tracks s ps s') (hs : Tracks s' qs s'') : Tracks s (ps ++ qs) s'' := by
  intro depth
  obtain ⟨hnone, htracks⟩ := h depth
  obtain ⟨hnone', htracks'⟩ := hs (depthAfter depth ps)
  rw [layoutPieces_append, Layout.unbroken_append hnone, Layout.append_of_none hnone]
  refine ⟨hnone', fun rest => ?_⟩
  rw [List.append_assoc, htracks, htracks', List.map_append, List.append_assoc]

/-- A text that stays on the line. -/
theorem tracks_text (ht : IsFragment t role) (hstay : s.mode.stays role = true)
    (h : Tracks (s.next role) ps s') : Tracks s (.text t :: ps) s' := by
  obtain ⟨hfull, hline, rfl⟩ := ht
  intro depth
  obtain ⟨hnone, htracks⟩ := h depth
  rw [layoutPieces_text hfull]
  refine ⟨hnone, fun rest => ?_⟩
  rw [Layout.unbroken_text hline, List.cons_append, recover_stay hstay, htracks]
  rfl

/-- A text that begins a line. -/
theorem tracks_line (ht : IsFragment t role) (hbreak : s.mode.breaks role = true)
    (h : Tracks (s.atLine.next role) ps s') : Tracks s (.lineBreak :: .text t :: ps) s' := by
  obtain ⟨hfull, hline, rfl⟩ := ht
  intro depth
  obtain ⟨hnone, htracks⟩ := h depth
  rw [layoutPieces, layoutPieces_text hfull]
  refine ⟨hnone, fun rest => ?_⟩
  rw [Layout.unbroken_lineBreak, Layout.unbroken_text hline, List.cons_append, recover_break hbreak,
    recover_stay rfl, htracks]
  rfl

theorem tracks_indent (h : Tracks s ps s') : Tracks s (.indent :: ps) s' := by
  intro depth
  rw [layoutPieces]
  exact h (depth + 1)

theorem tracks_dedent (h : Tracks s ps s') : Tracks s (.dedent :: ps) s' := by
  intro depth
  rw [layoutPieces]
  exact h (depth - 1)

theorem tracks_string (lit : StringLit) (hstay : s.mode.stays .quote = true)
    {callable : Bool} (hnext : s.next .quote = ⟨.quoted callable, s.braces⟩) :
    Tracks s lit.shape ⟨.closed callable, s.braces⟩ := by
  intro depth
  rw [layoutPieces_string]
  refine ⟨rfl, fun rest => ?_⟩
  rw [Layout.unbroken_string, recover_string lit.value hstay hnext]

/-- A string literal that begins a line. -/
theorem tracks_stringLine (lit : StringLit) (b : List Bool) :
    Tracks ⟨.entry, b⟩ (.lineBreak :: lit.shape) ⟨.complete, b⟩ := by
  intro depth
  rw [layoutPieces, layoutPieces_string]
  refine ⟨rfl, fun rest => ?_⟩
  rw [Layout.unbroken_lineBreak, Layout.unbroken_string]
  have hline : recover ⟨.inside, b⟩ ((quotedItems lit.value).map ({} : Style).write ++ rest) =
      (quotedItems lit.value).map Item.mark ++ recover ⟨.closed false, b⟩ rest :=
    recover_string lit.value rfl rfl rest
  have hbreak : ∀ more, recover ⟨.entry, b⟩ ("\"" :: more) =
      none :: recover ⟨.inside, b⟩ ("\"" :: more) := recover_break rfl
  show recover ⟨.entry, b⟩ ("\"" :: _) = _
  rw [hbreak]
  exact congrArg (none :: ·) hline

/-- The shape of a node in the place of the node. -/
theorem tracks_shape {n : Node} (hf : n.fault? = none) (pre : List Piece)
    (h : Tracks s (pre ++ n.shape) s') : Tracks s (pre ++ [Piece.node n]) s' := by
  have hlayout : ∀ depth, layoutPieces depth (pre ++ [Piece.node n]) = layoutPieces depth (pre ++ n.shape) := by
    intro depth
    rw [layoutPieces_append, layoutPieces_append]
    show _ ++ n.layout _ = _
    rw [Node.layout_of_none hf]
  intro depth
  rw [hlayout]
  exact h depth

theorem tracks_node {n : Node} (hn : Tracks s [.node n] s') (h : Tracks s' ps s'') :
    Tracks s (.node n :: ps) s'' :=
  hn.append h

/-- Pieces after others that have something before them. -/
theorem Tracks.onward {pre : List Piece} (h : Tracks s (pre ++ ps) s') (hs : Tracks s' qs s'') :
    Tracks s (pre ++ (ps ++ qs)) s'' := by
  rw [← List.append_assoc]
  exact h.append hs

end

/-! ## Modes -/

namespace Mode

/-- What comes before the first fragment of an expression or a statement: nothing inside a construct, and a
line break elsewhere. -/
def lead : Mode → List Piece
  | .inside => []
  | _ => [.lineBreak]

/-- Whether a line may end here. -/
def ends : Mode → Bool
  | .complete | .declared | .callable => true
  | _ => false

/-- Whether an expression may come next. -/
def awaits : Mode → Bool
  | .inside | .entry => true
  | _ => false

/-- Whether an expression or a statement that may begin with a parenthesis, as the flag says, may come
next. -/
def admits (paren : Bool) : Mode → Bool
  | .inside | .entry | .complete | .declared => true
  | .callable => !paren
  | _ => false

/-- Whether a fragment in this role may be the first one of an expression or a statement. -/
def enters (mode : Mode) (role : Role) : Bool :=
  mode == .inside || mode.breaks role

theorem enters_of_awaits {mode : Mode} (h : mode.awaits = true) (role : Role) :
    mode.enters role = true := by
  cases mode with
  | inside | entry => rfl
  | _ => simp [awaits] at h

theorem enters_lead {paren : Bool} {mode : Mode} (h : mode.admits paren = true) (next : Mode) :
    mode.enters (.lead next) = true := by
  cases mode with
  | inside | entry | complete | declared | callable => rfl
  | _ => simp [admits] at h

theorem enters_name {paren : Bool} {mode : Mode} (h : mode.admits paren = true) :
    mode.enters .name = true := by
  cases mode with
  | inside | entry | complete | declared | callable => rfl
  | _ => simp [admits] at h

theorem enters_openParen {mode : Mode} (h : mode.admits true = true) :
    mode.enters .openParen = true := by
  cases mode with
  | inside | entry | complete | declared => rfl
  | _ => simp [admits] at h

theorem admits_of_awaits {mode : Mode} (h : mode.awaits = true) (paren : Bool) :
    mode.admits paren = true := by
  cases mode with
  | inside | entry => rfl
  | _ => simp [awaits] at h

theorem breaks_lead {mode : Mode} (h : mode.ends = true) (next : Mode) :
    mode.breaks (.lead next) = true := by
  cases mode with
  | complete | declared | callable => rfl
  | _ => simp [ends] at h

theorem ends_closed (callable : Bool) : (closed callable).ends = true := by
  cases callable <;> rfl

theorem eq_true_of_closed {callable : Bool} (h : closed callable = .callable) : callable = true := by
  cases callable with
  | false => exact absurd h (by decide)
  | true => rfl

/-- The mode after expressions with commas between them, or the one before them if there are none. -/
def afterValues (mode : Mode) (values : List Exp) : Mode :=
  if values.isEmpty then mode else .closed (lastCallable values)

theorem ends_afterValues {mode : Mode} (h : mode.ends = true) (values : List Exp) :
    (mode.afterValues values).ends = true := by
  unfold afterValues
  split
  · exact h
  · exact ends_closed _

theorem lastCallable_of_afterValues {mode : Mode} (hmode : mode ≠ .callable) {values : List Exp}
    (h : mode.afterValues values = .callable) : lastCallable values = true := by
  unfold afterValues at h
  split at h
  · exact absurd h hmode
  · exact eq_true_of_closed h

end Mode

/-- The mode after a fragment that follows an expression on its line, whether this may be called or not. -/
def Role.afterExp : Role → Option Mode
  | .stay next => some next
  | .link => some .inside
  | .closeParen => some .callable
  | .entryEnd => some .entry
  | _ => none

theorem Role.next_of_afterExp {role : Role} {next : Mode} (h : role.afterExp = some next)
    (callable : Bool) (b : List Bool) :
    (Mode.closed callable).stays role = true ∧ Scan.next ⟨.closed callable, b⟩ role = ⟨next, b⟩ := by
  cases role with
  | stay _ | link | closeParen | entryEnd =>
    cases h
    cases callable <;> exact ⟨rfl, rfl⟩
  | _ => simp [afterExp] at h

section

variable {m m' : Mode} {b : List Bool} {s s' : Scan} {ps : List Piece} {t : String} {role : Role}
  {callable : Bool}

/-- The first text of an expression or a statement. -/
theorem tracks_enter (ht : IsFragment t role) (henters : m.enters role = true)
    (h : Tracks (Scan.next ⟨.inside, b⟩ role) ps s') : Tracks ⟨m, b⟩ (m.lead ++ .text t :: ps) s' := by
  cases m with
  | inside => exact tracks_text ht rfl h
  | _ => exact tracks_line ht henters h

/-- The word with which a statement begins. -/
theorem tracks_word {paren : Bool} (ht : IsFragment t (.lead m')) (hm : m.admits paren = true)
    (h : Tracks ⟨m', b⟩ ps s') : Tracks ⟨m, b⟩ (m.lead ++ .text t :: ps) s' :=
  tracks_enter ht (Mode.enters_lead hm m') h

/-- A word that begins a line after a statement. -/
theorem tracks_lineWord (ht : IsFragment t (.lead m')) (hm : m.ends = true)
    (h : Tracks ⟨m', b⟩ ps s') : Tracks ⟨m, b⟩ (.lineBreak :: .text t :: ps) s' :=
  tracks_line ht (Mode.breaks_lead hm m') h

/-- A text after an expression. -/
theorem tracks_after (ht : IsFragment t role) (hnext : role.afterExp = some m')
    (h : Tracks ⟨m', b⟩ ps s') : Tracks ⟨.closed callable, b⟩ (.text t :: ps) s' := by
  obtain ⟨hstay, hmode⟩ := Role.next_of_afterExp hnext callable b
  exact tracks_text ht hstay (hmode ▸ h)

end

/-! ## Trees -/

/-- What the reader goes through at a node. -/
def Node.Tracked : Node → Prop
  | .chunk body => ∃ m, m.ends = true ∧ ∀ b, Tracks ⟨.complete, b⟩ [.node (.chunk body)] ⟨m, b⟩
  | .stat s => ∃ m', m'.ends = true ∧ (m' = .callable → s.isCallable = true) ∧
      ∀ m b, m.admits s.beginsParen = true → Tracks ⟨m, b⟩ (m.lead ++ [.node (.stat s)]) ⟨m', b⟩
  | .elseIf c => ∃ m', m'.ends = true ∧
      ∀ m b, m.ends = true → Tracks ⟨m, b⟩ [.lineBreak, .node (.elseIf c)] ⟨m', b⟩
  | .funcBody body => ∃ m, m.ends = true ∧ ∀ b, Tracks ⟨.heading, b⟩ [.node (.funcBody body)] ⟨m, b⟩
  | .funcName n => ∀ b, Tracks ⟨.heading, b⟩ [.node (.funcName n)] ⟨.heading, b⟩
  | .parList p => ∀ b, Tracks ⟨.heading, b⟩ [.node (.parList p)] ⟨.complete, b⟩
  | .exp e => ∀ m b, m.awaits = true →
      Tracks ⟨m, b⟩ (m.lead ++ [.node (.exp e)]) ⟨.closed e.isCallable, b⟩
  | .prefixExp e => ∀ m b, m.admits e.beginsParen = true →
      Tracks ⟨m, b⟩ (m.lead ++ [.node (.prefixExp e)]) ⟨.callable, b⟩
  | .var v => ∀ m b, m.admits v.beginsParen = true →
      Tracks ⟨m, b⟩ (m.lead ++ [.node (.var v)]) ⟨.callable, b⟩
  | .call c => ∀ m b, m.admits c.beginsParen = true →
      Tracks ⟨m, b⟩ (m.lead ++ [.node (.call c)]) ⟨.callable, b⟩
  | .args a => ∀ b, Tracks ⟨.callable, b⟩ [.node (.args a)] ⟨.callable, b⟩
  | .field f => ∃ callable, ∀ b,
      Tracks ⟨.entry, b⟩ [.lineBreak, .node (.field f)] ⟨.closed callable, b⟩
  | .nameList names => names ≠ [] → ∀ b,
      Tracks ⟨.inside, b⟩ [.node (.nameList names)] ⟨.callable, b⟩ ∧
      Tracks ⟨.declaring, b⟩ [.node (.nameList names)] ⟨.declared, b⟩
  | .expList es => ∀ b, Tracks ⟨.inside, b⟩ [.node (.expList es)] ⟨Mode.afterValues .inside es, b⟩
  | .varList vs => ∀ v vs', vs = v :: vs' → ∀ m b, m.admits v.beginsParen = true →
      Tracks ⟨m, b⟩ (m.lead ++ [.node (.varList vs)]) ⟨.callable, b⟩
  | .table _ | .name _ => True

section

variable {s s' : Scan} {m m' : Mode} {b : List Bool} {ps : List Piece}

theorem isFragment_name {name : Name} (hv : name.isValid = true) : IsFragment name .name := by
  have hbare := isBare_of_isValid hv
  have hempty : name.isEmpty = false :=
    Bool.eq_false_iff.mpr fun h => Name.ne_empty_of_isValid hv (String.isEmpty_iff.mp h)
  exact ⟨hempty, isLineBreak_of_isBare hbare, by rw [Role.of, if_pos hv]⟩

theorem isFragment_number {lit : NumberLit} (h : lit.isPlain = true) :
    IsFragment lit.raw (.stay .complete) := by
  rw [NumberLit.isPlain, Bool.and_eq_true] at h
  cases hraw : lit.raw.toList with
  | nil => simp [hraw] at h
  | cons c cs =>
    have hdigit : c.isDigit = true := by simpa [hraw] using h.1
    have hempty : lit.raw.isEmpty = false := by
      refine Bool.eq_false_iff.mpr fun h => ?_
      rw [String.isEmpty_iff.mp h] at hraw
      simp at hraw
    have hline : isLineBreak lit.raw = false := by
      have hne : c ≠ '\n' := by rintro rfl; exact absurd hdigit (by decide)
      simp [isLineBreak, hraw, hne]
    have hname : ¬ Name.isValid lit.raw = true := by
      intro hv
      have hword := (Bool.and_eq_true_iff.mp hv).1
      rw [hraw, Name.isWord, Bool.and_eq_true] at hword
      rw [Name.isDigit_of_isStart hword.1] at hdigit
      exact absurd hdigit (by decide)
    refine ⟨hempty, hline, ?_⟩
    rw [Role.of, if_neg hname, hraw, List.head?_cons, Option.any_some, if_pos hdigit]

theorem isFragment_binOp (op : BinOp) : IsFragment op.spelling (.stay .inside) := by
  cases op <;> decide

theorem isFragment_unOp (op : UnOp) : IsFragment op.spelling (.stay .inside) := by
  cases op <;> decide

/-- A list with commas between its items: after each of them a comma leads back to where it began. -/
theorem tracks_separated {Item : Type} {f : Item → Piece} (endOf : Item → Mode) {first : Item}
    {items : List Item} {pre : List Piece} (hfirst : Tracks s (pre ++ [f first]) ⟨endOf first, b⟩)
    (hmore : ∀ i ∈ items, Tracks ⟨m, b⟩ [f i] ⟨endOf i, b⟩)
    (hlink : ∀ i, (endOf i).stays .link = true ∧ (endOf i).next .link = m) :
    Tracks s (pre ++ separated ((first :: items).map f))
      ⟨endOf ((first :: items).getLast (List.cons_ne_nil first items)), b⟩ := by
  have hcomma : IsFragment ", " .link := by decide
  -- the first item stands apart: it may have something before it and begin in another mode
  have hrest : Tracks ⟨endOf first, b⟩ (items.flatMap fun i => [.text ", ", f i])
      ⟨endOf ((first :: items).getLast (List.cons_ne_nil first items)), b⟩ := by
    clear hfirst
    induction items generalizing first with
    | nil => exact tracks_nil
    | cons i items ih =>
      rw [List.forall_mem_cons] at hmore
      rw [List.flatMap_cons, List.getLast_cons (List.cons_ne_nil i items)]
      refine tracks_text hcomma (hlink first).1 ?_
      show Tracks ⟨(endOf first).next .link, b⟩ _ _
      rw [(hlink first).2]
      exact hmore.1.append (ih hmore.2)
  have happend := hfirst.append hrest
  rw [List.map_cons, separated_cons, List.flatMap_map]
  rw [List.append_assoc] at happend
  exact happend

theorem tracks_name {name : Name} (hv : name.isValid = true) (hstay : m.stays .name = true)
    (h : Tracks ⟨m.next .name, b⟩ ps s') : Tracks ⟨m, b⟩ (.text name :: ps) s' :=
  tracks_text (isFragment_name hv) hstay h

/-- Names with commas between them. A name leads to a mode from which a comma leads back. -/
theorem tracks_names {names : List Name} (hv : ∀ n ∈ names, n.isValid = true) (hne : names ≠ [])
    (hstay : m.stays .name = true) (hnext : m.next .name = m')
    (hlink : m'.stays .link = true ∧ m'.next .link = m) :
    Tracks ⟨m, b⟩ (namesShape names) ⟨m', b⟩ := by
  have hname : ∀ n ∈ names, Tracks ⟨m, b⟩ [.text n] ⟨m', b⟩ := by
    intro n hn
    refine tracks_name (hv n hn) hstay ?_
    rw [hnext]
    exact tracks_nil
  cases names with
  | nil => exact absurd rfl hne
  | cons n names =>
    rw [List.forall_mem_cons] at hname
    have hall : Tracks ⟨m, b⟩ ([] ++ separated ((n :: names).map .text)) ⟨m', b⟩ :=
      tracks_separated (fun _ => m') hname.1 hname.2 fun _ => hlink
    exact hall

/-- Expressions with commas between them. -/
theorem tracks_exps {es : List Exp} (h : ∀ e ∈ es, Node.Tracked (.exp e)) :
    Tracks ⟨.inside, b⟩ (expsShape es) ⟨Mode.afterValues .inside es, b⟩ := by
  cases es with
  | nil => exact tracks_nil
  | cons e es =>
    have hexp : ∀ f ∈ e :: es, Tracks ⟨.inside, b⟩ [.node (.exp f)] ⟨.closed f.isCallable, b⟩ :=
      fun f hf => h f hf .inside b rfl
    rw [List.forall_mem_cons] at hexp
    have hlink : ∀ f : Exp, (Mode.closed f.isCallable).stays .link = true ∧
        (Mode.closed f.isCallable).next .link = .inside := by
      intro f
      cases f.isCallable <;> exact ⟨rfl, rfl⟩
    have hall : Tracks ⟨.inside, b⟩ ([] ++ expsShape (e :: es))
        ⟨.closed ((e :: es).getLast (List.cons_ne_nil e es)).isCallable, b⟩ :=
      tracks_separated (fun f : Exp => Mode.closed f.isCallable) hexp.1 hexp.2 hlink
    have hend : Mode.afterValues .inside (e :: es) =
        .closed ((e :: es).getLast (List.cons_ne_nil e es)).isCallable := by
      rw [Mode.afterValues, lastCallable, List.getLast?_eq_some_getLast (List.cons_ne_nil e es)]
      rfl
    rw [hend]
    exact hall

/-- Variables with commas between them. -/
theorem tracks_vars {v : Var} {vs : List Var} (h : ∀ w ∈ v :: vs, Node.Tracked (.var w))
    (hm : m.admits v.beginsParen = true) :
    Tracks ⟨m, b⟩ (m.lead ++ varsShape (v :: vs)) ⟨.callable, b⟩ := by
  rw [List.forall_mem_cons] at h
  have hmore : ∀ w ∈ vs, Tracks ⟨.inside, b⟩ [.node (.var w)] ⟨.callable, b⟩ :=
    fun w hw => h.2 w hw .inside b rfl
  exact tracks_separated (fun _ => .callable) (h.1 m b hm) hmore fun _ => ⟨rfl, rfl⟩

/-- The statements of a block that leaves no doubt where they end, from the end of a line on. -/
theorem tracks_lines {body : Chunk} (h : ∀ s ∈ body, Node.Tracked (.stat s))
    (hsep : Chunk.isSeparate body = true) (hm : m.ends = true)
    (hfirst : ∀ s ∈ body.head?, m = .callable → s.beginsParen = false) :
    ∃ m', m'.ends = true ∧ ∀ b, Tracks ⟨m, b⟩ (Chunk.lines body) ⟨m', b⟩ := by
  -- over the statements: the mode after one of them is callable only if it may be called, and then the
  -- next one begins with no parenthesis
  induction body generalizing m with
  | nil => exact ⟨m, hm, fun b => tracks_nil⟩
  | cons s body ih =>
    rw [List.forall_mem_cons] at h
    obtain ⟨mid, hmid, hcallable, hstat⟩ := h.1
    have hadmits : m.admits s.beginsParen = true := by
      cases m with
      | callable => rw [hfirst s rfl rfl]; rfl
      | complete => rfl
      | declared => rfl
      | _ => exact absurd hm (by simp [Mode.ends])
    have hlead : m.lead = [.lineBreak] := by
      cases m with
      | inside => exact absurd hm (by simp [Mode.ends])
      | _ => rfl
    have hnext : ∀ t ∈ body.head?, mid = .callable → t.beginsParen = false := by
      intro t ht hmid'
      cases body with
      | nil => simp at ht
      | cons u body =>
        cases ht
        rw [Chunk.isSeparate, Bool.and_eq_true, hcallable hmid', Bool.true_and,
          Bool.not_eq_true'] at hsep
        exact hsep.1
    have hrest : Chunk.isSeparate body = true := by
      cases body with
      | nil => rfl
      | cons u body =>
        rw [Chunk.isSeparate, Bool.and_eq_true] at hsep
        exact hsep.2
    obtain ⟨m', hm', hlines⟩ := ih h.2 hrest hmid hnext
    refine ⟨m', hm', fun b => ?_⟩
    have hfirst := hstat m b hadmits
    rw [hlead] at hfirst
    exact hfirst.append (hlines b)

/-- The entries of a table and the brace after them, from the brace before them on. -/
theorem tracks_entries {fields : List Field} (h : ∀ f ∈ fields, Node.Tracked (.field f))
    (callable : Bool) :
    Tracks ⟨.entry, callable :: b⟩
      (Piece.indent :: fields.flatMap (fun f => [Piece.lineBreak, .node (.field f), .text ","]) ++
        [Piece.dedent, .lineBreak, .text "\x7d"])
      ⟨.closed callable, b⟩ := by
  have hcomma : IsFragment "," .entryEnd := by decide
  have hbrace : IsFragment "\x7d" .closeBrace := by decide
  have hlines : Tracks ⟨.entry, callable :: b⟩
      (fields.flatMap fun f => [.lineBreak, .node (.field f), .text ","]) ⟨.entry, callable :: b⟩ := by
    induction fields with
    | nil => exact tracks_nil
    | cons f fields ih =>
      rw [List.forall_mem_cons] at h
      obtain ⟨_, hfield⟩ := h.1
      have hentry := (hfield (callable :: b)).append (tracks_after hcomma rfl tracks_nil)
      exact hentry.append (ih h.2)
  exact (tracks_indent hlines).append (tracks_dedent (tracks_line hbrace rfl tracks_nil))

/-- A table in the place of an expression. -/
theorem tracks_table {fields : List Field} (h : ∀ f ∈ fields, Node.Tracked (.field f))
    (hm : m.awaits = true) : Tracks ⟨m, b⟩ (m.lead ++ tableShape fields) ⟨.complete, b⟩ := by
  have hbraces : IsFragment "\x7b\x7d" .braces := by decide
  have hbrace : IsFragment "\x7b" .openBrace := by decide
  unfold tableShape
  cases fields with
  | nil => exact tracks_enter hbraces (Mode.enters_of_awaits hm _) tracks_nil
  | cons f fields =>
    exact tracks_enter hbrace (Mode.enters_of_awaits hm _) (tracks_entries h false)

/-- A table in the place of arguments. -/
theorem tracks_tableArgs {fields : List Field} (h : ∀ f ∈ fields, Node.Tracked (.field f)) :
    Tracks ⟨.callable, b⟩ (tableShape fields) ⟨.callable, b⟩ := by
  have hbraces : IsFragment "\x7b\x7d" .braces := by decide
  have hbrace : IsFragment "\x7b" .openBrace := by decide
  unfold tableShape
  cases fields with
  | nil => exact tracks_text hbraces rfl tracks_nil
  | cons f fields => exact tracks_text hbrace rfl (tracks_entries h true)

theorem tracks_end (hm : m.ends = true) : Tracks ⟨m, b⟩ [.lineBreak, .text "end"] ⟨.complete, b⟩ := by
  have hend : IsFragment "end" (.lead .complete) := by decide
  exact tracks_lineWord hend hm tracks_nil

theorem tracks_bodyAndEnd {body : Chunk} (h : Node.Tracked (.chunk body)) :
    Tracks ⟨.complete, b⟩ (bodyAndEnd body) ⟨.complete, b⟩ := by
  obtain ⟨m, hm, hbody⟩ := h
  exact tracks_node (hbody b) (tracks_end hm)

/-- A function body, and the `end` that closes it. -/
theorem tracks_funcBody {body : FuncBody} (h : Node.Tracked (.funcBody body)) :
    Tracks ⟨.heading, b⟩ [.node (.funcBody body), .lineBreak, .text "end"] ⟨.complete, b⟩ := by
  obtain ⟨m, hm, hbody⟩ := h
  exact tracks_node (hbody b) (tracks_end hm)

/-- What comes before values, and the values, unless there are none. -/
theorem tracks_valuesAfter {lead : String} (hlead : IsFragment lead (.stay .inside))
    {values : List Exp} (h : ∀ m ∈ valuesChildren values, m.Tracked)
    (hstay : m.stays (.stay .inside) = true) (hnext : m.next (.stay .inside) = .inside) :
    Tracks ⟨m, b⟩ (valuesAfter lead values) ⟨m.afterValues values, b⟩ := by
  cases values with
  | nil => exact tracks_nil
  | cons value values =>
    have hvalues : Node.Tracked (.expList (value :: values)) := h _ (by simp [valuesChildren])
    refine tracks_text hlead hstay ?_
    show Tracks ⟨m.next (.stay .inside), b⟩ _ _
    rw [hnext]
    exact hvalues b

theorem tracks_elseIfs {clauses : List ElseIf} (h : ∀ c ∈ clauses, Node.Tracked (.elseIf c))
    (hm : m.ends = true) : ∃ m', m'.ends = true ∧ ∀ b,
      Tracks ⟨m, b⟩ (clauses.flatMap fun c => [.lineBreak, .node (.elseIf c)]) ⟨m', b⟩ := by
  induction clauses generalizing m with
  | nil => exact ⟨m, hm, fun b => tracks_nil⟩
  | cons c clauses ih =>
    rw [List.forall_mem_cons] at h
    obtain ⟨mid, hmid, hclause⟩ := h.1
    obtain ⟨m', hm', hrest⟩ := ih h.2 hmid
    exact ⟨m', hm', fun b => (hclause m b hm).append (hrest b)⟩

theorem tracks_else {elseBody : Option Chunk} (h : ∀ body ∈ elseBody, Node.Tracked (.chunk body))
    (hm : m.ends = true) : ∃ m', m'.ends = true ∧ ∀ b,
      Tracks ⟨m, b⟩ (elseBody.toList.flatMap fun body => [.lineBreak, .text "else", .node (.chunk body)])
        ⟨m', b⟩ := by
  have helse : IsFragment "else" (.lead .complete) := by decide
  cases elseBody with
  | none => exact ⟨m, hm, fun b => tracks_nil⟩
  | some body =>
    obtain ⟨m', hm', hbody⟩ := h body rfl
    exact ⟨m', hm', fun b => tracks_lineWord helse hm (hbody b)⟩

/-- A statement from its first word on: the reader does not come to arguments in its end. -/
theorem tracked_of_complete {s : Stat}
    (h : ∀ m b, m.admits s.beginsParen = true → Tracks ⟨m, b⟩ (m.lead ++ s.shape) ⟨.complete, b⟩) :
    ∃ m', m'.ends = true ∧ (m' = .callable → s.isCallable = true) ∧
      ∀ m b, m.admits s.beginsParen = true → Tracks ⟨m, b⟩ (m.lead ++ s.shape) ⟨m', b⟩ :=
  ⟨.complete, rfl, fun hm => absurd hm (by decide), h⟩

theorem tracks_stat {s : Stat} (h : ∀ m ∈ s.children, m.Tracked) (hf : s.fault? = none) :
    ∃ m', m'.ends = true ∧ (m' = .callable → s.isCallable = true) ∧
      ∀ m b, m.admits s.beginsParen = true → Tracks ⟨m, b⟩ (m.lead ++ s.shape) ⟨m', b⟩ := by
  have hdo : IsFragment " do" (.stay .complete) := by decide
  have hthen : IsFragment " then" (.stay .complete) := by decide
  have hassign : IsFragment " = " (.stay .inside) := by decide
  have hcomma : IsFragment ", " .link := by decide
  cases s with
  | function name body =>
    have hword : IsFragment "function " (.lead .heading) := by decide
    simp only [Stat.children, List.forall_mem_cons] at h
    refine tracked_of_complete fun m b hm => tracks_word hword hm ?_
    exact tracks_node (h.1 b) (tracks_funcBody h.2.1)
  | localFunction name body =>
    have hword : IsFragment "local function " (.lead .heading) := by decide
    refine tracked_of_complete fun m b hm => tracks_word hword hm ?_
    refine tracks_name (Name.isValid_of_fault hf) rfl ?_
    exact tracks_funcBody (h _ List.mem_cons_self)
  | ifThen condition body elseIfs elseBody =>
    have hword : IsFragment "if " (.lead .inside) := by decide
    simp only [Stat.children, List.cons_append, List.forall_mem_cons, List.forall_mem_append,
      List.forall_mem_map] at h
    obtain ⟨hcondition, ⟨m₁, hm₁, hbody⟩, hclauses, helse⟩ := h
    obtain ⟨m₂, hm₂, hclauses⟩ := tracks_elseIfs hclauses hm₁
    obtain ⟨m₃, hm₃, helse⟩ := tracks_else (fun b hb => helse b (Option.mem_toList.mpr hb)) hm₂
    refine tracked_of_complete fun m b hm => ?_
    have hlead : Tracks ⟨m, b⟩
        (m.lead ++ [Piece.text "if ", .node (.exp condition), .text " then", .node (.chunk body)]) ⟨m₁, b⟩ := by
      refine tracks_word hword hm (tracks_node (hcondition .inside b rfl) ?_)
      exact tracks_after hthen rfl (hbody b)
    exact ((hlead.onward (hclauses b)).onward (helse b)).onward (tracks_end hm₃)
  | numericFor var start stop step body =>
    have hword : IsFragment "for " (.lead .inside) := by decide
    simp only [Stat.children, List.cons_append, List.forall_mem_cons, List.forall_mem_append,
      List.forall_mem_map] at h
    obtain ⟨hstart, hstop, hstep, hbody, -⟩ := h
    refine tracked_of_complete fun m b hm => ?_
    have hlead : Tracks ⟨m, b⟩ (m.lead ++ [Piece.text "for ", .text var, .text " = ", .node (.exp start),
        .text ", ", .node (.exp stop)]) ⟨.closed stop.isCallable, b⟩ := by
      refine tracks_word hword hm ?_
      refine tracks_name (Name.isValid_of_fault hf) rfl (tracks_text hassign rfl ?_)
      refine tracks_node (hstart .inside b rfl) (tracks_after hcomma rfl ?_)
      exact hstop .inside b rfl
    have hmiddle : ∃ callable, Tracks ⟨.closed stop.isCallable, b⟩
        (step.toList.flatMap fun e => [.text ", ", .node (.exp e)]) ⟨.closed callable, b⟩ := by
      cases step with
      | none => exact ⟨_, tracks_nil⟩
      | some e => exact ⟨_, tracks_after hcomma rfl (hstep e (by simp) .inside b rfl)⟩
    obtain ⟨callable, hmiddle⟩ := hmiddle
    have hloop : Tracks ⟨.closed callable, b⟩ (.text " do" :: bodyAndEnd body) ⟨.complete, b⟩ :=
      tracks_after hdo rfl (tracks_bodyAndEnd hbody)
    exact (hlead.onward hmiddle).onward hloop
  | genericFor names values body =>
    have hword : IsFragment "for " (.lead .inside) := by decide
    have hin : IsFragment " in " (.stay .inside) := by decide
    simp only [Stat.children, List.forall_mem_cons] at h
    obtain ⟨hnames, hvalues, hbody, -⟩ := h
    cases names with
    | nil => simp [Stat.fault?] at hf
    | cons n names =>
      cases values with
      | nil => simp [Stat.fault?] at hf
      | cons value values =>
        refine tracked_of_complete fun m b hm => tracks_word hword hm ?_
        refine tracks_node (hnames (List.cons_ne_nil n names) b).1 (tracks_text hin rfl ?_)
        refine tracks_node (hvalues b) (tracks_after hdo rfl ?_)
        exact tracks_bodyAndEnd hbody
  | call c => exact ⟨.callable, rfl, fun _ => rfl, h _ List.mem_cons_self⟩
  | ret values =>
    have hword : IsFragment "return" (.lead .complete) := by decide
    have hblank : IsFragment " " (.stay .inside) := by decide
    refine ⟨Mode.afterValues .complete values, Mode.ends_afterValues rfl values,
      Mode.lastCallable_of_afterValues (by decide), fun m b hm => ?_⟩
    refine tracks_word hword hm ?_
    exact tracks_valuesAfter hblank h rfl rfl
  | localVars names values =>
    have hword : IsFragment "local " (.lead .declaring) := by decide
    simp only [Stat.children, List.forall_mem_cons] at h
    cases names with
    | nil => simp [Stat.fault?] at hf
    | cons n names =>
      refine ⟨Mode.afterValues .declared (values.getD []), Mode.ends_afterValues rfl _,
        Mode.lastCallable_of_afterValues (by decide), fun m b hm => ?_⟩
      refine tracks_word hword hm ?_
      refine tracks_node (h.1 (List.cons_ne_nil n names) b).2 ?_
      exact tracks_valuesAfter hassign h.2 rfl rfl
  | assign targets values =>
    simp only [Stat.children, List.forall_mem_cons] at h
    obtain ⟨htargets, hvalues, -⟩ := h
    cases targets with
    | nil => simp [Stat.fault?] at hf
    | cons v targets =>
      cases values with
      | nil => simp [Stat.fault?] at hf
      | cons value values =>
        refine ⟨.closed (lastCallable (value :: values)), Mode.ends_closed _, Mode.eq_true_of_closed,
          fun m b hm => ?_⟩
        exact (htargets v targets rfl m b hm).onward (tracks_text hassign rfl (hvalues b))
  | block body =>
    have hword : IsFragment "do" (.lead .complete) := by decide
    refine tracked_of_complete fun m b hm => tracks_word hword hm ?_
    exact tracks_bodyAndEnd (h _ List.mem_cons_self)
  | repeatUntil body condition =>
    have hword : IsFragment "repeat" (.lead .complete) := by decide
    have huntil : IsFragment "until " (.lead .inside) := by decide
    simp only [Stat.children, List.forall_mem_cons] at h
    obtain ⟨⟨m₁, hm₁, hbody⟩, hcondition, -⟩ := h
    refine ⟨.closed condition.isCallable, Mode.ends_closed _, Mode.eq_true_of_closed, fun m b hm => ?_⟩
    refine tracks_word hword hm (tracks_node (hbody b) ?_)
    exact tracks_lineWord huntil hm₁ (hcondition .inside b rfl)
  | whileDo condition body =>
    have hword : IsFragment "while " (.lead .inside) := by decide
    simp only [Stat.children, List.forall_mem_cons] at h
    obtain ⟨hcondition, hbody, -⟩ := h
    refine tracked_of_complete fun m b hm => tracks_word hword hm ?_
    refine tracks_node (hcondition .inside b rfl) (tracks_after hdo rfl ?_)
    exact tracks_bodyAndEnd hbody
  | breakLoop =>
    have hword : IsFragment "break" (.lead .complete) := by decide
    exact tracked_of_complete fun m b hm => tracks_word hword hm tracks_nil

theorem tracks_parenthesized {inner : Exp} (h : Node.Tracked (.exp inner))
    (henters : m.enters .openParen = true) :
    Tracks ⟨m, b⟩ (m.lead ++ [Piece.text "(", .node (.exp inner), .text ")"]) ⟨.callable, b⟩ := by
  have hopen : IsFragment "(" .openParen := by decide
  have hclose : IsFragment ")" .closeParen := by decide
  refine tracks_enter hopen henters (tracks_node (h .inside b rfl) ?_)
  exact tracks_after hclose rfl tracks_nil

theorem tracks_exp {e : Exp} (h : ∀ m ∈ e.children, m.Tracked) (hplain : (Node.exp e).isPlain = true)
    (hm : m.awaits = true) : Tracks ⟨m, b⟩ (m.lead ++ e.shape) ⟨.closed e.isCallable, b⟩ := by
  have henters := Mode.enters_of_awaits hm
  have hblank : IsFragment " " (.stay .inside) := by decide
  cases e with
  | nil =>
    have hword : IsFragment "nil" (.stay .complete) := by decide
    exact tracks_enter hword (henters _) tracks_nil
  | bool value =>
    cases value with
    | true =>
      have hword : IsFragment "true" (.stay .complete) := by decide
      exact tracks_enter hword (henters _) tracks_nil
    | false =>
      have hword : IsFragment "false" (.stay .complete) := by decide
      exact tracks_enter hword (henters _) tracks_nil
  | vararg =>
    have hdots : IsFragment "..." (.stay .complete) := by decide
    exact tracks_enter hdots (henters _) tracks_nil
  | number lit => exact tracks_enter (isFragment_number hplain) (henters _) tracks_nil
  | string lit =>
    cases m with
    | inside => exact tracks_string lit rfl rfl
    | entry => exact tracks_stringLine lit b
    | _ => exact absurd hm (by simp [Mode.awaits])
  | unary op operand =>
    have hoperand := h (.exp operand) List.mem_cons_self
    refine tracks_enter (isFragment_unOp op) (henters _) ?_
    show Tracks ⟨.inside, b⟩ (unaryGap op operand ++ [Piece.node (.exp operand)]) _
    unfold unaryGap
    split
    · exact tracks_text hblank rfl (hoperand .inside b rfl)
    · exact hoperand .inside b rfl
  | binary left op right =>
    simp only [Exp.children, List.forall_mem_cons] at h
    obtain ⟨hleft, hright, -⟩ := h
    have hmore : Tracks ⟨.closed left.isCallable, b⟩
        [.text " ", .text op.spelling, .text " ", .node (.exp right)] ⟨.closed right.isCallable, b⟩ := by
      refine tracks_after hblank rfl (tracks_text (isFragment_binOp op) rfl ?_)
      exact tracks_text hblank rfl (hright .inside b rfl)
    exact (hleft m b hm).onward hmore
  | function body =>
    have hword : IsFragment "function" (.stay .heading) := by decide
    exact tracks_enter hword (henters _) (tracks_funcBody (h _ List.mem_cons_self))
  | paren inner => exact tracks_parenthesized (h _ List.mem_cons_self) (henters _)
  | table fields => exact tracks_table (fun f hf => h _ (List.mem_map_of_mem hf)) hm
  | prefixed inner => exact h _ List.mem_cons_self m b (Mode.admits_of_awaits hm _)

theorem tracks_funcName {name : FuncName} (hv : ∀ n ∈ name.names, n.isValid = true) :
    Tracks ⟨.heading, b⟩ name.shape ⟨.heading, b⟩ := by
  have hdot : IsFragment "." .link := by decide
  have hcolon : IsFragment ":" .link := by decide
  obtain ⟨base, indexers, method⟩ := name
  simp only [FuncName.names, List.forall_mem_append, List.cons_append, List.forall_mem_cons] at hv
  obtain ⟨hbase, hindexers, hmethod⟩ := hv
  have hfields : Tracks ⟨.heading, b⟩ (indexers.flatMap fun n => [.text ".", .text n])
      ⟨.heading, b⟩ := by
    clear hmethod
    induction indexers with
    | nil => exact tracks_nil
    | cons n indexers ih =>
      rw [List.forall_mem_cons] at hindexers
      exact tracks_text hdot rfl (tracks_name hindexers.1 rfl (ih hindexers.2))
  have hlast : Tracks ⟨.heading, b⟩ (method.toList.flatMap fun n => [.text ":", .text n])
      ⟨.heading, b⟩ := by
    cases method with
    | none => exact tracks_nil
    | some n => exact tracks_text hcolon rfl (tracks_name (hmethod n (by simp)) rfl tracks_nil)
  exact tracks_name hbase rfl (hfields.append hlast)

theorem tracks_parList {params : ParList} (hv : ∀ n ∈ params.names, n.isValid = true) :
    Tracks ⟨.heading, b⟩ params.shape ⟨.complete, b⟩ := by
  have hopen : IsFragment "(" .openParen := by decide
  have hdots : IsFragment "..." (.stay .complete) := by decide
  have hmoreDots : IsFragment ", ..." (.stay .inside) := by decide
  have hparen : IsFragment ")" .closeParen := by decide
  have hclose : Tracks ⟨.params, b⟩ [.text ")"] ⟨.complete, b⟩ := tracks_text hparen rfl tracks_nil
  obtain ⟨names, vararg⟩ := params
  simp only [ParList.shape, List.cons_append, List.append_assoc]
  refine tracks_text hopen rfl ?_
  cases names with
  | nil =>
    cases vararg with
    | false => exact hclose
    | true => exact tracks_text hdots rfl hclose
  | cons n names =>
    have hnames : Tracks ⟨.params, b⟩ (namesShape (n :: names)) ⟨.params, b⟩ :=
      tracks_names hv (List.cons_ne_nil n names) rfl rfl ⟨rfl, rfl⟩
    cases vararg with
    | false => exact hnames.append hclose
    | true => exact hnames.append (tracks_text hmoreDots rfl hclose)

/-- **The reader goes through a node as through its children**, if the node passes its check, is plain and
leaves no doubt where its statements end. -/
theorem Node.tracked_of_children {n : Node} (h : ∀ m ∈ n.children, m.Tracked) (hf : n.fault? = none)
    (hplain : n.isPlain = true) (hsep : n.isSeparate = true) : n.Tracked := by
  have hclose : IsFragment ")" .closeParen := by decide
  cases n with
  | chunk body =>
    have hstats : ∀ s ∈ body, Node.Tracked (.stat s) := fun s hs => h _ (List.mem_map_of_mem hs)
    have hmode : ∀ s ∈ body.head?, Mode.complete = .callable → s.beginsParen = false :=
      fun _ _ h => absurd h (by decide)
    obtain ⟨m, hm, hlines⟩ := tracks_lines hstats hsep rfl hmode
    refine ⟨m, hm, fun b => tracks_shape hf [] ?_⟩
    exact tracks_indent ((hlines b).append (tracks_dedent tracks_nil))
  | stat s =>
    obtain ⟨m', hm', hcallable, hshape⟩ := tracks_stat h hf
    exact ⟨m', hm', hcallable, fun m b hm => tracks_shape hf m.lead (hshape m b hm)⟩
  | elseIf c =>
    have hword : IsFragment "elseif " (.lead .inside) := by decide
    have hthen : IsFragment " then" (.stay .complete) := by decide
    obtain ⟨condition, body⟩ := c
    simp only [Node.children, List.forall_mem_cons] at h
    obtain ⟨hcondition, ⟨m', hm', hbody⟩, -⟩ := h
    refine ⟨m', hm', fun m b hm => tracks_shape hf [.lineBreak] ?_⟩
    refine tracks_lineWord hword hm (tracks_node (hcondition .inside b rfl) ?_)
    exact tracks_after hthen rfl (hbody b)
  | funcBody body =>
    obtain ⟨params, body⟩ := body
    simp only [Node.children, List.forall_mem_cons] at h
    obtain ⟨hparams, ⟨m', hm', hbody⟩, -⟩ := h
    exact ⟨m', hm', fun b => tracks_shape hf [] (tracks_node (hparams b) (hbody b))⟩
  | funcName name => exact fun b => tracks_shape hf [] (tracks_funcName (isValid_of_firstInvalid hf))
  | parList params => exact fun b => tracks_shape hf [] (tracks_parList (isValid_of_firstInvalid hf))
  | exp e => exact fun m b hm => tracks_shape hf m.lead (tracks_exp h hplain hm)
  | prefixExp e =>
    intro m b hm
    refine tracks_shape hf m.lead ?_
    cases e with
    | var v => exact h _ List.mem_cons_self m b hm
    | call c => exact h _ List.mem_cons_self m b hm
    | paren inner => exact tracks_parenthesized (h _ List.mem_cons_self) (Mode.enters_openParen hm)
  | var v =>
    intro m b hm
    refine tracks_shape hf m.lead ?_
    cases v with
    | name n =>
      have hname : IsFragment n .name := isFragment_name (Name.isValid_of_fault hf)
      exact tracks_enter hname (Mode.enters_name hm) tracks_nil
    | index base key =>
      have hbracket : IsFragment "[" (.stay .inside) := by decide
      have hend : IsFragment "]" (.stay .callable) := by decide
      simp only [Node.children, List.forall_mem_cons] at h
      obtain ⟨hbase, hkey, -⟩ := h
      have hmore : Tracks ⟨.callable, b⟩ [.text "[", .node (.exp key), .text "]"] ⟨.callable, b⟩ := by
        refine tracks_text hbracket rfl (tracks_node (hkey .inside b rfl) ?_)
        exact tracks_after hend rfl tracks_nil
      exact (hbase m b hm).onward hmore
    | member base n =>
      have hdot : IsFragment "." .link := by decide
      have hmore : Tracks ⟨.callable, b⟩ [.text ".", .text n] ⟨.callable, b⟩ :=
        tracks_text hdot rfl (tracks_name (Name.isValid_of_fault hf) rfl tracks_nil)
      have hbase := h _ List.mem_cons_self m b hm
      exact hbase.onward hmore
  | call c =>
    intro m b hm
    refine tracks_shape hf m.lead ?_
    cases c with
    | normal callee args =>
      simp only [Node.children, List.forall_mem_cons] at h
      exact (h.1 m b hm).onward (h.2.1 b)
    | method object name args =>
      have hcolon : IsFragment ":" .link := by decide
      simp only [Node.children, List.forall_mem_cons] at h
      have hmore : Tracks ⟨.callable, b⟩ [.text ":", .text name, .node (.args args)] ⟨.callable, b⟩ :=
        tracks_text hcolon rfl (tracks_name (Name.isValid_of_fault hf) rfl (h.2.1 b))
      exact (h.1 m b hm).onward hmore
  | args a =>
    intro b
    refine tracks_shape hf [] ?_
    cases a with
    | list values =>
      have hopen : IsFragment "(" .openParen := by decide
      have hvalues : Node.Tracked (.expList values) := h _ List.mem_cons_self
      refine tracks_text hopen rfl (tracks_node (hvalues b) ?_)
      cases values with
      | nil => exact tracks_text hclose rfl tracks_nil
      | cons value values => exact tracks_after hclose rfl tracks_nil
    | table fields => exact tracks_tableArgs fun f hf => h _ (List.mem_map_of_mem hf)
    | string lit =>
      have hshape : Tracks ⟨.callable, b⟩ lit.shape ⟨.closed true, b⟩ := tracks_string lit rfl rfl
      exact hshape
  | field f =>
    cases f with
    | positional value =>
      refine ⟨value.isCallable, fun b => tracks_shape hf [.lineBreak] ?_⟩
      exact h _ List.mem_cons_self .entry b rfl
    | named name value =>
      have hassign : IsFragment " = " (.stay .inside) := by decide
      refine ⟨value.isCallable, fun b => tracks_shape hf [.lineBreak] ?_⟩
      refine tracks_line (isFragment_name (Name.isValid_of_fault hf)) rfl (tracks_text hassign rfl ?_)
      exact h _ List.mem_cons_self .inside b rfl
    | keyed key value =>
      have hbracket : IsFragment "[" (.stay .inside) := by decide
      have hend : IsFragment "] = " (.stay .inside) := by decide
      simp only [Node.children, List.forall_mem_cons] at h
      refine ⟨value.isCallable, fun b => tracks_shape hf [.lineBreak] ?_⟩
      refine tracks_line hbracket rfl (tracks_node (h.1 .inside b rfl) (tracks_after hend rfl ?_))
      exact h.2.1 .inside b rfl
  | nameList names =>
    intro hne b
    have hv := isValid_of_firstInvalid hf
    exact ⟨tracks_shape hf [] (tracks_names hv hne rfl rfl ⟨rfl, rfl⟩),
      tracks_shape hf [] (tracks_names hv hne rfl rfl ⟨rfl, rfl⟩)⟩
  | expList es =>
    exact fun b => tracks_shape hf [] (tracks_exps fun e he => h _ (List.mem_map_of_mem he))
  | varList vs =>
    rintro v vs' rfl m b hm
    exact tracks_shape hf m.lead (tracks_vars (fun w hw => h _ (List.mem_map_of_mem hw)) hm)
  | table fields => trivial
  | name n => trivial

end

/-- The reader goes through every tree in which no node is at fault, the numbers are plain and no block
leaves a doubt where its statements end. -/
theorem Node.tracked {n : Node} (hf : ∀ m ∈ n.preorder, m.fault? = none) (hplain : n.Canonical)
    (hsep : n.Separate) : n.Tracked := by
  induction n using Node.inductionOn with
  | h n ih =>
    -- what is assumed of all nodes of the tree holds of those of each child
    have hchildren : ∀ m ∈ n.children, m.Tracked := by
      intro m hm
      have hinto : ∀ k ∈ m.preorder, k ∈ n.preorder := fun k hk => mem_preorder_of_child hm hk
      exact ih m hm (fun k hk => hf k (hinto k hk)) (fun k hk => hplain k (hinto k hk))
        fun k hk => hsep k (hinto k hk)
    have hself := n.self_mem_preorder
    exact tracked_of_children hchildren (hf n hself) (hplain n hself) (hsep n hself)

end LuaUnparse
