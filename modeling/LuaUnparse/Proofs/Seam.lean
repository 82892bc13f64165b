import LuaUnparse.Proofs.Failure

/-!
# `LuaUnparse.Proofs.Seam` — what may stand next to each other

Two texts written one after the other must not be read as one token, or as tokens of another kind. Whether
they are depends on the first text and on the first character of the second one. A line break keeps any
two texts apart, so what matters of all that was written before is the last text, if no line break
followed it.

## Contents
- **Characters.** `Glues`, `Merges` and `Sticks`: when a character is read together with what precedes it.
- **Seams.** `Seamless`, items in which no text sticks to the one before it, and `Fits` for pieces.
- **Contexts.** `Node.Before` and `Node.After`: what may precede a node of each category, and what its text
  ends with.
- **Layouts.** `fits_node`: a node written where it may stand has no text that sticks.
-/

namespace LuaUnparse

/-! ## Characters -/

/-- Whether two characters next to each other belong to one token, or begin a comment, a long bracket, a
number or a label. -/
def Glues (a b : Char) : Bool :=
  (Name.isPart a && Name.isPart b) || (a == '-' && b == '-') || (a == '[' && (b == '[' || b == '=')) ||
    (a == '.' && (b == '.' || b.isDigit)) || (a == '~' && b == '=') || (a == ':' && b == ':')

/-- Whether two characters glue, or are the beginning of an operator. -/
def Merges (a b : Char) : Bool :=
  Glues a b || (a == '<' && (b == '<' || b == '=')) || (a == '>' && (b == '>' || b == '=')) ||
    (a == '=' && b == '=') || (a == '/' && b == '/')

/-- Whether a character right after a text is read together with the end of the text. A number also takes
in letters and dots. -/
def Sticks (text : String) (c : Char) : Bool :=
  text.toList.getLast?.any (Merges · c) ||
    (text.toList.head?.any Char.isDigit && (Name.isPart c || c == '.'))

theorem toNat_of_isDigit {c : Char} (h : c.isDigit = true) : 48 ≤ c.toNat ∧ c.toNat ≤ 57 := by
  simpa [Char.isDigit, UInt32.le_iff_toNat_le] using h

theorem Name.isPart_iff {c : Char} : isPart c = true ↔ isStart c = true ∨ c.isDigit = true := by
  simp only [isPart, isStart, Char.isAlphanum, Bool.or_eq_true]
  exact or_right_comm

theorem Name.toNat_of_isStart {c : Char} (h : isStart c = true) :
    (65 ≤ c.toNat ∧ c.toNat ≤ 90) ∨ (97 ≤ c.toNat ∧ c.toNat ≤ 122) ∨ c.toNat = 95 := by
  have hrange : (decide ('A'.val ≤ c.val ∧ c.val ≤ 'Z'.val) ||
      decide ('a'.val ≤ c.val) && decide (c.val ≤ 'z'.val) || c == '_') = true := h
  simp only [Bool.or_eq_true, Bool.and_eq_true, decide_eq_true_eq, beq_iff_eq,
    UInt32.le_iff_toNat_le] at hrange
  rcases hrange with (hrange | hrange) | rfl
  · exact .inl hrange
  · exact .inr (.inl hrange)
  · exact .inr (.inr rfl)

theorem Name.isDigit_of_isStart {c : Char} (h : isStart c = true) : c.isDigit = false := by
  rw [Bool.eq_false_iff]
  intro hd
  have := toNat_of_isStart h
  have := toNat_of_isDigit hd
  omega

/-- The characters that no token before them takes in. -/
def isNeutral (c : Char) : Bool :=
  !(Name.isPart c || ['-', '[', '=', '.', ':', '<', '>', '/'].contains c)

theorem merges_of_isNeutral {c : Char} (h : isNeutral c = true) (a : Char) : Merges a c = false := by
  simp only [isNeutral, List.contains_cons, List.contains_nil, Bool.not_eq_true', Bool.or_eq_false_iff,
    beq_eq_false_iff_ne, ne_eq] at h
  have hdigit : c.isDigit = false := by
    have := h.1
    simp [Name.isPart, Char.isAlphanum] at this
    simp [this]
  simp [Merges, Glues, h, hdigit]

theorem sticks_of_isNeutral {c : Char} (h : isNeutral c = true) (text : String) :
    Sticks text c = false := by
  have hpart : Name.isPart c = false ∧ c ≠ '.' := by
    simp only [isNeutral, Bool.not_eq_true', Bool.or_eq_false_iff] at h
    refine ⟨h.1, ?_⟩
    rintro rfl
    exact absurd h.2 (by decide)
  simp [Sticks, Option.any, hpart]
  cases text.toList.getLast? <;> simp [merges_of_isNeutral h]

/-! ## Seams -/

/-- The text begins with no character that sticks to the text before it. -/
def Follows (before : Option String) (text : String) : Prop :=
  ∀ x ∈ before, ∀ c ∈ text.toList.head?, Sticks x c = false

/-- No text sticks to the text before it, the first one to the text `before`. -/
def Seamless (before : Option String) : List Item → Prop
  | [] => True
  | .text t :: rest => t ≠ "" ∧ Follows before t ∧ Seamless (some t) rest
  | .lineBreak _ :: rest => Seamless none rest

/-- The last text of items, if no line break follows it. -/
def lastText (before : Option String) : List Item → Option String
  | [] => before
  | .text t :: rest => lastText (some t) rest
  | .lineBreak _ :: rest => lastText none rest

theorem seamless_append (before : Option String) (is js : List Item) :
    Seamless before (is ++ js) ↔ Seamless before is ∧ Seamless (lastText before is) js := by
  induction is generalizing before with
  | nil => simp [Seamless, lastText]
  | cons i is ih => cases i <;> simp [Seamless, lastText, ih, and_assoc]

theorem lastText_append (before : Option String) (is js : List Item) :
    lastText before (is ++ js) = lastText (lastText before is) js := by
  induction is generalizing before with
  | nil => rfl
  | cons i is ih => cases i <;> exact ih _

/-- A layout in which no text sticks to the text before it, and whose last text, if it comes to its end, is
as said. -/
def Layout.Joins (before : Option String) (layout : Layout) (after : Option String → Prop) : Prop :=
  Seamless before layout.items ∧ (layout.fault = none → after (lastText before layout.items))

theorem Layout.joins_append {before : Option String} {first second : Layout}
    {middle after : Option String → Prop} (h : first.Joins before middle)
    (hs : ∀ x, middle x → second.Joins x after) : (first ++ second).Joins before after := by
  obtain ⟨items, _ | fault⟩ := first
  · obtain ⟨hseam, hend⟩ := hs _ (h.2 rfl)
    refine ⟨(seamless_append _ _ _).mpr ⟨h.1, hseam⟩, fun hf => ?_⟩
    rw [Layout.mk_none_append, lastText_append]
    exact hend hf
  · exact ⟨h.1, fun hf => absurd hf (by simp)⟩

/-- The pieces can be written after the text `before`, and what they end with is as said. -/
def Fits (depth : Nat) (before : Option String) (ps : List Piece) (after : Option String → Prop) : Prop :=
  (layoutPieces depth ps).Joins before after

section

variable {depth : Nat} {before : Option String} {rest : List Piece} {after : Option String → Prop}

theorem fits_nil (h : after before) : Fits depth before [] after := by
  rw [Fits, layoutPieces]
  exact ⟨trivial, fun _ => h⟩

theorem fits_text {t : String} (ht : t ≠ "") (hb : Follows before t)
    (hr : Fits depth (some t) rest after) : Fits depth before (.text t :: rest) after := by
  rw [Fits, layoutPieces, if_neg (by simpa using ht)]
  exact ⟨⟨ht, hb, hr.1⟩, hr.2⟩

theorem fits_empty (hr : Fits depth before rest after) : Fits depth before (.text "" :: rest) after := by
  rw [Fits, layoutPieces, if_pos (by decide)]
  exact hr

theorem fits_lineBreak (hr : Fits depth none rest after) :
    Fits depth before (.lineBreak :: rest) after := by
  rw [Fits, layoutPieces]
  exact hr

theorem fits_indent (hr : Fits (depth + 1) before rest after) :
    Fits depth before (.indent :: rest) after := by
  rw [Fits, layoutPieces]
  exact hr

theorem fits_dedent (hr : Fits (depth - 1) before rest after) :
    Fits depth before (.dedent :: rest) after := by
  rw [Fits, layoutPieces]
  exact hr

theorem fits_cons_node {n : Node} {middle : Option String → Prop}
    (hn : (n.layout depth).Joins before middle) (hr : ∀ x, middle x → Fits depth x rest after) :
    Fits depth before (.node n :: rest) after := by
  rw [Fits, layoutPieces_node]
  exact Layout.joins_append hn hr

/-- A text that begins with a neutral character may follow anything. -/
theorem fits_neutral {t : String} {c : Char} (ht : t.toList.head? = some c) (hc : isNeutral c = true)
    (hr : Fits depth (some t) rest after) : Fits depth before (.text t :: rest) after := by
  refine fits_text (by rintro rfl; simp at ht) (fun x _ d hd => ?_) hr
  rw [ht] at hd
  exact Option.some.inj hd ▸ sticks_of_isNeutral hc x

end

/-! ## Contexts -/

/-- Nothing sticks to the text. -/
def IsFree (text : String) : Prop := ∀ c, Sticks text c = false

/-- A name may follow the text. -/
def BeforeName (text : String) : Prop := ∀ c, Name.isStart c = true → Sticks text c = false

/-- The expression may follow the text. -/
def BeforeExp (e : Exp) (text : String) : Prop :=
  (∀ c, Name.isPart c = true → Sticks text c = false) ∧ Sticks text '.' = false ∧
    (e.startsWithMinus = true → Sticks text '-' = false)

/-- An index, a member or a method may follow the text. -/
def IsClosed (text : String) : Prop :=
  Sticks text '.' = false ∧ Sticks text '[' = false ∧ Sticks text ':' = false

/-- What the text before a node must be like. -/
def Node.Before : Node → String → Prop
  | .exp e => BeforeExp e
  | .prefixExp _ | .var _ | .call _ => BeforeName
  | .chunk _ | .funcBody _ | .parList _ | .args _ | .table _ => fun _ => True
  | .stat _ | .elseIf _ | .field _ | .funcName _ | .nameList _ | .expList _ | .varList _ | .name _ => IsFree

/-- What the last text of a node is like, where it matters for what may follow. -/
def Node.After : Node → Option String → Prop
  | .prefixExp _ | .var _ | .call _ | .args _ => fun last => ∀ x ∈ last, IsClosed x
  | _ => fun _ => True

/-- A node can be written wherever it may stand, and ends as said. -/
def Node.Joins (n : Node) : Prop :=
  ∀ depth before, (∀ x ∈ before, n.Before x) → (n.layout depth).Joins before n.After

theorem fits_node {depth : Nat} {before : Option String} {n : Node} {rest : List Piece}
    {after : Option String → Prop} (hn : n.Joins) (hb : ∀ x ∈ before, n.Before x)
    (hr : ∀ x, n.After x → Fits depth x rest after) : Fits depth before (.node n :: rest) after :=
  fits_cons_node (hn depth before hb) hr

/-- A text that ends with a neutral character and is no number. -/
def isInert (text : String) : Bool :=
  text.toList.getLast?.any (fun c => isNeutral c && c != '~') && !text.toList.head?.any Char.isDigit

theorem isFree_of_isInert {text : String} (h : isInert text = true) : IsFree text := by
  intro c
  obtain ⟨hlast, hhead⟩ := Bool.and_eq_true_iff.mp h
  simp only [Bool.not_eq_true'] at hhead
  obtain ⟨a, ha, hn⟩ := (Option.any_eq_true _ _).mp hlast
  have hmerge : Merges a c = false := by
    simp [isNeutral] at hn
    simp [Merges, Glues, hn]
  rw [Sticks, ha, hhead]
  simp [hmerge]

theorem beforeExp_minus {e : Exp} (h : e.startsWithMinus = false) : BeforeExp e "-" := by
  refine ⟨fun c hc => ?_, rfl, fun hs => absurd (h.symm.trans hs) (by decide)⟩
  have hne : c ≠ '-' := by rintro rfl; exact absurd hc (by decide)
  simp [Sticks, Merges, Glues, hne, show Name.isPart '-' = false from rfl]

theorem beforeExp_tilde (e : Exp) : BeforeExp e "~" := by
  refine ⟨fun c hc => ?_, rfl, fun _ => rfl⟩
  have hne : c ≠ '=' := by rintro rfl; exact absurd hc (by decide)
  simp [Sticks, Merges, Glues, hne, show Name.isPart '~' = false from rfl]

theorem beforeExp_bracket (e : Exp) : BeforeExp e "[" := by
  refine ⟨fun c hc => ?_, rfl, fun _ => rfl⟩
  have hne : c ≠ '[' ∧ c ≠ '=' := by constructor <;> rintro rfl <;> exact absurd hc (by decide)
  simp [Sticks, Merges, Glues, hne, show Name.isPart '[' = false from rfl]

theorem beforeName_dot : BeforeName "." := by
  intro c hc
  have hne : c ≠ '.' := by rintro rfl; exact absurd hc (by decide)
  simp [Sticks, Merges, Glues, hne, Name.isDigit_of_isStart hc, show Name.isPart '.' = false from rfl]

theorem beforeName_colon : BeforeName ":" := by
  intro c hc
  have hne : c ≠ ':' := by rintro rfl; exact absurd hc (by decide)
  simp [Sticks, Merges, Glues, hne, show Name.isPart ':' = false from rfl]

theorem IsFree.beforeExp {text : String} (h : IsFree text) (e : Exp) : BeforeExp e text :=
  ⟨fun c _ => h c, h '.', fun _ => h '-'⟩

theorem IsFree.beforeName {text : String} (h : IsFree text) : BeforeName text :=
  fun c _ => h c

theorem BeforeExp.beforeName {text : String} {e : Exp} (h : BeforeExp e text) : BeforeName text :=
  fun c hc => h.1 c (Name.isPart_of_isStart hc)

theorem IsFree.isClosed {text : String} (h : IsFree text) : IsClosed text :=
  ⟨h '.', h '[', h ':'⟩

/-- The first and the last character of a word. -/
theorem Name.ends_of_isWord {cs : List Char} (h : isWord cs = true) :
    (∃ c, cs.head? = some c ∧ Name.isStart c = true) ∧
      ∃ c, cs.getLast? = some c ∧ Name.isPart c = true := by
  cases cs with
  | nil => simp [isWord] at h
  | cons c rest =>
    rw [isWord, Bool.and_eq_true] at h
    refine ⟨⟨c, rfl, h.1⟩, _, List.getLast?_eq_some_getLast (List.cons_ne_nil c rest), ?_⟩
    have hall : ∀ d ∈ c :: rest, isPart d = true := by
      rintro d (_ | ⟨_, hd⟩)
      · exact isPart_of_isStart h.1
      · exact List.all_eq_true.mp h.2 d hd
    exact hall _ (List.getLast_mem _)

/-- The first and the last character of a name. -/
theorem Name.ends_of_isValid {name : Name} (h : name.isValid = true) :
    (∃ c, name.toList.head? = some c ∧ Name.isStart c = true) ∧
      ∃ c, name.toList.getLast? = some c ∧ Name.isPart c = true :=
  ends_of_isWord (Bool.and_eq_true_iff.mp h).1

theorem Name.isValid_of_fault {name : Name} (h : name.fault? = none) : name.isValid = true := by
  unfold fault? at h
  split at h
  · assumption
  · simp at h

theorem follows_name {before : Option String} {name : Name} (hv : name.isValid = true)
    (hb : ∀ x ∈ before, BeforeName x) : Follows before name := by
  obtain ⟨⟨c, hc, hstart⟩, -⟩ := Name.ends_of_isValid hv
  intro x hx d hd
  rw [hc] at hd
  exact Option.some.inj hd ▸ hb x hx c hstart

theorem isClosed_name {name : Name} (hv : name.isValid = true) : IsClosed name := by
  obtain ⟨⟨c, hc, hstart⟩, d, hd, hpart⟩ := Name.ends_of_isValid hv
  have hdot : d ≠ '.' := by rintro rfl; exact absurd hpart (by decide)
  have hbracket : d ≠ '[' := by rintro rfl; exact absurd hpart (by decide)
  have hcolon : d ≠ ':' := by rintro rfl; exact absurd hpart (by decide)
  have hsticks : ∀ b, Sticks name b = Merges d b := by
    intro b
    rw [Sticks, hc, hd]
    simp [Name.isDigit_of_isStart hstart]
  rw [IsClosed, hsticks, hsticks, hsticks]
  refine ⟨?_, ?_, ?_⟩
  · simp [Merges, Glues, hdot, show Name.isPart '.' = false from rfl]
  · simp [Merges, Glues, hbracket, show Name.isPart '[' = false from rfl]
  · simp [Merges, Glues, hcolon, show Name.isPart ':' = false from rfl]

theorem follows_of_isFree {before : Option String} (h : ∀ x ∈ before, IsFree x) (t : String) :
    Follows before t :=
  fun x hx c _ => h x hx c

/-! ## Lists -/

section

variable {depth : Nat} {before : Option String} {rest : List Piece} {after : Option String → Prop}

theorem fits_name {name : Name} (hv : name.isValid = true) (hb : ∀ x ∈ before, BeforeName x)
    (hr : IsClosed name → Fits depth (some name) rest after) :
    Fits depth before (.text name :: rest) after :=
  fits_text (Name.ne_empty_of_isValid hv) (follows_name hv hb) (hr (isClosed_name hv))

theorem fits_string (lit : StringLit) (hr : ∀ x, IsClosed x → Fits depth (some x) rest after) :
    Fits depth before (lit.shape ++ rest) after := by
  have hquote : IsFree "\"" := isFree_of_isInert (by decide)
  have hclose : ∀ x, Fits depth x (.text "\"" :: rest) after := fun x =>
    fits_neutral rfl rfl (hr _ hquote.isClosed)
  refine fits_neutral rfl rfl ?_
  by_cases hv : Quoted.escape lit.value = ""
  · rw [hv]
    exact fits_empty (hclose _)
  · exact fits_text hv (follows_of_isFree (by rintro x ⟨⟩; exact hquote) _) (hclose _)

/-- Pieces with commas between them, each of which may follow a text to which nothing sticks. -/
theorem fits_separated {ps : List Piece}
    (hp : ∀ p ∈ ps, ∀ before rest, (∀ x ∈ before, IsFree x) → (∀ x, Fits depth x rest after) →
      Fits depth before (p :: rest) after)
    (hb : ∀ x ∈ before, IsFree x) (hr : ∀ x, Fits depth x rest after) :
    Fits depth before (separated ps ++ rest) after := by
  unfold separated
  induction ps generalizing before with
  | nil => exact hr before
  | cons p ps ih =>
    have hps := fun q hq => hp q (List.mem_cons_of_mem p hq)
    cases ps with
    | nil => exact hp p List.mem_cons_self before rest hb hr
    | cons q qs =>
      have hcomma : IsFree ", " := isFree_of_isInert (by decide)
      refine hp p List.mem_cons_self before _ hb fun x => fits_neutral rfl rfl ?_
      exact ih hps (by rintro y ⟨⟩; exact hcomma)

/-- Groups of pieces, each of which may follow anything and be followed by anything. -/
theorem fits_flatMap {Part : Type} {f : Part → List Piece} {parts : List Part}
    (hf : ∀ a ∈ parts, ∀ before rest, (∀ x, Fits depth x rest after) →
      Fits depth before (f a ++ rest) after)
    (hr : ∀ x, Fits depth x rest after) : Fits depth before (parts.flatMap f ++ rest) after := by
  induction parts generalizing before with
  | nil => exact hr before
  | cons a parts ih =>
    rw [List.flatMap_cons, List.append_assoc]
    exact hf a List.mem_cons_self before _ fun x =>
      ih fun b hb => hf b (List.mem_cons_of_mem a hb)

theorem isFree_none : ∀ x ∈ (none : Option String), IsFree x := by
  rintro x ⟨⟩

theorem isFree_some {t : String} (h : isInert t = true) : ∀ x ∈ some t, IsFree x := by
  rintro x ⟨⟩
  exact isFree_of_isInert h

theorem fits_names {names : List Name} (hv : ∀ n ∈ names, n.isValid = true)
    (hb : ∀ x ∈ before, IsFree x) (hr : ∀ x, Fits depth x rest after) :
    Fits depth before (namesShape names ++ rest) after := by
  refine fits_separated (fun p hp before rest hb hr => ?_) hb hr
  obtain ⟨n, hn, rfl⟩ := List.mem_map.mp hp
  exact fits_name (hv n hn) (fun x hx => (hb x hx).beforeName) fun _ => hr _

theorem fits_table {fields : List Field} (h : ∀ f ∈ fields, (Node.field f).Joins)
    (hr : ∀ x, IsClosed x → Fits depth (some x) rest after) :
    Fits depth before (tableShape fields ++ rest) after := by
  unfold tableShape
  split
  · exact fits_neutral rfl rfl (hr _ (isFree_of_isInert (by decide)).isClosed)
  · rw [List.append_assoc, List.append_assoc]
    refine fits_neutral rfl rfl (fits_indent (fits_flatMap ?_ fun x => fits_dedent (fits_lineBreak ?_)))
    · intro f hf before rest hr
      exact fits_lineBreak (fits_node (h f hf) isFree_none fun x _ => fits_neutral rfl rfl (hr _))
    · exact fits_neutral rfl rfl (hr _ (isFree_of_isInert (by decide)).isClosed)

end

/-! ## Layouts -/

section

variable {depth : Nat} {before : Option String}

theorem fits_body_end {rest : List Piece} {after : Option String → Prop} {body : Chunk}
    (h : (Node.chunk body).Joins) (hr : Fits depth (some "end") rest after) :
    Fits depth before (bodyAndEnd body ++ rest) after := by
  refine fits_node h (fun _ _ => trivial) fun x _ => fits_lineBreak ?_
  exact fits_text (by decide) (by rintro x ⟨⟩) hr

/-- A text after a line break may be any text. -/
theorem fits_keyword {t : String} {rest : List Piece} {after : Option String → Prop} (ht : t ≠ "")
    (hr : Fits depth (some t) rest after) : Fits depth before (.lineBreak :: .text t :: rest) after :=
  fits_lineBreak (fits_text ht (by rintro x ⟨⟩) hr)

theorem fits_valuesAfter {lead : String} {values : List Exp} (hfirst : lead.toList.head? = some ' ')
    (hlast : isInert lead = true) (h : ∀ m ∈ valuesChildren values, m.Joins) :
    Fits depth before (valuesAfter lead values) fun _ => True := by
  unfold valuesAfter
  unfold valuesChildren at h
  by_cases he : values.isEmpty = true
  · rw [if_pos he]
    exact fits_nil trivial
  · rw [if_neg he] at h ⊢
    have hjoin := h _ List.mem_cons_self
    refine fits_neutral hfirst rfl (fits_node hjoin ?_ fun x _ => fits_nil trivial)
    exact isFree_some hlast

theorem fits_stat {s : Stat} (h : ∀ m ∈ s.children, m.Joins) (hf : s.fault? = none)
    (hb : ∀ x ∈ before, IsFree x) : Fits depth before s.shape fun _ => True := by
  have hfirst := follows_of_isFree hb
  cases s with
  | function name body =>
    simp only [Stat.children, List.forall_mem_cons] at h
    refine fits_text (by decide) (hfirst _) (fits_node h.1 (isFree_some (by decide)) fun x _ => ?_)
    exact fits_node h.2.1 (fun _ _ => trivial) fun x _ => fits_keyword (by decide) (fits_nil trivial)
  | localFunction name body =>
    simp only [Stat.children, List.forall_mem_cons] at h
    have hv := Name.isValid_of_fault hf
    refine fits_text (by decide) (hfirst _) (fits_name hv ?_ fun _ => ?_)
    · exact fun x hx => (isFree_some (by decide) x hx).beforeName
    · exact fits_node h.1 (fun _ _ => trivial) fun x _ => fits_keyword (by decide) (fits_nil trivial)
  | ifThen condition body elseIfs elseBody =>
    simp only [Stat.children, List.forall_mem_cons, List.forall_mem_append, List.cons_append] at h
    obtain ⟨hcond, hbody, helseIfs, helse⟩ := h
    rw [Stat.shape, List.append_assoc, List.append_assoc]
    refine fits_text (by decide) (hfirst _) (fits_node hcond ?_ fun x _ => fits_neutral rfl rfl ?_)
    · exact fun x hx => (isFree_some (by decide) x hx).beforeExp condition
    refine fits_node hbody (fun _ _ => trivial) fun x _ => fits_flatMap ?_ fun x => fits_flatMap ?_ ?_
    · intro c hc before rest hr
      have hjoin := helseIfs _ (List.mem_map_of_mem hc)
      exact fits_lineBreak (fits_node hjoin isFree_none fun x _ => hr x)
    · intro b hb before rest hr
      have hjoin := helse _ (List.mem_map_of_mem hb)
      exact fits_keyword (by decide) (fits_node hjoin (fun _ _ => trivial) fun x _ => hr x)
    · exact fun x => fits_keyword (by decide) (fits_nil trivial)
  | numericFor var start stop step body =>
    simp only [Stat.children, List.forall_mem_cons, List.forall_mem_append, List.cons_append] at h
    obtain ⟨hstart, hstop, hstep, hbody, -⟩ := h
    have hv := Name.isValid_of_fault hf
    rw [Stat.shape, List.append_assoc, List.append_assoc]
    refine fits_text (by decide) (hfirst _) (fits_name hv ?_ fun _ => fits_neutral rfl rfl ?_)
    · exact fun x hx => (isFree_some (by decide) x hx).beforeName
    refine fits_node hstart ?_ fun x _ => fits_neutral rfl rfl (fits_node hstop ?_ fun x _ => ?_)
    · exact fun x hx => (isFree_some (by decide) x hx).beforeExp start
    · exact fun x hx => (isFree_some (by decide) x hx).beforeExp stop
    refine fits_flatMap ?_ fun x => fits_neutral rfl rfl ?_
    · intro e he before rest hr
      refine fits_neutral rfl rfl (fits_node (hstep _ (List.mem_map_of_mem he)) ?_ fun x _ => hr x)
      exact fun x hx => (isFree_some (by decide) x hx).beforeExp e
    · rw [← List.append_nil (bodyAndEnd body)]
      exact fits_body_end hbody (fits_nil trivial)
  | genericFor names values body =>
    simp only [Stat.children, List.forall_mem_cons] at h
    refine fits_text (by decide) (hfirst _) (fits_node h.1 (isFree_some (by decide)) fun x _ => ?_)
    refine fits_neutral rfl rfl (fits_node h.2.1 (isFree_some (by decide)) fun x _ => ?_)
    rw [← List.append_nil (bodyAndEnd body)]
    exact fits_neutral rfl rfl (fits_body_end h.2.2.1 (fits_nil trivial))
  | call c =>
    simp only [Stat.children, List.forall_mem_cons] at h
    exact fits_node h.1 (fun x hx => (hb x hx).beforeName) fun x _ => fits_nil trivial
  | ret values =>
    exact fits_text (by decide) (hfirst _) (fits_valuesAfter rfl (by decide) h)
  | localVars names values =>
    rw [Stat.children, List.forall_mem_cons] at h
    refine fits_text (by decide) (hfirst _) (fits_node h.1 (isFree_some (by decide)) fun x _ => ?_)
    exact fits_valuesAfter rfl (by decide) h.2
  | assign targets values =>
    simp only [Stat.children, List.forall_mem_cons] at h
    refine fits_node h.1 hb fun x _ => fits_neutral rfl rfl (fits_node h.2.1 ?_ fun x _ => ?_)
    · exact isFree_some (by decide)
    · exact fits_nil trivial
  | block body =>
    simp only [Stat.children, List.forall_mem_cons] at h
    rw [Stat.shape, ← List.append_nil (bodyAndEnd body)]
    exact fits_text (by decide) (hfirst _) (fits_body_end h.1 (fits_nil trivial))
  | repeatUntil body condition =>
    simp only [Stat.children, List.forall_mem_cons] at h
    refine fits_text (by decide) (hfirst _) (fits_node h.1 (fun _ _ => trivial) fun x _ => ?_)
    refine fits_keyword (by decide) (fits_node h.2.1 ?_ fun x _ => fits_nil trivial)
    exact fun x hx => (isFree_some (by decide) x hx).beforeExp condition
  | whileDo condition body =>
    simp only [Stat.children, List.forall_mem_cons] at h
    rw [Stat.shape, ← List.append_nil (bodyAndEnd body)]
    refine fits_text (by decide) (hfirst _) (fits_node h.1 ?_ fun x _ => ?_)
    · exact fun x hx => (isFree_some (by decide) x hx).beforeExp condition
    · exact fits_neutral rfl rfl (fits_body_end h.2.1 (fits_nil trivial))
  | breakLoop => exact fits_text (by decide) (hfirst _) (fits_nil trivial)

/-- The text of a number: a digit or a dot, maybe after a sign, and then anything. -/
def IsNumberText (raw : List Char) : Prop :=
  ∃ sign c rest, raw = sign ++ c :: rest ∧ (sign = [] ∨ sign = ['-']) ∧ (c.isDigit || c == '.') = true

/-- The numbers of a tree are spelled as numbers, except those without a spelling. -/
def Node.NumbersSpelled (n : Node) : Prop :=
  ∀ lit, Node.exp (.number lit) ∈ n.preorder → lit.raw ≠ "" → IsNumberText lit.raw.toList

theorem follows_exp {e : Exp} {t : String} {c : Char} (ht : t.toList.head? = some c)
    (hc : Name.isPart c = true ∨ c = '.' ∨ (c = '-' ∧ e.startsWithMinus = true))
    (hb : ∀ x ∈ before, BeforeExp e x) : Follows before t := by
  intro x hx d hd
  obtain ⟨hpart, hdot, hminus⟩ := hb x hx
  obtain rfl : c = d := Option.some.inj (ht.symm.trans hd)
  rcases hc with hc | rfl | ⟨rfl, hs⟩
  · exact hpart c hc
  · exact hdot
  · exact hminus hs

theorem fits_number {lit : NumberLit} (hne : lit.raw ≠ "") (hnum : IsNumberText lit.raw.toList)
    (hb : ∀ x ∈ before, BeforeExp (.number lit) x) :
    Fits depth before [.text lit.raw] fun _ => True := by
  refine fits_text hne ?_ (fits_nil trivial)
  obtain ⟨sign, c, rest, hraw, rfl | rfl, hc⟩ := hnum
  · refine follows_exp (by rw [hraw]; rfl) ?_ hb
    rcases Bool.or_eq_true_iff.mp hc with hc | hc
    · exact .inl (by simp [Name.isPart, Char.isAlphanum, hc])
    · exact .inr (.inl (beq_iff_eq.mp hc))
  · refine follows_exp (by rw [hraw]; rfl) (.inr (.inr ⟨rfl, ?_⟩)) hb
    rw [Exp.startsWithMinus, hraw]
    rfl

/-- The gap after an operator is wide enough: what is written right after it does not stick to it. -/
theorem fits_operand {op : UnOp} {operand : Exp} (h : (Node.exp operand).Joins) :
    Fits depth (some op.spelling) (unaryGap op operand ++ [Piece.node (.exp operand)]) fun _ => True := by
  unfold unaryGap
  split
  · refine fits_neutral rfl rfl (fits_node h ?_ fun x _ => fits_nil trivial)
    exact fun x hx => (isFree_some (by decide) x hx).beforeExp operand
  · next hgap =>
    refine fits_node h ?_ fun x _ => fits_nil trivial
    rintro x ⟨⟩
    cases op with
    | not => exact absurd (by simp [UnOp.isWord_iff]) hgap
    | negate =>
      have hminus : UnOp.negate.isWord = false ∧ operand.startsWithMinus = false := by
        simpa using hgap
      exact beforeExp_minus hminus.2
    | length => exact (isFree_of_isInert (by decide)).beforeExp operand
    | bitNot => exact beforeExp_tilde operand

theorem fits_exp {e : Exp} (h : ∀ m ∈ e.children, m.Joins) (hf : e.fault? = none)
    (hnum : (Node.exp e).NumbersSpelled) (hb : ∀ x ∈ before, BeforeExp e x) :
    Fits depth before e.shape fun _ => True := by
  cases e with
  | nil => exact fits_text (by decide) (follows_exp rfl (.inl rfl) hb) (fits_nil trivial)
  | bool value =>
    cases value
    · exact fits_text (by decide) (follows_exp rfl (.inl rfl) hb) (fits_nil trivial)
    · exact fits_text (by decide) (follows_exp rfl (.inl rfl) hb) (fits_nil trivial)
  | vararg => exact fits_text (by decide) (follows_exp rfl (.inr (.inl rfl)) hb) (fits_nil trivial)
  | number lit =>
    have hne : lit.raw ≠ "" := by
      rintro he
      simp [Exp.fault?, he] at hf
    exact fits_number hne (hnum lit (Node.self_mem_preorder _) hne) hb
  | string lit => exact fits_string lit fun x _ => fits_nil trivial
  | unary op operand =>
    simp only [Exp.children, List.forall_mem_cons] at h
    have hop : Follows before op.spelling := by
      cases op with
      | not => exact follows_exp rfl (.inl rfl) hb
      | negate => exact follows_exp rfl (.inr (.inr ⟨rfl, rfl⟩)) hb
      | length =>
        intro x _ c hc
        obtain rfl : '#' = c := Option.some.inj hc
        exact sticks_of_isNeutral rfl x
      | bitNot =>
        intro x _ c hc
        obtain rfl : '~' = c := Option.some.inj hc
        exact sticks_of_isNeutral rfl x
    exact fits_text (by cases op <;> decide) hop (fits_operand h.1)
  | binary left op right =>
    simp only [Exp.children, List.forall_mem_cons] at h
    have hblank : ∀ x ∈ some " ", IsFree x := isFree_some (by decide)
    refine fits_node h.1 (fun x hx => hb x hx) fun x _ => fits_neutral rfl rfl ?_
    refine fits_text (by cases op <;> decide) (follows_of_isFree hblank _) (fits_neutral rfl rfl ?_)
    exact fits_node h.2.1 (fun x hx => (hblank x hx).beforeExp right) fun x _ => fits_nil trivial
  | function body =>
    simp only [Exp.children, List.forall_mem_cons] at h
    refine fits_text (by decide) (follows_exp rfl (.inl rfl) hb) ?_
    exact fits_node h.1 (fun _ _ => trivial) fun x _ => fits_keyword (by decide) (fits_nil trivial)
  | paren inner =>
    simp only [Exp.children, List.forall_mem_cons] at h
    refine fits_neutral rfl rfl (fits_node h.1 ?_ fun x _ => fits_neutral rfl rfl (fits_nil trivial))
    exact fun x hx => (isFree_some (by decide) x hx).beforeExp inner
  | table fields =>
    rw [Exp.shape, ← List.append_nil (tableShape fields)]
    exact fits_table (fun f hf => h _ (List.mem_map_of_mem hf)) fun x _ => fits_nil trivial
  | prefixed inner =>
    simp only [Exp.children, List.forall_mem_cons] at h
    exact fits_node h.1 (fun x hx => (hb x hx).beforeName) fun x _ => fits_nil trivial

theorem fits_args {a : Args} (h : ∀ m ∈ (Node.args a).children, m.Joins) :
    Fits depth before a.shape (Node.args a).After := by
  have hend : ∀ x, IsClosed x → Fits depth (some x) [] (Node.args a).After :=
    fun x hx => fits_nil (by rintro y ⟨⟩; exact hx)
  cases a with
  | list values =>
    simp only [Node.children, List.forall_mem_cons] at h
    refine fits_neutral rfl rfl (fits_node h.1 (isFree_some (by decide)) fun x _ => ?_)
    exact fits_neutral rfl rfl (hend _ (isFree_of_isInert (by decide)).isClosed)
  | table fields =>
    rw [Args.shape, ← List.append_nil (tableShape fields)]
    exact fits_table (fun f hf => h _ (List.mem_map_of_mem hf)) hend
  | string lit => exact fits_string lit hend

theorem fits_prefixExp {e : PrefixExp} (h : ∀ m ∈ (Node.prefixExp e).children, m.Joins)
    (hb : ∀ x ∈ before, BeforeName x) : Fits depth before e.shape (Node.prefixExp e).After := by
  cases e with
  | var v =>
    simp only [Node.children, List.forall_mem_cons] at h
    exact fits_node h.1 hb fun x hx => fits_nil hx
  | call c =>
    simp only [Node.children, List.forall_mem_cons] at h
    exact fits_node h.1 hb fun x hx => fits_nil hx
  | paren inner =>
    simp only [Node.children, List.forall_mem_cons] at h
    refine fits_neutral rfl rfl (fits_node h.1 ?_ fun x _ => fits_neutral rfl rfl (fits_nil ?_))
    · exact fun x hx => (isFree_some (by decide) x hx).beforeExp inner
    · exact fun x hx => (isFree_some (by decide) x hx).isClosed

theorem fits_var {v : Var} (h : ∀ m ∈ (Node.var v).children, m.Joins) (hf : v.fault? = none)
    (hb : ∀ x ∈ before, BeforeName x) : Fits depth before v.shape (Node.var v).After := by
  cases v with
  | name n =>
    refine fits_name (Name.isValid_of_fault hf) hb fun hclosed => fits_nil ?_
    rintro x ⟨⟩
    exact hclosed
  | index base key =>
    simp only [Node.children, List.forall_mem_cons] at h
    refine fits_node h.1 hb fun x hx => fits_text (by decide) ?_ (fits_node h.2.1 ?_ fun x _ => ?_)
    · rintro y hy c ⟨⟩
      exact (hx y hy).2.1
    · rintro x ⟨⟩
      exact beforeExp_bracket key
    · exact fits_neutral rfl rfl (fits_nil fun x hx => (isFree_some (by decide) x hx).isClosed)
  | member base n =>
    simp only [Node.children, List.forall_mem_cons] at h
    refine fits_node h.1 hb fun x hx => fits_text (by decide) ?_ (fits_name ?_ ?_ fun hclosed => ?_)
    · rintro y hy c ⟨⟩
      exact (hx y hy).1
    · exact Name.isValid_of_fault hf
    · rintro x ⟨⟩
      exact beforeName_dot
    · refine fits_nil ?_
      rintro x ⟨⟩
      exact hclosed

theorem fits_call {c : Call} (h : ∀ m ∈ (Node.call c).children, m.Joins) (hf : c.fault? = none)
    (hb : ∀ x ∈ before, BeforeName x) : Fits depth before c.shape (Node.call c).After := by
  cases c with
  | normal callee as =>
    simp only [Node.children, List.forall_mem_cons] at h
    exact fits_node h.1 hb fun x _ => fits_node h.2.1 (fun _ _ => trivial) fun x hx => fits_nil hx
  | method object n as =>
    simp only [Node.children, List.forall_mem_cons] at h
    refine fits_node h.1 hb fun x hx => fits_text (by decide) ?_ (fits_name ?_ ?_ fun _ => ?_)
    · rintro y hy d ⟨⟩
      exact (hx y hy).2.2
    · exact Name.isValid_of_fault hf
    · rintro x ⟨⟩
      exact beforeName_colon
    · exact fits_node h.2.1 (fun _ _ => trivial) fun x hx => fits_nil hx

theorem fits_field {f : Field} (h : ∀ m ∈ (Node.field f).children, m.Joins) (hf : f.fault? = none)
    (hb : ∀ x ∈ before, IsFree x) : Fits depth before f.shape fun _ => True := by
  cases f with
  | positional value =>
    simp only [Node.children, List.forall_mem_cons] at h
    exact fits_node h.1 (fun x hx => (hb x hx).beforeExp value) fun x _ => fits_nil trivial
  | named n value =>
    simp only [Node.children, List.forall_mem_cons] at h
    refine fits_name (Name.isValid_of_fault hf) (fun x hx => (hb x hx).beforeName) fun _ => ?_
    refine fits_neutral rfl rfl (fits_node h.1 ?_ fun x _ => fits_nil trivial)
    exact fun x hx => (isFree_some (by decide) x hx).beforeExp value
  | keyed key value =>
    simp only [Node.children, List.forall_mem_cons] at h
    refine fits_text (by decide) (follows_of_isFree hb _) (fits_node h.1 ?_ fun x _ => ?_)
    · rintro x ⟨⟩
      exact beforeExp_bracket key
    · refine fits_neutral rfl rfl (fits_node h.2.1 ?_ fun x _ => fits_nil trivial)
      exact fun x hx => (isFree_some (by decide) x hx).beforeExp value

theorem fits_funcName {f : FuncName} (hv : ∀ n ∈ f.names, n.isValid = true)
    (hb : ∀ x ∈ before, IsFree x) : Fits depth before f.shape fun _ => True := by
  obtain ⟨base, indexers, method⟩ := f
  simp only [FuncName.names, List.forall_mem_append, List.cons_append, List.forall_mem_cons] at hv
  obtain ⟨hbase, hindexers, hmethod⟩ := hv
  -- from any name on: the fields after it, and the method
  have hrest : ∀ (names : List Name) (x : String), (∀ n ∈ names, n.isValid = true) → IsClosed x →
      Fits depth (some x) (names.flatMap (fun n => [Piece.text ".", .text n]) ++
        method.toList.flatMap fun n => [Piece.text ":", .text n]) fun _ => True := by
    intro names
    induction names with
    | nil =>
      intro x _ hx
      cases method with
      | none => exact fits_nil trivial
      | some m =>
        refine fits_text (by decide) ?_ (fits_name (hmethod m (by simp)) ?_ fun _ => fits_nil trivial)
        · rintro y ⟨⟩ d ⟨⟩
          exact hx.2.2
        · rintro y ⟨⟩
          exact beforeName_colon
    | cons n names ih =>
      intro x hnames hx
      rw [List.forall_mem_cons] at hnames
      refine fits_text (by decide) ?_ (fits_name hnames.1 ?_ fun hclosed => ih n hnames.2 hclosed)
      · rintro y ⟨⟩ d ⟨⟩
        exact hx.1
      · rintro y ⟨⟩
        exact beforeName_dot
  refine fits_name hbase (fun x hx => (hb x hx).beforeName) fun hclosed => ?_
  exact hrest indexers base hindexers hclosed

theorem fits_parList {p : ParList} (hv : ∀ n ∈ p.names, n.isValid = true) :
    Fits depth before p.shape fun _ => True := by
  obtain ⟨names, vararg⟩ := p
  have hclose : ∀ x, Fits depth x [.text ")"] fun _ => True := fun x =>
    fits_neutral rfl rfl (fits_nil trivial)
  simp only [ParList.shape, List.cons_append, List.append_assoc]
  refine fits_neutral rfl rfl ?_
  cases vararg with
  | false => exact fits_names hv (isFree_some (by decide)) hclose
  | true =>
    cases names with
    | nil =>
      exact fits_text (by decide) (follows_of_isFree (isFree_some (by decide)) _) (hclose _)
    | cons n names =>
      rw [if_pos rfl, if_neg (by simp)]
      exact fits_names hv (isFree_some (by decide)) fun x => fits_neutral rfl rfl (hclose _)

end

theorem isValid_of_firstInvalid {names : List Name} (h : firstInvalid? names = none) :
    ∀ n ∈ names, n.isValid = true :=
  fun n hn => Name.isValid_of_fault (List.findSome?_eq_none_iff.mp h n hn)

/-- Nodes with commas between them. -/
theorem fits_nodes {depth : Nat} {before : Option String} {Part : Type} {f : Part → Node}
    {parts : List Part} (h : ∀ m ∈ parts.map f, m.Joins)
    (hf : ∀ a x, IsFree x → (f a).Before x) (hb : ∀ x ∈ before, IsFree x) :
    Fits depth before (separated (parts.map fun a => .node (f a))) fun _ => True := by
  rw [← List.append_nil (separated _)]
  refine fits_separated (fun p hp before rest hb hr => ?_) hb fun x => fits_nil trivial
  obtain ⟨a, ha, rfl⟩ := List.mem_map.mp hp
  exact fits_node (h _ (List.mem_map_of_mem ha)) (fun x hx => hf a x (hb x hx)) fun x _ => hr x

/-- **A node written where it may stand has no text that sticks to the one before it.** -/
theorem Node.joins {n : Node} (hnum : n.NumbersSpelled) : n.Joins := by
  induction n using Node.inductionOn with
  | h n ih =>
    have h : ∀ m ∈ n.children, m.Joins := fun m hm =>
      ih m hm fun lit hlit => hnum lit (mem_preorder_of_child hm hlit)
    intro depth before hb
    cases hf : n.fault? with
    | some fault =>
      rw [layout_of_fault hf]
      exact ⟨trivial, fun hnone => absurd hnone (by simp)⟩
    | none =>
      rw [layout_of_none hf]
      show Fits depth before n.shape n.After
      cases n with
      | chunk body =>
        have hlines : Fits (depth + 1) before (Chunk.lines body ++ [Piece.dedent]) fun _ => True :=
          fits_flatMap (fun s hs before rest hr => fits_lineBreak
            (fits_node (h _ (List.mem_map_of_mem hs)) isFree_none fun x _ => hr x))
            fun x => fits_dedent (fits_nil trivial)
        exact fits_indent hlines
      | stat s => exact fits_stat h hf hb
      | elseIf c =>
        obtain ⟨condition, body⟩ := c
        simp only [children, List.forall_mem_cons] at h
        refine fits_text (by decide) (follows_of_isFree hb _) (fits_node h.1 ?_ fun x _ => ?_)
        · exact fun x hx => (isFree_some (by decide) x hx).beforeExp condition
        · exact fits_neutral rfl rfl (fits_node h.2.1 (fun _ _ => trivial) fun x _ => fits_nil trivial)
      | funcBody b =>
        obtain ⟨params, body⟩ := b
        simp only [children, List.forall_mem_cons] at h
        refine fits_node h.1 (fun _ _ => trivial) fun x _ => ?_
        exact fits_node h.2.1 (fun _ _ => trivial) fun x _ => fits_nil trivial
      | funcName f => exact fits_funcName (isValid_of_firstInvalid hf) hb
      | parList p => exact fits_parList (isValid_of_firstInvalid hf)
      | exp e => exact fits_exp h hf hnum hb
      | prefixExp e => exact fits_prefixExp h hb
      | var v => exact fits_var h hf hb
      | call c => exact fits_call h hf hb
      | args a => exact fits_args h
      | field f => exact fits_field h hf hb
      | table fields =>
        rw [shape, ← List.append_nil (tableShape fields)]
        exact fits_table (fun f hf => h _ (List.mem_map_of_mem hf)) fun x _ => fits_nil trivial
      | nameList names =>
        rw [shape, ← List.append_nil (namesShape names)]
        exact fits_names (isValid_of_firstInvalid hf) hb fun x => fits_nil trivial
      | expList es => exact fits_nodes h (fun e x hx => hx.beforeExp e) hb
      | varList vs => exact fits_nodes h (fun v x hx => hx.beforeName) hb
      | name n =>
        exact fits_name (Name.isValid_of_fault hf) (fun x hx => (hb x hx).beforeName)
          fun _ => fits_nil trivial

/-- No text of a tree sticks to the text before it. -/
theorem seamless_rootLayout {root : Node} (hnum : root.NumbersSpelled) :
    Seamless none root.rootLayout.items := by
  have hb : ∀ n : Node, ∀ x ∈ (none : Option String), n.Before x := by rintro n x ⟨⟩
  cases root with
  | chunk body =>
    have hlines : Fits 0 none (Chunk.lines body ++ []) fun _ => True := by
      refine fits_flatMap (fun s hs before rest hr => ?_) fun x => fits_nil trivial
      have hjoin : (Node.stat s).Joins := Node.joins fun lit hlit =>
        hnum lit (Node.mem_preorder_of_child (List.mem_map_of_mem hs) hlit)
      exact fits_lineBreak (fits_node hjoin isFree_none fun x _ => hr x)
    rw [List.append_nil] at hlines
    exact hlines.1
  | _ => exact (Node.joins hnum 0 none (hb _)).1

end LuaUnparse
