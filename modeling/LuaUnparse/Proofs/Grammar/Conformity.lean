import LuaUnparse.Proofs.Grammar.Fragment
import LuaUnparse.Proofs.Reading.Spelling

/-!
# `LuaUnparse.Proofs.Grammar.Conformity` — what is written follows the grammar

The types of a tree let it break the grammar: lists may be empty where the grammar wants them filled, and a
name may be any text. The checks of the rules leave none of this through. Whatever tree is written, the
fragments of its run, line breaks apart, are terminals that the grammar derives from the category of its
root.

## Contents
- **Forms.** `Node.form`, the phrases of the grammar that a node stands for.
- **Pieces.** `Conforms`, for pieces that are laid out as a form asks, and its rules.
- **Trees.** `conforms_shape` for one construct, **`fragments_derivable`** for a whole run.
-/

namespace LuaUnparse

/-! ## Forms -/

/-- A list of the grammar, or nothing at all. -/
def listForm {Item : Type} (n : Nonterminal) (items : List Item) : List Phrase :=
  if items.isEmpty then [] else [.nonterminal n]

/-- The phrases of the grammar that a node stands for. A parameter list has its parentheses with it, and a
function body is without its `end`. -/
def Node.form : Node → List Phrase
  | .chunk _ => [.nonterminal .chunk]
  | .stat _ => [.nonterminal .stat]
  | .elseIf _ => .word .elseif :: Phrase.guarded
  | .funcBody _ => Phrase.paramsAndBlock
  | .funcName _ => [.nonterminal .funcName]
  | .parList _ => [.mark .openParen, .optional [.nonterminal .parList], .mark .closeParen]
  | .exp _ => [.nonterminal .exp]
  | .prefixExp _ => [.nonterminal .prefixExp]
  | .var _ => [.nonterminal .var]
  | .call _ => [.nonterminal .functionCall]
  | .args _ => [.nonterminal .args]
  | .field _ => [.nonterminal .field]
  | .table _ => [.nonterminal .tableConstructor]
  | .nameList names => listForm .nameList names
  | .expList es => listForm .expList es
  | .varList vs => listForm .varList vs
  | .name _ => [.name]

/-! ## Pieces -/

/-- The pieces are laid out without a fault, and what they write is derived from the form. -/
def Conforms (ps : List Piece) (form : List Phrase) : Prop :=
  ∀ depth, (layoutPieces depth ps).fault = none ∧
    ∃ ts, ReadsAs (layoutPieces depth ps).unbroken ts ∧ Derives form ts

theorem conforms_nil : Conforms [] [] := by
  intro depth
  rw [layoutPieces]
  exact ⟨rfl, [], readsAs_nil, .nil⟩

/-- Pieces after pieces: if what the first write and what the second write make up a third form, so do
they. -/
theorem Conforms.join {ps qs : List Piece} {form other whole : List Phrase} (h : Conforms ps form)
    (hs : Conforms qs other)
    (hjoin : ∀ ts us, Derives form ts → Derives other us → Derives whole (ts ++ us)) :
    Conforms (ps ++ qs) whole := by
  intro depth
  obtain ⟨hnone, ts, hts, hform⟩ := h depth
  obtain ⟨hnone', us, hus, hother⟩ := hs (depthAfter depth ps)
  rw [layoutPieces_append, Layout.unbroken_append hnone]
  refine ⟨?_, ts ++ us, hts.append hus, hjoin ts us hform hother⟩
  rw [Layout.append_fault, hnone, hnone']
  rfl

theorem Conforms.append {ps qs : List Piece} {form other : List Phrase} (h : Conforms ps form)
    (hs : Conforms qs other) : Conforms (ps ++ qs) (form ++ other) :=
  h.join hs fun _ _ => Derives.append

section

variable {ps : List Piece} {form : List Phrase}

/-- What derives all that one form derives may stand in its place. -/
theorem Conforms.imp {other : List Phrase} (h : Conforms ps form)
    (himp : ∀ ts, Derives form ts → Derives other ts) : Conforms ps other := by
  intro depth
  obtain ⟨hnone, ts, hts, hform⟩ := h depth
  exact ⟨hnone, ts, hts, himp ts hform⟩

/-- What a right-hand side asks for is what its nonterminal asks for. -/
theorem Conforms.rule {n : Nonterminal} {alternative : List Phrase} (h : Conforms ps alternative)
    (mem : alternative ∈ n.alternatives) : Conforms ps [.nonterminal n] :=
  h.imp fun _ => .rule mem

theorem Conforms.take (h : Conforms ps form) : Conforms ps [.optional form] := by
  refine h.imp fun ts hform => ?_
  rw [← List.append_nil ts]
  exact .take hform .nil

theorem conforms_skip (phrases : List Phrase) : Conforms [] [.optional phrases] :=
  conforms_nil.imp fun _ => .skip phrases

/-- Parts one after the other, any number of them. -/
theorem conforms_many {Item : Type} {f : Item → List Piece} {items : List Item}
    (h : ∀ item ∈ items, Conforms (f item) form) : Conforms (items.flatMap f) [.many form] := by
  induction items with
  | nil => exact conforms_nil.imp fun _ => .stop form
  | cons item items ih =>
    rw [List.forall_mem_cons] at h
    exact h.1.join (ih h.2) fun _ _ => .again

/-- A part that may be left out. -/
theorem conforms_option {Item : Type} {f : Item → List Piece} {item : Option Item}
    (h : ∀ i ∈ item, Conforms (f i) form) : Conforms (item.toList.flatMap f) [.optional form] := by
  cases item with
  | none => exact conforms_skip form
  | some i =>
    have hi := (h i rfl).take
    rw [← List.append_nil (f i)] at hi
    exact hi

theorem derives_terminals {ts us : List Terminal} (h : Derives form us) :
    Derives (ts.map .terminal ++ form) (ts ++ us) := by
  induction ts with
  | nil => exact h
  | cons t ts ih => exact .terminal t ih

/-- A text that is read as terminals. -/
theorem conforms_read {t : String} {ts : List Terminal} (hread : terminals? t = some ts)
    (hquote : t ≠ "\"") (hline : isLineBreak t = false) (h : Conforms ps form) :
    Conforms (.text t :: ps) (ts.map .terminal ++ form) := by
  have hform : Derives (ts.map .terminal) ts := by
    have hall : Derives (ts.map .terminal ++ []) (ts ++ []) := derives_terminals .nil
    rwa [List.append_nil, List.append_nil] at hall
  have htext : Conforms [.text t] (ts.map .terminal) := by
    intro depth
    by_cases hempty : t = ""
    · -- the empty text has no terminals
      have hnil : terminals? "" = some [] := by
        have hlex : lex? "".toList = some [] := lex?_nil
        rw [terminals?, hlex]
        rfl
      rw [hempty, hnil] at hread
      rw [hempty, layoutPieces, layoutPieces]
      exact ⟨rfl, ts, Option.some.inj hread ▸ readsAs_nil, hform⟩
    · have hfull : t.isEmpty = false :=
        Bool.eq_false_iff.mpr fun h => hempty (String.isEmpty_iff.mp h)
      rw [layoutPieces_text hfull, Layout.unbroken_text hline, layoutPieces]
      exact ⟨rfl, ts, readsAs_text hread hquote, hform⟩
  exact htext.append h

/-- A text that is read as tokens. -/
theorem conforms_text {t : String} {us : List Token} (ht : Lexes t us) (hbare : isBare t = true)
    (h : Conforms ps form) :
    Conforms (.text t :: ps) ((us.filterMap Token.terminal?).map .terminal ++ form) :=
  conforms_read (terminals?_of_lexes ht hbare) (ne_quote_of_isBare hbare)
    (isLineBreak_of_isBare hbare) h

theorem conforms_word (k : Keyword) (h : Conforms ps form) :
    Conforms (.text k.spelling :: ps) (.word k :: form) :=
  conforms_text (lexes_keyword k) (by cases k <;> decide) h

/-- A word with a blank after it. -/
theorem conforms_wordBlank (k : Keyword) (h : Conforms ps form) :
    Conforms (.text (k.spelling ++ " ") :: ps) (.word k :: form) :=
  conforms_text (lexes_keyword k).blank_after (by cases k <;> decide) h

theorem conforms_comma (h : Conforms ps form) : Conforms (.text ", " :: ps) (.mark .comma :: form) :=
  conforms_text lexes_comma (by decide) h

theorem conforms_assign (h : Conforms ps form) : Conforms (.text " = " :: ps) (.mark .assign :: form) :=
  conforms_text lexes_assign (by decide) h

theorem conforms_then (h : Conforms ps form) : Conforms (.text " then" :: ps) (.word .then :: form) :=
  conforms_text lexes_then (by decide) h

theorem conforms_do (h : Conforms ps form) : Conforms (.text " do" :: ps) (.word .do :: form) :=
  conforms_text lexes_do (by decide) h

/-- A blank is no terminal. -/
theorem conforms_blank (h : Conforms ps form) : Conforms (.text " " :: ps) form :=
  conforms_text lexes_blank (by decide) h

theorem conforms_mark (s : Symbol) (hs : s ∈ Symbol.all) (h : Conforms ps form) :
    Conforms (.text s.spelling :: ps) (.mark s :: form) := by
  have hbare : ∀ s ∈ Symbol.all, isBare s.spelling = true := by decide
  exact conforms_text (lexes_symbol s hs) (hbare s hs) h

theorem conforms_name {name : Name} (hv : name.isValid = true) (h : Conforms ps form) :
    Conforms (.text name :: ps) (.name :: form) :=
  conforms_text (lexes_name hv) (isBare_of_isValid hv) h

theorem conforms_number {raw : String} (hdigit : raw.toList.head?.any Char.isDigit = true)
    (h : Conforms ps form) : Conforms (.text raw :: ps) (.terminal .number :: form) := by
  have hread : terminals? raw = some [.number] := by rw [terminals?, if_pos hdigit]
  have hquote : raw ≠ "\"" := by
    rintro rfl
    exact absurd hdigit (by decide)
  have hline : isLineBreak raw = false := by
    unfold isLineBreak
    cases hhead : raw.toList.head? with
    | none => rfl
    | some c =>
      rw [hhead, Option.any_some] at hdigit
      have hne : c ≠ '\n' := by rintro rfl; exact absurd hdigit (by decide)
      simp [hne]
  exact conforms_read hread hquote hline h

theorem conforms_lineBreak (h : Conforms ps form) : Conforms (.lineBreak :: ps) form := by
  intro depth
  rw [layoutPieces, Layout.unbroken_lineBreak]
  exact h depth

theorem conforms_indent (h : Conforms ps form) : Conforms (.indent :: ps) form := by
  intro depth
  rw [layoutPieces]
  exact h (depth + 1)

theorem conforms_dedent (h : Conforms ps form) : Conforms (.dedent :: ps) form := by
  intro depth
  rw [layoutPieces]
  exact h (depth - 1)

theorem conforms_node {n : Node} (hn : Conforms [.node n] n.form) (h : Conforms ps form) :
    Conforms (.node n :: ps) (n.form ++ form) :=
  hn.append h

theorem conforms_string (lit : StringLit) : Conforms lit.shape [.terminal .string] := by
  intro depth
  rw [layoutPieces_string, Layout.unbroken_string]
  exact ⟨rfl, [.string], readsAs_string lit.value, .terminal .string .nil⟩

end

/-! ## Trees -/

/-- Whether the node, if it is a number, is spelled with a digit first. -/
def Node.isDigitFirst : Node → Bool
  | .exp (.number lit) => lit.raw.toList.head?.any Char.isDigit
  | _ => true

/-- A tree in which every number is spelled with a digit first. -/
def Node.DigitsFirst (n : Node) : Prop :=
  ∀ m ∈ n.preorder, m.isDigitFirst = true

instance (n : Node) : Decidable n.DigitsFirst :=
  inferInstanceAs (Decidable (∀ m ∈ n.preorder, m.isDigitFirst = true))

section

open Nonterminal (alternatives)

/-- A list with commas between its items, if the grammar has a rule for it. -/
theorem conforms_separated {Item : Type} {n : Nonterminal} {item : Phrase}
    (mem : Phrase.listOf item ∈ n.alternatives) {f : Item → Piece} {items : List Item}
    (h : ∀ i ∈ items, Conforms [f i] [item]) :
    Conforms (separated (items.map f)) (listForm n items) := by
  cases items with
  | nil => exact conforms_nil
  | cons i items =>
    rw [List.forall_mem_cons] at h
    have hmore : Conforms (items.flatMap fun j => [.text ", ", f j]) [.many [.mark .comma, item]] :=
      conforms_many fun j hj => conforms_comma (h.2 j hj)
    rw [List.map_cons, separated_cons, List.flatMap_map]
    exact (h.1.append hmore).rule mem

/-- A list that may be left out if it is empty. -/
theorem Conforms.optional {Item : Type} {n : Nonterminal} {items : List Item} {ps : List Piece}
    (h : Conforms ps (listForm n items)) : Conforms ps [.optional [.nonterminal n]] := by
  cases items with
  | nil => exact h.imp fun _ => .skip _
  | cons i items => exact h.take

theorem conforms_names {names : List Name} (hv : ∀ n ∈ names, n.isValid = true) :
    Conforms (namesShape names) (listForm .nameList names) :=
  conforms_separated (by simp [alternatives]) fun n hn => conforms_name (hv n hn) conforms_nil

theorem conforms_chunk {body : Chunk} (h : ∀ s ∈ body, Conforms [.node (.stat s)] [.nonterminal .stat]) :
    Conforms (Chunk.lines body) [.nonterminal .chunk] := by
  have hlines : Conforms (Chunk.lines body) [.many [.nonterminal .stat]] :=
    conforms_many fun s hs => conforms_lineBreak (h s hs)
  exact hlines.rule (by simp [alternatives])

theorem conforms_table {fields : List Field}
    (h : ∀ f ∈ fields, Conforms [.node (.field f)] [.nonterminal .field]) :
    Conforms (tableShape fields) [.nonterminal .tableConstructor] := by
  have hbraces : Conforms (tableShape fields)
      [.mark .openBrace, .many [.nonterminal .field, .mark .comma], .mark .closeBrace] := by
    have hclose : Conforms [.text "\x7d"] [.mark .closeBrace] :=
      conforms_mark .closeBrace (by decide) conforms_nil
    unfold tableShape
    cases fields with
    | nil =>
      have hmark : Conforms [.text "\x7b\x7d"] [.mark .openBrace, .mark .closeBrace] :=
        conforms_text lexes_noEntries (by decide) conforms_nil
      refine hmark.imp fun ts hts => ?_
      -- there are no entries between the braces
      rcases hts with _ | ⟨_, hclose⟩
      exact .terminal _ (.stop _ hclose)
    | cons f fields =>
      have hentries : Conforms ((f :: fields).flatMap fun f => [.lineBreak, .node (.field f), .text ","])
          [.many [.nonterminal .field, .mark .comma]] :=
        conforms_many fun f hf => conforms_lineBreak
          ((h f hf).append (conforms_mark .comma (by decide) conforms_nil))
      refine conforms_mark .openBrace (by decide) (conforms_indent (hentries.append ?_))
      exact conforms_dedent (conforms_lineBreak hclose)
  exact hbraces.rule (by simp [alternatives])

/-- What comes before values, and the values, unless there are none. -/
theorem conforms_valuesAfter {lead : String} {us : List Token} (hlead : Lexes lead us)
    (hbare : isBare lead = true) {values : List Exp}
    (h : ∀ m ∈ valuesChildren values, Conforms [.node m] m.form) :
    Conforms (valuesAfter lead values)
      [.optional ((us.filterMap Token.terminal?).map .terminal ++ [Phrase.nonterminal .expList])] := by
  cases values with
  | nil => exact conforms_skip _
  | cons value values =>
    exact (conforms_text hlead hbare (h (.expList (value :: values)) (by simp [valuesChildren]))).take

theorem conforms_end : Conforms [.lineBreak, .text "end"] [.word .end] :=
  conforms_lineBreak (conforms_word .end conforms_nil)

theorem conforms_bodyAndEnd {body : Chunk} (h : Conforms [.node (.chunk body)] [.nonterminal .chunk]) :
    Conforms (bodyAndEnd body) [.nonterminal .chunk, .word .end] :=
  h.append conforms_end

/-- A function body, and the `end` that closes it. -/
theorem conforms_funcBody {body : FuncBody} (h : Conforms [.node (.funcBody body)] Phrase.paramsAndBlock) :
    Conforms [.node (.funcBody body), .lineBreak, .text "end"] [.nonterminal .funcBody] :=
  (h.append conforms_end).rule (by simp [alternatives])

theorem conforms_stat {s : Stat} (h : ∀ m ∈ s.children, Conforms [.node m] m.form)
    (hf : s.fault? = none) : Conforms s.shape [.nonterminal .stat] := by
  cases s with
  | function name body =>
    simp only [Stat.children, List.forall_mem_cons] at h
    have hshape : Conforms (Stat.function name body).shape
        [.word .function, .nonterminal .funcName, .nonterminal .funcBody] :=
      conforms_wordBlank .function
        (conforms_node h.1 (conforms_funcBody h.2.1))
    exact hshape.rule (by simp [alternatives])
  | localFunction name body =>
    have hshape : Conforms (Stat.localFunction name body).shape
        [.word .local, .word .function, .name, .nonterminal .funcBody] :=
      conforms_text lexes_localFunction (by decide)
        (conforms_name (Name.isValid_of_fault hf) (conforms_funcBody (h _ List.mem_cons_self)))
    exact hshape.rule (by simp [alternatives])
  | ifThen condition body elseIfs elseBody =>
    simp only [Stat.children, List.cons_append, List.forall_mem_cons, List.forall_mem_append,
      List.forall_mem_map] at h
    obtain ⟨hcondition, hbody, hclauses, helse⟩ := h
    have hlead : Conforms [.text "if ", .node (.exp condition), .text " then", .node (.chunk body)]
        (.word .if :: Phrase.guarded) :=
      conforms_wordBlank .if
        (conforms_node hcondition (conforms_then hbody))
    have hlines : Conforms (elseIfs.flatMap fun clause => [.lineBreak, .node (.elseIf clause)])
        [.many (.word .elseif :: Phrase.guarded)] :=
      conforms_many fun clause hc => conforms_lineBreak (hclauses clause hc)
    have hlast : Conforms
        (elseBody.toList.flatMap fun b => [.lineBreak, .text "else", .node (.chunk b)])
        [.optional [.word .else, .nonterminal .chunk]] :=
      conforms_option fun b hb =>
        conforms_lineBreak (conforms_word .else (helse b (Option.mem_toList.mpr hb)))
    have hshape : Conforms (Stat.ifThen condition body elseIfs elseBody).shape
        ([Phrase.word .if] ++ Phrase.guarded ++ [Phrase.many (.word .elseif :: Phrase.guarded),
          .optional [.word .else, .nonterminal .chunk], .word .end]) :=
      ((hlead.append hlines).append hlast).append conforms_end
    exact hshape.rule (by simp [alternatives])
  | numericFor var start stop step body =>
    simp only [Stat.children, List.cons_append, List.forall_mem_cons, List.forall_mem_append,
      List.forall_mem_map] at h
    obtain ⟨hstart, hstop, hstep, hbody, -⟩ := h
    have hlead : Conforms [.text "for ", .text var, .text " = ", .node (.exp start), .text ", ",
          .node (.exp stop)]
        [.word .for, .name, .mark .assign, .nonterminal .exp, .mark .comma, .nonterminal .exp] := by
      refine conforms_wordBlank .for ?_
      refine conforms_name (Name.isValid_of_fault hf) (conforms_assign ?_)
      exact conforms_node hstart (conforms_comma hstop)
    have hmiddle : Conforms (step.toList.flatMap fun e => [.text ", ", .node (.exp e)])
        [.optional [.mark .comma, .nonterminal .exp]] :=
      conforms_option fun e he =>
        conforms_comma (hstep e (Option.mem_toList.mpr he))
    have hloop : Conforms (.text " do" :: bodyAndEnd body)
        [.word .do, .nonterminal .chunk, .word .end] :=
      conforms_do (conforms_bodyAndEnd hbody)
    have hshape : Conforms (Stat.numericFor var start stop step body).shape
        [.word .for, .name, .mark .assign, .nonterminal .exp, .mark .comma, .nonterminal .exp,
          .optional [.mark .comma, .nonterminal .exp], .word .do, .nonterminal .chunk, .word .end] :=
      (hlead.append hmiddle).append hloop
    exact hshape.rule (by simp [alternatives])
  | genericFor names values body =>
    simp only [Stat.children, List.forall_mem_cons] at h
    obtain ⟨hnames, hvalues, hbody, -⟩ := h
    have hshape : Conforms (Stat.genericFor names values body).shape
        [.word .for, .nonterminal .nameList, .word .in, .nonterminal .expList, .word .do,
          .nonterminal .chunk, .word .end] := by
      cases names with
      | nil => simp [Stat.fault?] at hf
      | cons n names =>
        cases values with
        | nil => simp [Stat.fault?] at hf
        | cons value values =>
          refine conforms_wordBlank .for (conforms_node hnames ?_)
          refine conforms_text lexes_in (by decide) (conforms_node hvalues ?_)
          exact conforms_do (conforms_bodyAndEnd hbody)
    exact hshape.rule (by simp [alternatives])
  | call c => 
    have hcall : Conforms (Stat.call c).shape [.nonterminal .functionCall] := h _ List.mem_cons_self
    exact hcall.rule (by simp [alternatives])
  | ret values =>
    have hshape : Conforms (Stat.ret values).shape [.word .return, .optional [.nonterminal .expList]] :=
      conforms_word .return (conforms_valuesAfter lexes_blank (by decide) h)
    exact hshape.rule (by simp [alternatives])
  | localVars names values =>
    simp only [Stat.children, List.forall_mem_cons] at h
    have hshape : Conforms (Stat.localVars names values).shape
        [.word .local, .nonterminal .nameList, .optional [.mark .assign, .nonterminal .expList]] := by
      cases names with
      | nil => simp [Stat.fault?] at hf
      | cons n names =>
        refine conforms_wordBlank .local (conforms_node h.1 ?_)
        exact conforms_valuesAfter lexes_assign (by decide) h.2
    exact hshape.rule (by simp [alternatives])
  | assign targets values =>
    simp only [Stat.children, List.forall_mem_cons] at h
    have hshape : Conforms (Stat.assign targets values).shape
        [.nonterminal .varList, .mark .assign, .nonterminal .expList] := by
      cases targets with
      | nil => simp [Stat.fault?] at hf
      | cons v targets =>
        cases values with
        | nil => simp [Stat.fault?] at hf
        | cons value values => exact conforms_node h.1 (conforms_assign h.2.1)
    exact hshape.rule (by simp [alternatives])
  | block body =>
    have hshape : Conforms (Stat.block body).shape [.word .do, .nonterminal .chunk, .word .end] :=
      conforms_word .do (conforms_bodyAndEnd (h _ List.mem_cons_self))
    exact hshape.rule (by simp [alternatives])
  | repeatUntil body condition =>
    simp only [Stat.children, List.forall_mem_cons] at h
    have hshape : Conforms (Stat.repeatUntil body condition).shape
        [.word .repeat, .nonterminal .chunk, .word .until, .nonterminal .exp] :=
      conforms_word .repeat (conforms_node h.1 (conforms_lineBreak
        (conforms_wordBlank .until h.2.1)))
    exact hshape.rule (by simp [alternatives])
  | whileDo condition body =>
    simp only [Stat.children, List.forall_mem_cons] at h
    have hshape : Conforms (Stat.whileDo condition body).shape
        [.word .while, .nonterminal .exp, .word .do, .nonterminal .chunk, .word .end] :=
      conforms_wordBlank .while
        (conforms_node h.1 (conforms_do (conforms_bodyAndEnd h.2.1)))
    exact hshape.rule (by simp [alternatives])
  | breakLoop =>
    have hshape : Conforms Stat.breakLoop.shape [.word .break] := conforms_word .break conforms_nil
    exact hshape.rule (by simp [alternatives])

/-- An operator, if the grammar has it among those of its arity. -/
theorem conforms_operator {n : Nonterminal} {terminal : Terminal} {token : Token} {t : String}
    (mem : [.terminal terminal] ∈ n.alternatives) (hterminal : token.terminal? = some terminal)
    (ht : Lexes t [token]) (hbare : isBare t = true) {ps : List Piece} {form : List Phrase}
    (h : Conforms ps form) : Conforms (.text t :: ps) (.nonterminal n :: form) := by
  have hread : Conforms [.text t] [.terminal terminal] := by
    have htext := conforms_text ht hbare conforms_nil
    rw [List.filterMap_cons, hterminal] at htext
    exact htext
  exact (hread.rule mem).append h

theorem conforms_unOp (op : UnOp) {ps : List Piece} {form : List Phrase} (h : Conforms ps form) :
    Conforms (.text op.spelling :: ps) (.nonterminal .unOp :: form) := by
  have hmem : [.terminal op.terminal] ∈ alternatives .unOp :=
    List.mem_map.mpr ⟨op, UnOp.vocabulary.mem_words op, rfl⟩
  have hbare : isBare op.spelling = true := by cases op <;> decide
  exact conforms_operator hmem op.terminal?_token (lexes_unOp op) hbare h

theorem conforms_binOp (op : BinOp) {ps : List Piece} {form : List Phrase} (h : Conforms ps form) :
    Conforms (.text op.spelling :: ps) (.nonterminal .binOp :: form) := by
  have hmem : [.terminal op.terminal] ∈ alternatives .binOp :=
    List.mem_map.mpr ⟨op, BinOp.vocabulary.mem_words op, rfl⟩
  have hbare : isBare op.spelling = true := by cases op <;> decide
  exact conforms_operator hmem op.terminal?_token (lexes_binOp op) hbare h

theorem conforms_parenthesized {inner : Exp} (h : Conforms [.node (.exp inner)] [.nonterminal .exp]) :
    Conforms [.text "(", .node (.exp inner), .text ")"]
      [.mark .openParen, .nonterminal .exp, .mark .closeParen] :=
  conforms_mark .openParen (by decide)
    (conforms_node h (conforms_mark .closeParen (by decide) conforms_nil))

theorem conforms_exp {e : Exp} (h : ∀ m ∈ e.children, Conforms [.node m] m.form)
    (hdigit : (Node.exp e).isDigitFirst = true) : Conforms e.shape [.nonterminal .exp] := by
  cases e with
  | nil =>
    have hshape : Conforms Exp.nil.shape [.word .nil] := conforms_word .nil conforms_nil
    exact hshape.rule (by simp [alternatives])
  | bool value =>
    cases value with
    | true =>
      have hshape : Conforms (Exp.bool true).shape [.word .true] := conforms_word .true conforms_nil
      exact hshape.rule (by simp [alternatives])
    | false =>
      have hshape : Conforms (Exp.bool false).shape [.word .false] := conforms_word .false conforms_nil
      exact hshape.rule (by simp [alternatives])
  | vararg =>
    have hshape : Conforms Exp.vararg.shape [.mark .ellipsis] :=
      conforms_mark .ellipsis (by decide) conforms_nil
    exact hshape.rule (by simp [alternatives])
  | number lit =>
    have hshape : Conforms (Exp.number lit).shape [.terminal .number] :=
      conforms_number hdigit conforms_nil
    exact hshape.rule (by simp [alternatives])
  | string lit => exact (conforms_string lit).rule (by simp [alternatives])
  | unary op operand =>
    have hoperand : Conforms [.node (.exp operand)] [.nonterminal .exp] := h _ List.mem_cons_self
    -- a blank after the operator is no terminal
    have hgap : Conforms (unaryGap op operand ++ [Piece.node (.exp operand)]) [.nonterminal .exp] := by
      unfold unaryGap
      split
      · exact conforms_blank hoperand
      · exact hoperand
    exact (conforms_unOp op hgap).rule (by simp [alternatives])
  | binary left op right =>
    simp only [Exp.children, List.forall_mem_cons] at h
    have hshape : Conforms (Exp.binary left op right).shape
        [.nonterminal .exp, .nonterminal .binOp, .nonterminal .exp] := by
      refine conforms_node h.1 (conforms_blank (conforms_binOp op ?_))
      exact conforms_blank h.2.1
    exact hshape.rule (by simp [alternatives])
  | function body =>
    have hshape : Conforms (Exp.function body).shape [.word .function, .nonterminal .funcBody] :=
      conforms_word .function (conforms_funcBody (h _ List.mem_cons_self))
    exact hshape.rule (by simp [alternatives])
  | paren inner =>
    exact (conforms_parenthesized (h _ List.mem_cons_self)).rule (by simp [alternatives])
  | table fields =>
    have hshape : Conforms (Exp.table fields).shape [.nonterminal .tableConstructor] :=
      conforms_table fun f hf => h _ (List.mem_map_of_mem hf)
    exact hshape.rule (by simp [alternatives])
  | prefixed inner =>
    have hshape : Conforms (Exp.prefixed inner).shape [.nonterminal .prefixExp] :=
      h _ List.mem_cons_self
    exact hshape.rule (by simp [alternatives])

theorem conforms_funcName {name : FuncName} (hv : ∀ n ∈ name.names, n.isValid = true) :
    Conforms name.shape [.nonterminal .funcName] := by
  obtain ⟨base, indexers, method⟩ := name
  simp only [FuncName.names, List.forall_mem_append, List.cons_append, List.forall_mem_cons] at hv
  obtain ⟨hbase, hindexers, hmethod⟩ := hv
  have hfields : Conforms (indexers.flatMap fun n => [.text ".", .text n]) [.many [.mark .dot, .name]] :=
    conforms_many fun n hn =>
      conforms_mark .dot (by decide) (conforms_name (hindexers n hn) conforms_nil)
  have hlast : Conforms (method.toList.flatMap fun n => [.text ":", .text n])
      [.optional [.mark .colon, .name]] :=
    conforms_option fun n hn => conforms_mark .colon (by decide)
      (conforms_name (hmethod n (Option.mem_toList.mpr hn)) conforms_nil)
  have hshape : Conforms (FuncName.mk base indexers method).shape
      [.name, .many [.mark .dot, .name], .optional [.mark .colon, .name]] :=
    conforms_name hbase (hfields.append hlast)
  exact hshape.rule (by simp [alternatives])

theorem conforms_parList {params : ParList} (hv : ∀ n ∈ params.names, n.isValid = true) :
    Conforms params.shape [.mark .openParen, .optional [.nonterminal .parList], .mark .closeParen] := by
  have hclose : Conforms [.text ")"] [.mark .closeParen] :=
    conforms_mark .closeParen (by decide) conforms_nil
  obtain ⟨names, vararg⟩ := params
  have hnames := conforms_names hv
  simp only [ParList.shape, List.cons_append, List.append_assoc]
  refine conforms_mark .openParen (by decide) ?_
  cases names with
  | nil =>
    cases vararg with
    | false => exact (conforms_skip _).append hclose
    | true =>
      have hdots : Conforms [.text "..."] [.mark .ellipsis] :=
        conforms_mark .ellipsis (by decide) conforms_nil
      exact (hdots.rule (by simp [alternatives])).take.append hclose
  | cons n names =>
    have hlast : Conforms (if vararg then [Piece.text ", ..."] else [])
        [.optional [.mark .comma, .mark .ellipsis]] := by
      cases vararg with
      | false => exact conforms_skip _
      | true => exact (conforms_text lexes_moreDots (by decide) conforms_nil).take
    have hlist : Conforms (namesShape (n :: names) ++ if vararg then [Piece.text ", ..."] else [])
        [.nonterminal .parList] :=
      (hnames.append hlast).rule (by simp [alternatives, listForm])
    rw [← List.append_assoc]
    exact hlist.take.append hclose

/-- **A node that passes its check is laid out as the grammar asks**, if its children are. -/
theorem conforms_shape {n : Node} (h : ∀ m ∈ n.children, Conforms [.node m] m.form)
    (hf : n.fault? = none) (hdigit : n.isDigitFirst = true) : Conforms n.shape n.form := by
  cases n with
  | chunk body =>
    have hlines := conforms_chunk fun s hs => h _ (List.mem_map_of_mem hs)
    exact (conforms_indent hlines).append (conforms_dedent conforms_nil)
  | stat s => exact conforms_stat h hf
  | elseIf c =>
    obtain ⟨condition, body⟩ := c
    simp only [Node.children, List.forall_mem_cons] at h
    refine conforms_wordBlank .elseif (conforms_node h.1 ?_)
    exact conforms_then h.2.1
  | funcBody b =>
    obtain ⟨params, body⟩ := b
    simp only [Node.children, List.forall_mem_cons] at h
    exact conforms_node h.1 h.2.1
  | funcName name => exact conforms_funcName (isValid_of_firstInvalid hf)
  | parList params => exact conforms_parList (isValid_of_firstInvalid hf)
  | exp e => exact conforms_exp h hdigit
  | prefixExp e =>
    cases e with
    | var v =>
      have hshape : Conforms (PrefixExp.var v).shape [.nonterminal .var] := h _ List.mem_cons_self
      exact hshape.rule (by simp [alternatives])
    | call c =>
      have hshape : Conforms (PrefixExp.call c).shape [.nonterminal .functionCall] :=
        h _ List.mem_cons_self
      exact hshape.rule (by simp [alternatives])
    | paren inner =>
      exact (conforms_parenthesized (h _ List.mem_cons_self)).rule (by simp [alternatives])
  | var v =>
    cases v with
    | name n =>
      have hshape : Conforms (Var.name n).shape [.name] :=
        conforms_name (Name.isValid_of_fault hf) conforms_nil
      exact hshape.rule (by simp [alternatives])
    | index base key =>
      simp only [Node.children, List.forall_mem_cons] at h
      have hshape : Conforms (Var.index base key).shape
          [.nonterminal .prefixExp, .mark .openBracket, .nonterminal .exp, .mark .closeBracket] := by
        refine conforms_node h.1 (conforms_mark .openBracket (by decide) (conforms_node h.2.1 ?_))
        exact conforms_mark .closeBracket (by decide) conforms_nil
      exact hshape.rule (by simp [alternatives])
    | member base n =>
      have hshape : Conforms (Var.member base n).shape [.nonterminal .prefixExp, .mark .dot, .name] := by
        refine conforms_node (h _ List.mem_cons_self) (conforms_mark .dot (by decide) ?_)
        exact conforms_name (Name.isValid_of_fault hf) conforms_nil
      exact hshape.rule (by simp [alternatives])
  | call c =>
    cases c with
    | normal callee args =>
      simp only [Node.children, List.forall_mem_cons] at h
      have hshape : Conforms (Call.normal callee args).shape
          [.nonterminal .prefixExp, .nonterminal .args] := conforms_node h.1 h.2.1
      exact hshape.rule (by simp [alternatives])
    | method object name args =>
      simp only [Node.children, List.forall_mem_cons] at h
      have hshape : Conforms (Call.method object name args).shape
          [.nonterminal .prefixExp, .mark .colon, .name, .nonterminal .args] := by
        refine conforms_node h.1 (conforms_mark .colon (by decide) ?_)
        exact conforms_name (Name.isValid_of_fault hf) h.2.1
      exact hshape.rule (by simp [alternatives])
  | args a =>
    cases a with
    | list values =>
      have hvalues : Conforms [.node (.expList values)] (listForm .expList values) :=
        h _ List.mem_cons_self
      have hclose : Conforms [.text ")"] [.mark .closeParen] :=
        conforms_mark .closeParen (by decide) conforms_nil
      have hshape : Conforms (Args.list values).shape
          [.mark .openParen, .optional [.nonterminal .expList], .mark .closeParen] :=
        conforms_mark .openParen (by decide) (hvalues.optional.append hclose)
      exact hshape.rule (by simp [alternatives])
    | table fields =>
      have hshape : Conforms (Args.table fields).shape [.nonterminal .tableConstructor] :=
        conforms_table fun f hf => h _ (List.mem_map_of_mem hf)
      exact hshape.rule (by simp [alternatives])
    | string lit => exact (conforms_string lit).rule (by simp [alternatives])
  | field f =>
    cases f with
    | positional value =>
      have hshape : Conforms (Field.positional value).shape [.nonterminal .exp] :=
        h _ List.mem_cons_self
      exact hshape.rule (by simp [alternatives])
    | named name value =>
      have hshape : Conforms (Field.named name value).shape
          [.name, .mark .assign, .nonterminal .exp] := by
        refine conforms_name (Name.isValid_of_fault hf) (conforms_assign ?_)
        exact h _ List.mem_cons_self
      exact hshape.rule (by simp [alternatives])
    | keyed key value =>
      simp only [Node.children, List.forall_mem_cons] at h
      have hshape : Conforms (Field.keyed key value).shape
          [.mark .openBracket, .nonterminal .exp, .mark .closeBracket, .mark .assign,
            .nonterminal .exp] := by
        refine conforms_mark .openBracket (by decide) (conforms_node h.1 ?_)
        exact conforms_text lexes_keyEnd (by decide) h.2.1
      exact hshape.rule (by simp [alternatives])
  | table fields => exact conforms_table fun f hf => h _ (List.mem_map_of_mem hf)
  | nameList names => exact conforms_names (isValid_of_firstInvalid hf)
  | expList es =>
    exact conforms_separated (by simp [alternatives]) fun e he => h _ (List.mem_map_of_mem he)
  | varList vs =>
    exact conforms_separated (by simp [alternatives]) fun v hv => h _ (List.mem_map_of_mem hv)
  | name n => exact conforms_name (Name.isValid_of_fault hf) conforms_nil

end

/-- What holds of a tree holds of the tree of a child. -/
theorem Node.DigitsFirst.child {n m : Node} (h : n.DigitsFirst) (hm : m ∈ n.children) : m.DigitsFirst :=
  fun k hk => h k (mem_preorder_of_child hm hk)

/-- A tree in which no node is at fault is laid out as the grammar asks. -/
theorem Node.conforms {n : Node} (hf : ∀ m ∈ n.preorder, m.fault? = none) (hdigit : n.DigitsFirst) :
    Conforms [.node n] n.form := by
  induction n using Node.inductionOn with
  | h n ih =>
    have hchildren : ∀ m ∈ n.children, Conforms [.node m] m.form := fun m hm =>
      ih m hm (fun k hk => hf k (mem_preorder_of_child hm hk)) (hdigit.child hm)
    have hnone := hf n n.self_mem_preorder
    have hshape : Conforms n.shape n.form :=
      conforms_shape hchildren hnone (hdigit n n.self_mem_preorder)
    intro depth
    show (n.layout depth).fault = none ∧ ∃ ts, ReadsAs (n.layout depth).unbroken ts ∧ Derives n.form ts
    rw [layout_of_none hnone]
    exact hshape depth

/-- The same of the layout that a run begins with. -/
theorem Node.conforms_opening {root : Node} (hf : ∀ m ∈ root.preorder, m.fault? = none)
    (hdigit : root.DigitsFirst) : Conforms root.opening root.form := by
  cases root with
  | chunk body =>
    refine conforms_chunk fun s hs => ?_
    have hchild : Node.stat s ∈ (Node.chunk body).children := List.mem_map_of_mem hs
    exact Node.conforms (fun k hk => hf k (mem_preorder_of_child hchild hk)) (hdigit.child hchild)
  | _ => exact Node.conforms hf hdigit

/-- **Whatever is written follows the grammar.** If a tree whose numbers begin with a digit has a text, the
fragments of its run are read as terminals, line breaks apart, and the grammar derives these from the
category of the tree: from `chunk` for a chunk, from `stat` for a statement, from `exp` for an expression. -/
theorem fragments_derivable {root : Node} (hdigit : root.DigitsFirst) {text : String}
    (h : unparse root {} = .ok text) :
    ∃ texts ts, Unparser.fragments ⟨root, {}⟩ = texts.map .ok ∧ text = String.join texts ∧
      readFragments? texts = some ts ∧ Derives root.form ts := by
  have hf : ∀ m ∈ root.preorder, m.fault? = none :=
    List.findSome?_eq_none_iff.mp ((unparse_eq_ok_iff root {}).mp ⟨text, h⟩)
  obtain ⟨hnone, ts, hread, hderives⟩ := Node.conforms_opening hf hdigit 0
  have hfault : root.rootLayout.fault = none := hnone
  refine ⟨root.rootLayout.texts {}, ts, ?_, ?_, ?_, hderives⟩
  · rw [fragments_eq_layout, Layout.fragments, hfault, Option.toList_none, List.map_nil,
      List.append_nil]
  · rw [unparse_eq_layout, Layout.text, hfault] at h
    exact (Except.ok.inj h).symm
  · have hend := hread []
    rw [List.append_nil, readUnbroken?, Option.map_some, List.append_nil] at hend
    exact hend

/-- A literal that holds a quote is three fragments and one terminal. -/
theorem fragments_derivable_quoted :
    unparse (.stat (.ret [.string ⟨"\"", ""⟩, .number ⟨"1", 1⟩])) {} = .ok "return \"\\\"\", 1" ∧
      ∃ texts ts,
        Unparser.fragments ⟨.stat (.ret [.string ⟨"\"", ""⟩, .number ⟨"1", 1⟩]), {}⟩ = texts.map .ok ∧
        "return \"\\\"\", 1" = String.join texts ∧ readFragments? texts = some ts ∧
        Derives [.nonterminal .stat] ts := by
  have hlayout : (Node.stat (.ret [.string ⟨"\"", ""⟩, .number ⟨"1", 1⟩])).rootLayout =
      ⟨[.text "return", .text " ", .text "\"", .text "\\\"", .text "\"", .text ", ", .text "1"],
        none⟩ := by decide +kernel
  have htext : unparse (.stat (.ret [.string ⟨"\"", ""⟩, .number ⟨"1", 1⟩])) {} =
      .ok "return \"\\\"\", 1" := by
    rw [unparse_eq_layout, hlayout]
    rfl
  have hdigit : (Node.stat (.ret [.string ⟨"\"", ""⟩, .number ⟨"1", 1⟩])).DigitsFirst := by
    decide +kernel
  exact ⟨htext, fragments_derivable hdigit htext⟩

end LuaUnparse
