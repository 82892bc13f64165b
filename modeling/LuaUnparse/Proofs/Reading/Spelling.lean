import LuaUnparse.Proofs.Reading.Lexing

/-!
# `LuaUnparse.Proofs.Reading.Spelling` — the tokens of a tree

Each construct has its tokens, given here by recursion on the tree, and the layout of a tree with plain
numbers in which no node is at fault spells exactly them.

## Contents
- **Tokens.** A `tokens` for each type of the tree, and `Node.tokens` for all of them.
- **Pieces.** `Writes`, the tokens that pieces are laid out as, and its rules.
- **Trees.** `Node.writes`: the layout of a node spells its tokens.
-/

namespace LuaUnparse

/-! ## Tokens -/

/-- The names after the first one in a list. -/
def moreNames (names : List Name) : List Token :=
  names.flatMap fun n => [.symbol .comma, .name n]

/-- Names with commas between them. -/
def namesTokens : List Name → List Token
  | [] => []
  | n :: rest => .name n :: moreNames rest

/-- The fields of a function name. -/
def indexersTokens (indexers : List Name) : List Token :=
  indexers.flatMap fun n => [.symbol .dot, .name n]

/-- The method of a function name. -/
def methodTokens : Option Name → List Token
  | some n => [.symbol .colon, .name n]
  | none => []

/-- The tokens of a function name. -/
def FuncName.tokens (name : FuncName) : List Token :=
  .name name.base :: (indexersTokens name.indexers ++ methodTokens name.method)

/-- What closes a parameter list: the dots, after a comma unless there are no names, and a parenthesis. -/
def ParList.closing (params : ParList) : List Token :=
  if !params.vararg then [.symbol .closeParen]
  else if params.names.isEmpty then [.symbol .ellipsis, .symbol .closeParen]
  else [.symbol .comma, .symbol .ellipsis, .symbol .closeParen]

/-- The tokens of a parameter list. -/
def ParList.tokens (params : ParList) : List Token :=
  .symbol .openParen :: (namesTokens params.names ++ params.closing)

/-- What closes a construct with a block. -/
def endTokens : List Token :=
  [.lineEnd, .keyword .end]

/-- Table entries in their braces, the closing one on a line of its own unless there are none. -/
def braced (fields : List Field) (entries : List Token) : List Token :=
  .symbol .openBrace ::
    (entries ++ if fields.isEmpty then [.symbol .closeBrace] else [.lineEnd, .symbol .closeBrace])

mutual

/-- The tokens of a statement. -/
def Stat.tokens : Stat → List Token
  | .function name body => .keyword .function :: (name.tokens ++ (body.tokens ++ endTokens))
  | .localFunction name body =>
    .keyword .local :: .keyword .function :: .name name :: (body.tokens ++ endTokens)
  | .ifThen condition body elseIfs none =>
    .keyword .if :: (condition.tokens ++ .keyword .then :: (Stat.tokensAll body ++
      (ElseIf.tokensAll elseIfs ++ endTokens)))
  | .ifThen condition body elseIfs (some elseBody) =>
    .keyword .if :: (condition.tokens ++ .keyword .then :: (Stat.tokensAll body ++
      (ElseIf.tokensAll elseIfs ++ .lineEnd :: .keyword .else :: (Stat.tokensAll elseBody ++ endTokens))))
  | .numericFor var start stop none body =>
    .keyword .for :: .name var :: .symbol .assign :: (start.tokens ++ .symbol .comma :: (stop.tokens ++
      .keyword .do :: (Stat.tokensAll body ++ endTokens)))
  | .numericFor var start stop (some step) body =>
    .keyword .for :: .name var :: .symbol .assign :: (start.tokens ++ .symbol .comma :: (stop.tokens ++
      .symbol .comma :: (step.tokens ++ .keyword .do :: (Stat.tokensAll body ++ endTokens))))
  | .genericFor names values body =>
    .keyword .for :: (namesTokens names ++ .keyword .in :: (Exp.tokensAll values ++
      .keyword .do :: (Stat.tokensAll body ++ endTokens)))
  | .call c => c.tokens
  | .ret values => .keyword .return :: Exp.tokensAll values
  | .localVars names none => .keyword .local :: namesTokens names
  | .localVars names (some []) => .keyword .local :: namesTokens names
  | .localVars names (some (value :: values)) =>
    .keyword .local :: (namesTokens names ++ .symbol .assign :: (value.tokens ++ Exp.tokensMore values))
  | .assign targets values => Var.tokensAll targets ++ .symbol .assign :: Exp.tokensAll values
  | .block body => .keyword .do :: (Stat.tokensAll body ++ endTokens)
  | .repeatUntil body condition =>
    .keyword .repeat :: (Stat.tokensAll body ++ .lineEnd :: .keyword .until :: condition.tokens)
  | .whileDo condition body =>
    .keyword .while :: (condition.tokens ++ .keyword .do :: (Stat.tokensAll body ++ endTokens))
  | .breakLoop => [.keyword .break]

/-- The tokens of an `elseif`. -/
def ElseIf.tokens : ElseIf → List Token
  | .mk condition body =>
    .keyword .elseif :: (condition.tokens ++ .keyword .then :: Stat.tokensAll body)

/-- The tokens of a function body. -/
def FuncBody.tokens : FuncBody → List Token
  | .mk params body => params.tokens ++ Stat.tokensAll body

/-- The tokens of an expression. -/
def Exp.tokens : Exp → List Token
  | .nil => [.keyword .nil]
  | .bool true => [.keyword .true]
  | .bool false => [.keyword .false]
  | .vararg => [.symbol .ellipsis]
  | .number lit => [.number lit.raw]
  | .string lit => [.string lit.value]
  | .unary op operand => op.token :: operand.tokens
  | .binary left op right => left.tokens ++ op.token :: right.tokens
  | .function body => .keyword .function :: (body.tokens ++ endTokens)
  | .paren inner => .symbol .openParen :: (inner.tokens ++ [.symbol .closeParen])
  | .table fields => braced fields (Field.tokensAll fields)
  | .prefixed inner => inner.tokens

/-- The tokens of an expression that may be called or indexed. -/
def PrefixExp.tokens : PrefixExp → List Token
  | .var v => v.tokens
  | .call c => c.tokens
  | .paren inner => .symbol .openParen :: (inner.tokens ++ [.symbol .closeParen])

/-- The tokens of a variable. -/
def Var.tokens : Var → List Token
  | .name n => [.name n]
  | .index base key => base.tokens ++ .symbol .openBracket :: (key.tokens ++ [.symbol .closeBracket])
  | .member base n => base.tokens ++ [.symbol .dot, .name n]

/-- The tokens of a call. -/
def Call.tokens : Call → List Token
  | .normal callee args => callee.tokens ++ args.tokens
  | .method object name args => object.tokens ++ .symbol .colon :: .name name :: args.tokens

/-- The tokens of the arguments of a call. -/
def Args.tokens : Args → List Token
  | .list values => .symbol .openParen :: (Exp.tokensAll values ++ [.symbol .closeParen])
  | .table fields => braced fields (Field.tokensAll fields)
  | .string lit => [.string lit.value]

/-- The tokens of a table entry. -/
def Field.tokens : Field → List Token
  | .positional value => value.tokens
  | .named name value => .name name :: .symbol .assign :: value.tokens
  | .keyed key value =>
    .symbol .openBracket :: (key.tokens ++ .symbol .closeBracket :: .symbol .assign :: value.tokens)

/-- The tokens of a chunk. -/
def Stat.tokensAll : List Stat → List Token
  | [] => []
  | stat :: rest => .lineEnd :: (stat.tokens ++ Stat.tokensAll rest)

/-- The tokens of the `elseif`s of a conditional. -/
def ElseIf.tokensAll : List ElseIf → List Token
  | [] => []
  | clause :: rest => .lineEnd :: (clause.tokens ++ ElseIf.tokensAll rest)

/-- The tokens of an expression list. -/
def Exp.tokensAll : List Exp → List Token
  | [] => []
  | exp :: rest => exp.tokens ++ Exp.tokensMore rest

/-- The tokens of the expressions after the first one in a list. -/
def Exp.tokensMore : List Exp → List Token
  | [] => []
  | exp :: rest => .symbol .comma :: (exp.tokens ++ Exp.tokensMore rest)

/-- The tokens of a list of variables. -/
def Var.tokensAll : List Var → List Token
  | [] => []
  | var :: rest => var.tokens ++ Var.tokensMore rest

/-- The tokens of the variables after the first one in a list. -/
def Var.tokensMore : List Var → List Token
  | [] => []
  | var :: rest => .symbol .comma :: (var.tokens ++ Var.tokensMore rest)

/-- The tokens of the entries of a table. -/
def Field.tokensAll : List Field → List Token
  | [] => []
  | field :: rest => .lineEnd :: (field.tokens ++ .symbol .comma :: Field.tokensAll rest)

end

/-- The tokens of a node. -/
def Node.tokens : Node → List Token
  | .chunk b => Stat.tokensAll b
  | .stat s => s.tokens
  | .elseIf c => c.tokens
  | .funcBody b => b.tokens
  | .funcName n => n.tokens
  | .parList p => p.tokens
  | .exp e => e.tokens
  | .prefixExp e => e.tokens
  | .var v => v.tokens
  | .call c => c.tokens
  | .args a => a.tokens
  | .field f => f.tokens
  | .table fs => braced fs (Field.tokensAll fs)
  | .nameList ns => namesTokens ns
  | .expList es => Exp.tokensAll es
  | .varList vs => Var.tokensAll vs
  | .name n => [.name n]

/-! ## Pieces -/

/-- The pieces are laid out without a fault, and spell the tokens. -/
def Writes (ps : List Piece) (ts : List Token) : Prop :=
  ∀ depth, (layoutPieces depth ps).fault = none ∧ Spells (layoutPieces depth ps).items ts

theorem writes_nil : Writes [] [] := by
  intro depth
  rw [layoutPieces]
  exact ⟨rfl, .nil⟩

theorem Writes.append {ps qs : List Piece} {ts us : List Token} (h : Writes ps ts) (hs : Writes qs us) :
    Writes (ps ++ qs) (ts ++ us) := by
  intro depth
  obtain ⟨hnone, hspells⟩ := h depth
  obtain ⟨hnone', hspells'⟩ := hs (depthAfter depth ps)
  rw [layoutPieces_append]
  refine ⟨by rw [Layout.append_fault, hnone, hnone']; rfl, ?_⟩
  generalize layoutPieces depth ps = first at hnone hspells ⊢
  obtain ⟨items, fault⟩ := first
  cases hnone
  exact hspells.append hspells'

section

variable {ps : List Piece} {ts us : List Token}

theorem writes_text {t : String} (ht : Lexes t us) (h : Writes ps ts) :
    Writes (.text t :: ps) (us ++ ts) := by
  intro depth
  obtain ⟨hnone, hspells⟩ := h depth
  rw [layoutPieces]
  split
  · next hempty =>
    -- the empty text has no tokens
    have hus := ht [] (by rintro c ⟨⟩)
    rw [String.isEmpty_iff.mp hempty, List.append_nil] at hus
    simp [lex?_nil] at hus
    subst hus
    exact ⟨hnone, hspells⟩
  · exact ⟨hnone, .text ht hspells⟩

theorem writes_lineBreak (h : Writes ps ts) : Writes (.lineBreak :: ps) (.lineEnd :: ts) := by
  intro depth
  rw [layoutPieces]
  exact ⟨(h depth).1, .lineBreak depth (h depth).2⟩

theorem writes_indent (h : Writes ps ts) : Writes (.indent :: ps) ts := by
  intro depth
  rw [layoutPieces]
  exact h (depth + 1)

theorem writes_dedent (h : Writes ps ts) : Writes (.dedent :: ps) ts := by
  intro depth
  rw [layoutPieces]
  exact h (depth - 1)

theorem writes_node {n : Node} (hn : Writes [.node n] us) (h : Writes ps ts) :
    Writes (.node n :: ps) (us ++ ts) :=
  hn.append h

theorem writes_keyword (k : Keyword) (h : Writes ps ts) :
    Writes (.text k.spelling :: ps) (.keyword k :: ts) :=
  writes_text (lexes_keyword k) h

theorem writes_symbol (s : Symbol) (hs : s ∈ Symbol.all) (h : Writes ps ts) :
    Writes (.text s.spelling :: ps) (.symbol s :: ts) :=
  writes_text (lexes_symbol s hs) h

theorem writes_name {name : Name} (hv : name.isValid = true) (h : Writes ps ts) :
    Writes (.text name :: ps) (.name name :: ts) :=
  writes_text (lexes_name hv) h

theorem layoutPieces_string (lit : StringLit) (depth : Nat) :
    layoutPieces depth lit.shape = ⟨quotedItems lit.value, none⟩ := by
  simp only [StringLit.shape, layoutPieces, quotedItems]
  by_cases hempty : Quoted.escape lit.value = ""
  · simp [hempty, Layout.cons, Layout.empty]
  · simp [hempty, Layout.cons, Layout.empty]

theorem writes_string (lit : StringLit) : Writes lit.shape [.string lit.value] := by
  intro depth
  rw [layoutPieces_string, ← List.append_nil (quotedItems lit.value)]
  exact ⟨rfl, .string lit.value .nil⟩

/-- Parts one after the other. -/
theorem writes_flatMap {Part : Type} {f : Part → List Piece} {g : Part → List Token}
    {all : List Part → List Token} (hnil : all [] = []) (hcons : ∀ a as, all (a :: as) = g a ++ all as)
    {parts : List Part} (h : ∀ a ∈ parts, Writes (f a) (g a)) : Writes (parts.flatMap f) (all parts) := by
  induction parts with
  | nil =>
    rw [hnil]
    exact writes_nil
  | cons a rest ih =>
    rw [List.forall_mem_cons] at h
    rw [hcons, List.flatMap_cons]
    exact h.1.append (ih h.2)

end

/-! ## Trees -/

theorem lexes_then : Lexes " then" [.keyword .then] :=
  (lexes_keyword .then).blank_before (by decide)

theorem lexes_do : Lexes " do" [.keyword .do] :=
  (lexes_keyword .do).blank_before (by decide)

theorem lexes_in : Lexes " in " [.keyword .in] :=
  ((lexes_keyword .in).blank_before (by decide)).blank_after

theorem lexes_assign : Lexes " = " [.symbol .assign] :=
  ((lexes_symbol .assign (by decide)).blank_before (by decide)).blank_after

theorem lexes_comma : Lexes ", " [.symbol .comma] :=
  (lexes_symbol .comma (by decide)).blank_after

theorem lexes_localFunction : Lexes "local function " [.keyword .local, .keyword .function] :=
  (lexes_keyword .local).blank_after.append (lexes_keyword .function).blank_after (by decide)

theorem lexes_moreDots : Lexes ", ..." [.symbol .comma, .symbol .ellipsis] :=
  lexes_comma.append (lexes_symbol .ellipsis (by decide)) (by decide)

theorem lexes_keyEnd : Lexes "] = " [.symbol .closeBracket, .symbol .assign] :=
  (lexes_symbol .closeBracket (by decide)).append lexes_assign (by decide)

theorem lexes_noEntries : Lexes "\x7b\x7d" [.symbol .openBrace, .symbol .closeBrace] :=
  (lexes_symbol .openBrace (by decide)).append (lexes_symbol .closeBrace (by decide))
    (by decide)

theorem lexes_unOp (op : UnOp) : Lexes op.spelling [op.token] := by
  cases op with
  | not => exact lexes_keyword .not
  | negate => exact lexes_symbol (.op .sub) (by decide)
  | length => exact lexes_symbol .hash (by decide)
  | bitNot => exact lexes_symbol (.op .bitXor) (by decide)

theorem lexes_binOp (op : BinOp) : Lexes op.spelling [op.token] := by
  by_cases hor : op = .or
  · exact hor ▸ lexes_keyword .or
  by_cases hand : op = .and
  · exact hand ▸ lexes_keyword .and
  have hmark : op.token = .symbol (.op op) ∧ .op op ∈ Symbol.all := by
    cases op <;> first | decide | contradiction
  rw [hmark.1]
  exact lexes_symbol (.op op) hmark.2

/-- Parts with commas between them. -/
theorem writes_separated {Part : Type} {f : Part → Piece} {g : Part → List Token}
    {all more : List Part → List Token} (hnil : all [] = []) (hcons : ∀ a as, all (a :: as) = g a ++ more as)
    (hend : more [] = []) (hmore : ∀ a as, more (a :: as) = .symbol .comma :: g a ++ more as)
    {parts : List Part} (h : ∀ a ∈ parts, Writes [f a] (g a)) :
    Writes (separated (parts.map f)) (all parts) := by
  cases parts with
  | nil =>
    rw [hnil]
    exact writes_nil
  | cons a parts =>
    rw [List.forall_mem_cons] at h
    have hrest : Writes (parts.flatMap fun b => [.text ", ", f b]) (more parts) :=
      writes_flatMap hend hmore fun b hb => writes_text lexes_comma (h.2 b hb)
    rw [hcons, List.map_cons, separated_cons, List.flatMap_map]
    exact h.1.append hrest

theorem writes_names {names : List Name} (hv : ∀ n ∈ names, n.isValid = true) :
    Writes (namesShape names) (namesTokens names) :=
  writes_separated rfl (fun _ _ => rfl) rfl (fun _ _ => rfl) fun n hn => writes_name (hv n hn) writes_nil

theorem writes_exps {es : List Exp} (h : ∀ e ∈ es, Writes [.node (.exp e)] e.tokens) :
    Writes (expsShape es) (Exp.tokensAll es) :=
  writes_separated rfl (fun _ _ => rfl) rfl (fun _ _ => rfl) h

theorem writes_vars {vs : List Var} (h : ∀ v ∈ vs, Writes [.node (.var v)] v.tokens) :
    Writes (varsShape vs) (Var.tokensAll vs) :=
  writes_separated rfl (fun _ _ => rfl) rfl (fun _ _ => rfl) h

theorem writes_chunk {body : Chunk} (h : ∀ s ∈ body, Writes [.node (.stat s)] s.tokens) :
    Writes (Chunk.lines body) (Stat.tokensAll body) :=
  writes_flatMap (g := fun s => .lineEnd :: s.tokens) rfl (fun _ _ => rfl)
    fun s hs => writes_lineBreak (h s hs)

theorem writes_table {fields : List Field} (h : ∀ f ∈ fields, Writes [.node (.field f)] f.tokens) :
    Writes (tableShape fields) (braced fields (Field.tokensAll fields)) := by
  unfold tableShape braced
  cases fields with
  | nil => exact writes_text lexes_noEntries writes_nil
  | cons f fields =>
    have hentries : Writes ((f :: fields).flatMap fun f => [.lineBreak, .node (.field f), .text ","])
        (Field.tokensAll (f :: fields)) := by
      refine writes_flatMap (g := fun f => .lineEnd :: (f.tokens ++ [.symbol .comma])) rfl
        (fun _ _ => by simp [Field.tokensAll]) fun f hf => writes_lineBreak (writes_node (h f hf) ?_)
      exact writes_symbol .comma (by decide) writes_nil
    refine writes_symbol .openBrace (by decide) (writes_indent (hentries.append ?_))
    exact writes_dedent (writes_lineBreak (writes_symbol .closeBrace (by decide) writes_nil))

theorem writes_end : Writes [.lineBreak, .text "end"] endTokens :=
  writes_lineBreak (writes_keyword .end writes_nil)

theorem writes_bodyAndEnd {body : Chunk} (h : Writes [.node (.chunk body)] (Stat.tokensAll body)) :
    Writes (bodyAndEnd body) (Stat.tokensAll body ++ endTokens) :=
  writes_node h writes_end

theorem writes_stat {s : Stat} (h : ∀ m ∈ s.children, Writes [.node m] m.tokens)
    (hf : s.fault? = none) : Writes s.shape s.tokens := by
  cases s with
  | function name body =>
    simp only [Stat.children, List.forall_mem_cons] at h
    refine writes_text (lexes_keyword .function).blank_after (writes_node h.1 (writes_node h.2.1 ?_))
    exact writes_end
  | localFunction name body =>
    simp only [Stat.children, List.forall_mem_cons] at h
    refine writes_text lexes_localFunction (writes_name (Name.isValid_of_fault hf) ?_)
    exact writes_node h.1 writes_end
  | ifThen condition body elseIfs elseBody =>
    simp only [Stat.children, List.cons_append, List.forall_mem_cons, List.forall_mem_append,
      List.forall_mem_map] at h
    obtain ⟨hcondition, hbody, hclauses, helse⟩ := h
    have hlines : Writes (elseIfs.flatMap fun clause => [.lineBreak, .node (.elseIf clause)])
        (ElseIf.tokensAll elseIfs) := by
      refine writes_flatMap (g := fun clause => .lineEnd :: clause.tokens) rfl (fun _ _ => rfl) ?_
      exact fun clause hc => writes_lineBreak (hclauses clause hc)
    simp only [Stat.shape, List.cons_append, List.nil_append, List.append_assoc]
    cases elseBody with
    | none =>
      refine writes_text (lexes_keyword .if).blank_after (writes_node hcondition ?_)
      exact writes_text lexes_then (writes_node hbody (hlines.append writes_end))
    | some elseBody =>
      refine writes_text (lexes_keyword .if).blank_after (writes_node hcondition ?_)
      refine writes_text lexes_then (writes_node hbody (hlines.append (writes_lineBreak ?_)))
      exact writes_keyword .else (writes_node (helse elseBody (by simp)) writes_end)
  | numericFor var start stop step body =>
    simp only [Stat.children, List.cons_append, List.forall_mem_cons, List.forall_mem_append,
      List.forall_mem_map] at h
    obtain ⟨hstart, hstop, hstep, hbody, -⟩ := h
    -- the step comes between the same beginning and the same end
    have hlead : ∀ {ps ts}, Writes ps ts →
        Writes (.text "for " :: .text var :: .text " = " :: .node (.exp start) :: .text ", " ::
          .node (.exp stop) :: ps)
          (.keyword .for :: .name var :: .symbol .assign :: (start.tokens ++ .symbol .comma ::
            (stop.tokens ++ ts))) := fun hrest => by
      refine writes_text (lexes_keyword .for).blank_after (writes_name (Name.isValid_of_fault hf) ?_)
      exact writes_text lexes_assign (writes_node hstart (writes_text lexes_comma
        (writes_node hstop hrest)))
    have hloop : Writes (.text " do" :: bodyAndEnd body)
        (.keyword .do :: (Stat.tokensAll body ++ endTokens)) :=
      writes_text lexes_do (writes_bodyAndEnd hbody)
    cases step with
    | none => exact hlead hloop
    | some step => exact hlead (writes_text lexes_comma (writes_node (hstep step (by simp)) hloop))
  | genericFor names values body =>
    simp only [Stat.children, List.forall_mem_cons] at h
    obtain ⟨hnames, hvalues, hbody, -⟩ := h
    refine writes_text (lexes_keyword .for).blank_after (writes_node hnames (writes_text lexes_in ?_))
    exact writes_node hvalues (writes_text lexes_do (writes_bodyAndEnd hbody))
  | call c => exact h _ List.mem_cons_self
  | ret values =>
    cases values with
    | nil => exact writes_keyword .return writes_nil
    | cons value values =>
      have hvalues := h (.expList (value :: values)) (by simp [Stat.children, valuesChildren])
      have hblank := writes_text lexes_blank hvalues
      exact writes_keyword .return hblank
  | localVars names values =>
    simp only [Stat.children, List.forall_mem_cons] at h
    have hlead : ∀ {ps ts}, Writes ps ts → Writes (.text "local " :: .node (.nameList names) :: ps)
        (.keyword .local :: (namesTokens names ++ ts)) := fun hrest =>
      writes_text (lexes_keyword .local).blank_after (writes_node h.1 hrest)
    have hnone := hlead writes_nil
    rw [List.append_nil] at hnone
    rcases values with _ | _ | ⟨value, values⟩
    · exact hnone
    · exact hnone
    · refine hlead (writes_text lexes_assign ?_)
      exact h.2 (.expList (value :: values)) (by simp [valuesChildren])
  | assign targets values =>
    simp only [Stat.children, List.forall_mem_cons] at h
    exact writes_node h.1 (writes_text lexes_assign h.2.1)
  | block body => exact writes_keyword .do (writes_bodyAndEnd (h _ List.mem_cons_self))
  | repeatUntil body condition =>
    simp only [Stat.children, List.forall_mem_cons] at h
    refine writes_keyword .repeat (writes_node h.1 (writes_lineBreak ?_))
    exact writes_text (lexes_keyword .until).blank_after h.2.1
  | whileDo condition body =>
    simp only [Stat.children, List.forall_mem_cons] at h
    refine writes_text (lexes_keyword .while).blank_after (writes_node h.1 (writes_text lexes_do ?_))
    exact writes_bodyAndEnd h.2.1
  | breakLoop => exact writes_keyword .break writes_nil

theorem writes_exp {e : Exp} (h : ∀ m ∈ e.children, Writes [.node m] m.tokens)
    (hnum : ∀ lit, e = .number lit → lit.isPlain = true) : Writes e.shape e.tokens := by
  cases e with
  | nil => exact writes_keyword .nil writes_nil
  | bool value =>
    cases value with
    | true => exact writes_keyword .true writes_nil
    | false => exact writes_keyword .false writes_nil
  | vararg => exact writes_symbol .ellipsis (by decide) writes_nil
  | number lit => exact writes_text (lexes_number (hnum lit rfl)) writes_nil
  | string lit => exact writes_string lit
  | unary op operand =>
    -- a blank after the operator is no token
    have hgap : Writes (unaryGap op operand ++ [Piece.node (.exp operand)]) operand.tokens := by
      unfold unaryGap
      split
      · exact writes_text lexes_blank (h _ List.mem_cons_self)
      · exact h _ List.mem_cons_self
    exact writes_text (lexes_unOp op) hgap
  | binary left op right =>
    simp only [Exp.children, List.forall_mem_cons] at h
    refine writes_node h.1 (writes_text lexes_blank (writes_text (lexes_binOp op) ?_))
    exact writes_text lexes_blank h.2.1
  | function body => exact writes_keyword .function (writes_node (h _ List.mem_cons_self) writes_end)
  | paren inner =>
    refine writes_symbol .openParen (by decide) (writes_node (h _ List.mem_cons_self) ?_)
    exact writes_symbol .closeParen (by decide) writes_nil
  | table fields => exact writes_table fun f hf => h _ (List.mem_map_of_mem hf)
  | prefixed inner => exact h _ List.mem_cons_self

theorem writes_funcName {name : FuncName} (hv : ∀ n ∈ name.names, n.isValid = true) :
    Writes name.shape name.tokens := by
  obtain ⟨base, indexers, method⟩ := name
  simp only [FuncName.names, List.forall_mem_append, List.cons_append, List.forall_mem_cons] at hv
  obtain ⟨hbase, hindexers, hmethod⟩ := hv
  refine writes_name hbase (Writes.append ?_ ?_)
  · refine writes_flatMap rfl (fun _ _ => rfl) fun n hn => ?_
    exact writes_symbol .dot (by decide) (writes_name (hindexers n hn) writes_nil)
  · cases method with
    | none => exact writes_nil
    | some n => exact writes_symbol .colon (by decide) (writes_name (hmethod n (by simp)) writes_nil)

theorem writes_parList {params : ParList} (hv : ∀ n ∈ params.names, n.isValid = true) :
    Writes params.shape params.tokens := by
  have hclose : Writes [.text ")"] [.symbol .closeParen] := writes_symbol .closeParen (by decide) writes_nil
  obtain ⟨names, vararg⟩ := params
  simp only [ParList.shape, List.cons_append, List.append_assoc]
  refine writes_symbol .openParen (by decide) ((writes_names hv).append ?_)
  cases vararg with
  | false => exact hclose
  | true =>
    cases names with
    | nil => exact writes_symbol .ellipsis (by decide) hclose
    | cons n names => exact writes_text lexes_moreDots hclose

/-- What a node at which there is no fault is laid out as. -/
theorem writes_shape {n : Node} (h : ∀ m ∈ n.children, Writes [.node m] m.tokens)
    (hf : n.fault? = none) (hnum : n.NumbersPlain) : Writes n.shape n.tokens := by
  cases n with
  | chunk body =>
    have hlines : Writes (Chunk.lines body) (Stat.tokensAll body) :=
      writes_chunk fun s hs => h _ (List.mem_map_of_mem hs)
    have hshape := (writes_indent hlines).append (writes_dedent writes_nil)
    rw [List.append_nil] at hshape
    exact hshape
  | stat s => exact writes_stat h hf
  | elseIf c =>
    obtain ⟨condition, body⟩ := c
    simp only [Node.children, List.forall_mem_cons] at h
    refine writes_text (lexes_keyword .elseif).blank_after (writes_node h.1 ?_)
    exact writes_text lexes_then h.2.1
  | funcBody b =>
    obtain ⟨params, body⟩ := b
    simp only [Node.children, List.forall_mem_cons] at h
    exact writes_node h.1 h.2.1
  | funcName name => exact writes_funcName (isValid_of_firstInvalid hf)
  | parList params => exact writes_parList (isValid_of_firstInvalid hf)
  | exp e => exact writes_exp h fun lit he => hnum lit (he ▸ Node.self_mem_preorder _)
  | prefixExp e =>
    cases e with
    | var v => exact h _ List.mem_cons_self
    | call c => exact h _ List.mem_cons_self
    | paren inner =>
      refine writes_symbol .openParen (by decide) (writes_node (h _ List.mem_cons_self) ?_)
      exact writes_symbol .closeParen (by decide) writes_nil
  | var v =>
    cases v with
    | name n => exact writes_name (Name.isValid_of_fault hf) writes_nil
    | index base key =>
      simp only [Node.children, List.forall_mem_cons] at h
      refine writes_node h.1 (writes_symbol .openBracket (by decide) (writes_node h.2.1 ?_))
      exact writes_symbol .closeBracket (by decide) writes_nil
    | member base n =>
      refine writes_node (h _ List.mem_cons_self) (writes_symbol .dot (by decide) ?_)
      exact writes_name (Name.isValid_of_fault hf) writes_nil
  | call c =>
    cases c with
    | normal callee args =>
      simp only [Node.children, List.forall_mem_cons] at h
      exact writes_node h.1 h.2.1
    | method object name args =>
      simp only [Node.children, List.forall_mem_cons] at h
      refine writes_node h.1 (writes_symbol .colon (by decide) ?_)
      exact writes_name (Name.isValid_of_fault hf) h.2.1
  | args a =>
    cases a with
    | list values =>
      refine writes_symbol .openParen (by decide) (writes_node (h _ List.mem_cons_self) ?_)
      exact writes_symbol .closeParen (by decide) writes_nil
    | table fields => exact writes_table fun f hf => h _ (List.mem_map_of_mem hf)
    | string lit => exact writes_string lit
  | field f =>
    cases f with
    | positional value => exact h _ List.mem_cons_self
    | named name value =>
      refine writes_name (Name.isValid_of_fault hf) (writes_text lexes_assign ?_)
      exact h _ List.mem_cons_self
    | keyed key value =>
      simp only [Node.children, List.forall_mem_cons] at h
      refine writes_symbol .openBracket (by decide) (writes_node h.1 ?_)
      exact writes_text lexes_keyEnd h.2.1
  | table fields => exact writes_table fun f hf => h _ (List.mem_map_of_mem hf)
  | nameList names => exact writes_names (isValid_of_firstInvalid hf)
  | expList es => exact writes_exps fun e he => h _ (List.mem_map_of_mem he)
  | varList vs => exact writes_vars fun v hv => h _ (List.mem_map_of_mem hv)
  | name n => exact writes_name (Name.isValid_of_fault hf) writes_nil

/-- **The layout of a tree with plain numbers spells its tokens**, if no node of it is at fault. -/
theorem Node.writes {n : Node} (hf : ∀ m ∈ n.preorder, m.fault? = none) (hnum : n.NumbersPlain) :
    Writes [.node n] n.tokens := by
  induction n using Node.inductionOn with
  | h n ih =>
    have hchildren : ∀ m ∈ n.children, Writes [.node m] m.tokens := fun m hm =>
      ih m hm (fun k hk => hf k (mem_preorder_of_child hm hk)) (hnum.child hm)
    have hnone := hf n n.self_mem_preorder
    have hshape := writes_shape hchildren hnone hnum
    intro depth
    show (n.layout depth).fault = none ∧ Spells (n.layout depth).items n.tokens
    rw [layout_of_none hnone]
    exact hshape depth

/-- The same of the layout that a run begins with. -/
theorem Node.writes_opening {root : Node} (hf : ∀ m ∈ root.preorder, m.fault? = none)
    (hnum : root.NumbersPlain) : Writes root.opening root.tokens := by
  cases root with
  | chunk body =>
    refine writes_chunk fun s hs => ?_
    have hchild : Node.stat s ∈ (Node.chunk body).children := List.mem_map_of_mem hs
    exact Node.writes (fun k hk => hf k (mem_preorder_of_child hchild hk)) (hnum.child hchild)
  | _ => exact Node.writes hf hnum

/-- Plain numbers are spelled as numbers. -/
theorem Node.NumbersPlain.numbersSpelled {n : Node} (h : n.NumbersPlain) : n.NumbersSpelled := by
  intro lit hlit _
  have hplain : lit.isPlain = true := h lit hlit
  rw [NumberLit.isPlain, Bool.and_eq_true] at hplain
  cases hraw : lit.raw.toList with
  | nil => simp [hraw] at hplain
  | cons c rest =>
    rw [hraw, List.head?_cons, Option.any_some] at hplain
    exact ⟨[], c, rest, rfl, .inl rfl, by rw [hplain.1, Bool.true_or]⟩

/-- **The text of a tree with plain numbers is cut into its tokens.** -/
theorem lex?_of_unparse {root : Node} (hnum : root.NumbersPlain) {text : String}
    (h : unparse root {} = .ok text) : lex? text.toList = some root.tokens := by
  have hf : ∀ m ∈ root.preorder, m.fault? = none :=
    List.findSome?_eq_none_iff.mp ((unparse_eq_ok_iff root {}).mp ⟨text, h⟩)
  obtain ⟨hnone, hspells⟩ := Node.writes_opening hf hnum 0
  rw [unparse_eq_layout, Layout.text, Node.rootLayout, hnone] at h
  have htext : text.toList = ({} : Style).chars root.rootLayout.items := by
    rw [← Except.ok.inj h, String.toList_join, Layout.texts, List.flatMap_map]
    rfl
  rw [htext]
  exact lex?_of_spells hspells (seamless_rootLayout hnum.numbersSpelled)

end LuaUnparse
