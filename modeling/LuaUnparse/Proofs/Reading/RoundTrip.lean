import LuaUnparse.Proofs.Reading.Rules

/-!
# `LuaUnparse.Proofs.Reading.RoundTrip` — the tokens of a tree are read back

A canonical tree in which no node is at fault is read back from its tokens, up to what they do not tell.
What comes after a construct must not be mistaken for more of it, and the constructs around it see to that.
An expression that may be called or indexed is written inside out: its innermost part is read first, and
what follows that part depends on the whole. So of such an expression it is said that whatever is read from
it on is read from its beginning.

## Contents
- **First tokens.** `Node.Starts`: what an expression begins with.
- **Nodes.** `Node.ReadsBack`, for a node of each category, and a lemma for each that follows from its
  children.
- **Trees.** `Node.readsBack`, by induction.
-/

namespace LuaUnparse

/-! ## First tokens -/

theorem startsWith_mono {p q : Token → Bool} {ts : List Token} (h : startsWith p ts = true)
    (hpq : ∀ t, p t = true → q t = true) : startsWith q ts = true := by
  obtain ⟨t, ts, rfl, ht⟩ := exists_of_startsWith h
  exact hpq t ht

theorem Token.startsExp_of_startsPrefix {t : Token} (h : t.startsPrefix = true) :
    t.startsExp = true ∧ t.unOp?.isNone = true := by
  cases t with
  | name n => exact ⟨rfl, rfl⟩
  | symbol s => cases s <;> first | exact ⟨rfl, rfl⟩ | exact absurd h (by simp [startsPrefix])
  | _ => exact absurd h (by simp [startsPrefix])

/-- What the first token of a node is like, where it matters. -/
def Node.Starts : Node → Prop
  | .exp e => startsWith Token.startsExp e.tokens = true ∧
      (e.isOperation = false → startsWith (fun t => t.unOp?.isNone) e.tokens = true)
  | .prefixExp e => startsWith Token.startsPrefix e.tokens = true
  | .var v => startsWith Token.startsPrefix v.tokens = true
  | .call c => startsWith Token.startsPrefix c.tokens = true
  | _ => True

theorem Node.starts (n : Node) : n.Starts := by
  induction n using Node.inductionOn with
  | h n ih =>
    cases n with
    | exp e =>
      cases e with
      | bool value => cases value <;> exact ⟨rfl, fun _ => rfl⟩
      | unary op operand => exact ⟨by cases op <;> rfl, fun h => absurd h (by simp [Exp.isOperation])⟩
      | binary left op right =>
        have hleft : (Node.exp left).Starts := ih _ List.mem_cons_self
        exact ⟨startsWith_append hleft.1 _, fun h => absurd h (by simp [Exp.isOperation])⟩
      | prefixed inner =>
        have hinner : startsWith Token.startsPrefix inner.tokens = true :=
          ih (.prefixExp inner) List.mem_cons_self
        exact ⟨startsWith_mono hinner fun t ht => (Token.startsExp_of_startsPrefix ht).1,
          fun _ => startsWith_mono hinner fun t ht => (Token.startsExp_of_startsPrefix ht).2⟩
      | _ => exact ⟨rfl, fun _ => rfl⟩
    | prefixExp e =>
      cases e with
      | var v => exact ih (.var v) List.mem_cons_self
      | call c => exact ih (.call c) List.mem_cons_self
      | paren inner => rfl
    | var v =>
      cases v with
      | name n => rfl
      | index base key => exact startsWith_append (ih (.prefixExp base) List.mem_cons_self) _
      | member base n => exact startsWith_append (ih (.prefixExp base) List.mem_cons_self) _
    | call c =>
      cases c with
      | normal callee args => exact startsWith_append (ih (.prefixExp callee) List.mem_cons_self) _
      | method object n args => exact startsWith_append (ih (.prefixExp object) List.mem_cons_self) _
    | _ => trivial

theorem Exp.startsWith_tokens (e : Exp) : startsWith Token.startsExp e.tokens = true :=
  (Node.exp e).starts.1

/-! ## Nodes -/

/-- The node is read back from its tokens, before anything that may follow it. An expression without
operators is read back as an operand, and one that may be called or indexed as the beginning of a longer
one. -/
def Node.ReadsBack : Node → Prop
  | .chunk body => ∀ rest, endsBlock rest = true →
      Reads Readers.chunk (Stat.tokensAll body ++ rest) (Stat.eraseAll body) rest
  | .stat s => ∀ rest, endsLine rest = true → Reads Readers.stat (s.tokens ++ rest) s.erase rest
  | .elseIf c => ∀ rest, endsBlock rest = true → Reads readElseIf (c.tokens ++ rest) c.erase rest
  | .funcBody b => ∀ rest, endsBlock rest = true → Reads readFuncBody (b.tokens ++ rest) b.erase rest
  | .exp e => (e.isOperation = false → ∀ rest, endsOperand rest = true →
        Reads readOperand (e.tokens ++ rest) e.erase rest) ∧
      ∀ rest, endsExp rest = true → Reads Readers.exp (e.tokens ++ rest) e.erase rest
  | .prefixExp e => ∀ ts part rest, Reads (Readers.suffixes · e.erase) ts part rest →
      Reads Readers.prefixExp (e.tokens ++ ts) part rest
  | .var v => ∀ ts part rest, Reads (Readers.suffixes · (.var v.erase)) ts part rest →
      Reads Readers.prefixExp (v.tokens ++ ts) part rest
  | .call c => ∀ ts part rest, Reads (Readers.suffixes · (.call c.erase)) ts part rest →
      Reads Readers.prefixExp (c.tokens ++ ts) part rest
  | .args a => ∀ rest, Reads readArgs (a.tokens ++ rest) a.erase rest
  | .field f => ∀ rest, endsExp rest = true → startsWith (· == .symbol .assign) rest = false →
      Reads readField (f.tokens ++ rest) f.erase rest
  | .table fields => ∀ rest, Reads readTable (braced fields (Field.tokensAll fields) ++ rest)
      (Field.eraseAll fields) rest
  | .expList es => es ≠ [] → ∀ rest, endsExp rest = true → endsList rest = true →
      Reads readExps (Exp.tokensAll es ++ rest) (Exp.eraseAll es) rest
  | .varList vs => vs ≠ [] → ∀ rest, endsOperand rest = true → endsList rest = true →
      Reads readVars (Var.tokensAll vs ++ rest) (Var.eraseAll vs) rest
  | .funcName _ | .parList _ | .nameList _ | .name _ => True

section

variable {rest : List Token}

theorem readsBack_exps {es : List Exp} (h : ∀ e ∈ es, (Node.exp e).ReadsBack) (hne : es ≠ [])
    (hend : endsExp rest = true) (hlist : endsList rest = true) :
    Reads readExps (Exp.tokensAll es ++ rest) (Exp.eraseAll es) rest := by
  cases es with
  | nil => exact absurd rfl hne
  | cons e es =>
    induction es generalizing e with
    | nil =>
      rw [Exp.tokensAll, Exp.tokensMore, List.append_nil]
      exact reads_exps ((h e List.mem_cons_self).2 rest hend) (reads_moreExps_nil hlist)
    | cons f es ih =>
      rw [List.forall_mem_cons] at h
      have hmore := ih f h.2 (List.cons_ne_nil f es)
      rw [Exp.tokensAll, List.append_assoc]
      exact reads_exps (h.1.2 _ rfl) (reads_moreExps_cons hmore)

/-- An expression that may be called or indexed, if nothing follows that continues it. -/
theorem readsBack_prefixExp_end {e : PrefixExp} (h : (Node.prefixExp e).ReadsBack)
    (hend : endsOperand rest = true) : Reads Readers.prefixExp (e.tokens ++ rest) e.erase rest :=
  h _ _ _ (reads_suffixes_nil hend)

theorem readsBack_vars {vs : List Var} (h : ∀ v ∈ vs, (Node.var v).ReadsBack) (hne : vs ≠ [])
    (hend : endsOperand rest = true) (hlist : endsList rest = true) :
    Reads readVars (Var.tokensAll vs ++ rest) (Var.eraseAll vs) rest := by
  cases vs with
  | nil => exact absurd rfl hne
  | cons v vs =>
    induction vs generalizing v with
    | nil =>
      rw [Var.tokensAll, Var.tokensMore, List.append_nil]
      exact reads_vars (h v List.mem_cons_self _ _ _ (reads_suffixes_nil hend)) (reads_moreVars_nil hlist)
    | cons w vs ih =>
      rw [List.forall_mem_cons] at h
      have hmore := ih w h.2 (List.cons_ne_nil w vs)
      rw [Var.tokensAll, List.append_assoc]
      exact reads_vars (h.1 _ _ _ (reads_suffixes_nil rfl)) (reads_moreVars_cons hmore)

theorem readsBack_fields {fields : List Field} (h : ∀ f ∈ fields, (Node.field f).ReadsBack) :
    Reads Readers.fields (Field.tokensAll fields ++ .lineEnd :: .symbol .closeBrace :: rest)
      (Field.eraseAll fields) rest := by
  induction fields with
  | nil => exact reads_fields_end
  | cons f fields ih =>
    rw [List.forall_mem_cons] at h
    -- the entry is not taken for the closing brace
    have hstart : startsWith (· != .symbol .closeBrace) f.tokens = true := by
      cases f with
      | positional value =>
        refine startsWith_mono value.startsWith_tokens fun t ht => bne_iff_ne.mpr ?_
        rintro rfl
        exact absurd ht (by decide)
      | named n value => rfl
      | keyed key value => rfl
    rw [Field.tokensAll, List.cons_append, List.append_assoc]
    exact reads_fields_cons (startsWith_append hstart _) (h.1 _ rfl rfl) (ih h.2)

theorem readsBack_braced {fields : List Field} (h : ∀ f ∈ fields, (Node.field f).ReadsBack) :
    ∃ ts, braced fields (Field.tokensAll fields) ++ rest = .symbol .openBrace :: ts ∧
      Reads Readers.fields ts (Field.eraseAll fields) rest := by
  cases fields with
  | nil => exact ⟨_, rfl, reads_fields_nil⟩
  | cons f fields =>
    refine ⟨Field.tokensAll (f :: fields) ++ .lineEnd :: .symbol .closeBrace :: rest, ?_, ?_⟩
    · simp [braced]
    · exact readsBack_fields h

theorem closesBlock_of_startsPrefix {ts : List Token} (h : startsWith Token.startsPrefix ts = true) :
    closesBlock ts = false := by
  obtain ⟨t, ts, rfl, ht⟩ := exists_of_startsWith h
  cases t with
  | keyword k => exact absurd ht (by simp [Token.startsPrefix])
  | _ => rfl

/-- No statement begins with a word that ends a block. -/
theorem closesBlock_stat (s : Stat) (ts : List Token) : closesBlock (s.tokens ++ ts) = false := by
  cases s with
  | ifThen condition body elseIfs elseBody => cases elseBody <;> rfl
  | numericFor var start stop step body => cases step <;> rfl
  | call c => exact closesBlock_of_startsPrefix (startsWith_append (Node.call c).starts _)
  | localVars names values =>
    rcases values with _ | _ | ⟨value, values⟩
    · rfl
    · rfl
    · rfl
  | assign targets values =>
    cases targets with
    | nil => rfl
    | cons v targets =>
      refine closesBlock_of_startsPrefix (startsWith_append ?_ ts)
      exact startsWith_append (startsWith_append (Node.var v).starts _) _
  | _ => rfl

theorem readsBack_chunk {body : Chunk} (h : ∀ s ∈ body, (Node.stat s).ReadsBack)
    (hend : endsBlock rest = true) :
    Reads Readers.chunk (Stat.tokensAll body ++ rest) (Stat.eraseAll body) rest := by
  induction body with
  | nil => exact reads_chunk_nil hend
  | cons s body ih =>
    rw [List.forall_mem_cons] at h
    -- the next statement stands on a line of its own, and so does the end of the block
    have hline : endsLine (Stat.tokensAll body ++ rest) = true := by
      cases body with
      | nil => exact endsLine_of_endsBlock hend
      | cons _ _ => rfl
    rw [Stat.tokensAll, List.cons_append, List.append_assoc]
    exact reads_chunk_cons (closesBlock_stat s _) (h.1 _ hline) (ih h.2)

/-- A block may be followed by the other clauses of a conditional. -/
theorem endsBlock_elseIfs (clauses : List ElseIf) (h : endsBlock rest = true) :
    endsBlock (ElseIf.tokensAll clauses ++ rest) = true := by
  cases clauses with
  | nil => exact h
  | cons clause clauses =>
    cases clause
    rfl

theorem readsBack_elseIfs {clauses : List ElseIf} (h : ∀ c ∈ clauses, (Node.elseIf c).ReadsBack)
    (hend : endsClauses rest = true) (hblock : endsBlock rest = true) :
    Reads Readers.elseIfs (ElseIf.tokensAll clauses ++ rest) (ElseIf.eraseAll clauses) rest := by
  induction clauses with
  | nil => exact reads_elseIfs_nil hend
  | cons clause clauses ih =>
    rw [List.forall_mem_cons] at h
    have hclause := h.1 _ (endsBlock_elseIfs clauses hblock)
    obtain ⟨condition, body⟩ := clause
    rw [ElseIf.tokensAll, List.cons_append, List.append_assoc]
    rw [ElseIf.tokens, List.cons_append] at hclause ⊢
    exact reads_elseIfs_cons hclause (ih h.2)

/-- Two lists that pass the check for being empty are not. -/
theorem ne_nil_of_checks {Part Other : Type} {as : List Part} {bs : List Other} {fault fault' : Fault}
    (h : (if as.isEmpty then some fault else if bs.isEmpty then some fault' else none) = none) :
    as ≠ [] ∧ bs ≠ [] := by
  cases as <;> cases bs <;> simp_all

theorem readsBack_stat {s : Stat} (h : ∀ m ∈ s.children, m.ReadsBack) (hf : s.fault? = none)
    (hend : endsLine rest = true) : Reads Readers.stat (s.tokens ++ rest) s.erase rest := by
  obtain ⟨hexp, hlist⟩ := endsExp_of_endsLine hend
  cases s with
  | function name body =>
    simp only [Stat.children, List.forall_mem_cons] at h
    rw [Stat.tokens, List.cons_append, List.append_assoc, List.append_assoc]
    refine reads_function ?_ (h.2.1 _ rfl)
    obtain ⟨params, body⟩ := body
    rfl
  | localFunction name body =>
    simp only [Stat.tokens, List.cons_append, List.append_assoc]
    exact reads_localFunction (h _ List.mem_cons_self _ rfl)
  | ifThen condition body elseIfs elseBody =>
    simp only [Stat.children, List.cons_append, List.forall_mem_cons, List.forall_mem_append,
      List.forall_mem_map] at h
    obtain ⟨hcondition, hbody, hclauses, helse⟩ := h
    cases elseBody with
    | none =>
      simp only [Stat.tokens, List.cons_append, List.append_assoc]
      refine reads_if (hcondition.2 _ rfl) (hbody _ (endsBlock_elseIfs elseIfs rfl)) ?_ reads_else_none
      exact readsBack_elseIfs hclauses rfl rfl
    | some elseBody =>
      simp only [Stat.tokens, List.cons_append, List.append_assoc]
      refine reads_if (hcondition.2 _ rfl) (hbody _ (endsBlock_elseIfs elseIfs rfl))
        (readsBack_elseIfs hclauses rfl rfl) (reads_else_some ?_)
      exact helse elseBody (by simp) _ rfl
  | numericFor var start stop step body =>
    simp only [Stat.children, List.cons_append, List.forall_mem_cons, List.forall_mem_append,
      List.forall_mem_map] at h
    obtain ⟨hstart, hstop, hstep, hbody, -⟩ := h
    -- the two or three values are read as one list
    have hloop : Reads readBody (Stat.tokensAll body ++ (endTokens ++ rest)) (Stat.eraseAll body) rest :=
      reads_body (hbody _ rfl)
    have hmems : ∀ e ∈ start :: stop :: step.toList, (Node.exp e).ReadsBack := by
      rintro e (_ | ⟨_, _ | ⟨_, he⟩⟩)
      · exact hstart
      · exact hstop
      · exact hstep e he
    have hvalues : Reads readExps
        (Exp.tokensAll (start :: stop :: step.toList) ++ .keyword .do ::
          (Stat.tokensAll body ++ (endTokens ++ rest)))
        (Exp.eraseAll (start :: stop :: step.toList))
        (.keyword .do :: (Stat.tokensAll body ++ (endTokens ++ rest))) :=
      readsBack_exps hmems (by simp) rfl rfl
    cases step with
    | none =>
      simp only [Option.toList_none, Exp.tokensAll, Exp.tokensMore, List.cons_append, List.append_assoc,
        List.nil_append] at hvalues
      simp only [Stat.tokens, List.cons_append, List.append_assoc]
      exact reads_numericFor hvalues hloop rfl
    | some step =>
      simp only [Option.toList_some, Exp.tokensAll, Exp.tokensMore, List.cons_append, List.append_assoc,
        List.nil_append] at hvalues
      simp only [Stat.tokens, List.cons_append, List.append_assoc]
      exact reads_numericFor hvalues hloop rfl
  | genericFor names values body =>
    simp only [Stat.children, List.forall_mem_cons] at h
    obtain ⟨-, hvalues, hbody, -⟩ := h
    have hne : names ≠ [] ∧ values ≠ [] := ne_nil_of_checks hf
    simp only [Stat.tokens, List.cons_append, List.append_assoc]
    exact reads_genericFor hne.1 (hvalues hne.2 _ rfl rfl) (reads_body (hbody _ rfl))
  | call c =>
    refine reads_stat_call (startsWith_append (Node.call c).starts rest) ?_
    exact h (.call c) List.mem_cons_self _ _ _ (reads_suffixes_nil (endsOperand_of_endsExp hexp))
  | ret values =>
    cases values with
    | nil => exact reads_return_nil hend
    | cons value values =>
      have hvalues := h (.expList (value :: values)) (by simp [Stat.children, valuesChildren])
      refine reads_return (startsWith_append (startsWith_append value.startsWith_tokens _) _) ?_
      exact hvalues (List.cons_ne_nil _ _) rest hexp hlist
  | localVars names values =>
    have hne : names ≠ [] := by
      rintro rfl
      simp [Stat.fault?] at hf
    -- without values the statement ends after its names
    have hassign : startsWith (· == .symbol .assign) rest = false := by
      cases rest with
      | nil => rfl
      | cons t ts =>
        have ht : t = .lineEnd := by simpa [endsLine, startsWith] using hend
        subst ht
        rfl
    rcases values with _ | _ | ⟨value, values⟩
    · exact reads_local_none hne hlist hassign
    · exact reads_local_none hne hlist hassign
    · have hvalues := h (.expList (value :: values)) (by simp [Stat.children, valuesChildren])
      have hreads := hvalues (List.cons_ne_nil _ _) rest hexp hlist
      rw [Exp.tokensAll] at hreads
      simp only [Stat.tokens, List.cons_append, List.append_assoc]
      rw [List.append_assoc] at hreads
      exact reads_local_some hne hreads
  | assign targets values =>
    simp only [Stat.children, List.forall_mem_cons] at h
    obtain ⟨htargets, hvalues, -⟩ := h
    have hne : targets ≠ [] ∧ values ≠ [] := ne_nil_of_checks hf
    obtain ⟨v, targets, rfl⟩ := List.exists_cons_of_ne_nil hne.1
    have hstart : startsWith Token.startsPrefix (Var.tokensAll (v :: targets)) = true :=
      startsWith_append (Node.var v).starts _
    rw [Stat.tokens, List.append_assoc]
    exact reads_stat_assign (startsWith_append hstart _) (htargets hne.1 _ rfl rfl)
      (hvalues hne.2 rest hexp hlist)
  | block body =>
    simp only [Stat.tokens, List.cons_append, List.append_assoc]
    exact reads_block (reads_body (h _ List.mem_cons_self _ rfl))
  | repeatUntil body condition =>
    simp only [Stat.children, List.forall_mem_cons] at h
    simp only [Stat.tokens, List.cons_append, List.append_assoc]
    exact reads_repeat (h.1 _ rfl) (h.2.1.2 _ hexp)
  | whileDo condition body =>
    simp only [Stat.children, List.forall_mem_cons] at h
    simp only [Stat.tokens, List.cons_append, List.append_assoc]
    exact reads_while (h.1.2 _ rfl) (reads_body (h.2.1 _ rfl))
  | breakLoop => exact reads_break

theorem readsBack_operand {e : Exp} (h : ∀ m ∈ e.children, m.ReadsBack) (hop : e.isOperation = false)
    (hend : endsOperand rest = true) : Reads readOperand (e.tokens ++ rest) e.erase rest := by
  cases e with
  | bool value => cases value <;> exact .of_forall fun _ => rfl
  | unary op operand => exact absurd hop (by simp [Exp.isOperation])
  | binary left op right => exact absurd hop (by simp [Exp.isOperation])
  | function body =>
    simp only [Exp.tokens, List.cons_append, List.append_assoc]
    exact reads_operand_function (h _ List.mem_cons_self _ rfl)
  | paren inner =>
    have hinner : (Node.exp inner).ReadsBack := h _ List.mem_cons_self
    refine reads_operand_prefixed (startsWith_append rfl rest) ?_
    simp only [Exp.tokens, List.cons_append, List.append_assoc]
    exact reads_paren (hinner.2 _ rfl) (reads_suffixes_nil hend)
  | table fields =>
    obtain ⟨ts, htokens, hfields⟩ := readsBack_braced fun f hf => h (.field f) (List.mem_map_of_mem hf)
    rw [Exp.tokens, htokens]
    exact reads_operand_table hfields
  | prefixed inner =>
    refine reads_operand_prefixed (startsWith_append (Node.prefixExp inner).starts rest) ?_
    exact readsBack_prefixExp_end (h (.prefixExp inner) List.mem_cons_self) hend
  | _ => exact .of_forall fun _ => rfl

theorem readsBack_exp {e : Exp} (h : ∀ m ∈ e.children, m.ReadsBack)
    (hplain : (Node.exp e).isPlain = true) : (Node.exp e).ReadsBack := by
  refine ⟨fun hop rest hend => readsBack_operand h hop hend, fun rest hend => ?_⟩
  cases hop : e.isOperation with
  | false =>
    -- the operand is the whole expression, since no operator follows
    refine reads_exp_operand (startsWith_append ((Node.exp e).starts.2 hop) rest) hend ?_
    exact readsBack_operand h hop (endsOperand_of_endsExp hend)
  | true =>
    cases e with
    | unary op operand =>
      have hoperand : (Node.exp operand).ReadsBack := h _ List.mem_cons_self
      refine reads_exp_unary op (hoperand.1 ?_ rest (endsOperand_of_endsExp hend))
      simpa [Node.isPlain] using hplain
    | binary left op right =>
      simp only [Exp.children, List.forall_mem_cons] at h
      obtain ⟨hleft, hright, -⟩ := h
      obtain ⟨hl, hr⟩ : left.isOperation = false ∧ right.isOperation = false := by
        simpa [Node.isPlain] using hplain
      -- no operator continues an expression that may be called or indexed
      have hbefore : endsOperand (op.token :: (right.tokens ++ rest)) = true := by cases op <;> rfl
      rw [Exp.tokens, List.append_assoc]
      refine reads_exp_binary op (startsWith_append ((Node.exp left).starts.2 hl) _)
        (hleft.1 hl _ hbefore) ?_
      exact hright.1 hr rest (endsOperand_of_endsExp hend)
    | _ => exact absurd hop (by simp [Exp.isOperation])

theorem readsBack_args {a : Args} (h : ∀ m ∈ (Node.args a).children, m.ReadsBack) :
    Reads readArgs (a.tokens ++ rest) a.erase rest := by
  cases a with
  | list values =>
    cases values with
    | nil => exact reads_args_nil
    | cons value values =>
      have hvalues : (Node.expList (value :: values)).ReadsBack := h _ List.mem_cons_self
      simp only [Args.tokens, List.cons_append, List.append_assoc]
      refine reads_args_list ?_ (hvalues (List.cons_ne_nil _ _) _ rfl rfl)
      exact startsWith_append (startsWith_append value.startsWith_tokens _) _
  | table fields =>
    obtain ⟨ts, htokens, hfields⟩ := readsBack_braced fun f hf => h (.field f) (List.mem_map_of_mem hf)
    rw [Args.tokens, htokens]
    exact reads_args_table hfields
  | string lit => exact .of_forall fun _ => rfl

theorem startsWith_args (a : Args) : startsWith Token.startsArgs a.tokens = true := by
  cases a <;> rfl

theorem readsBack_prefixExp {e : PrefixExp} (h : ∀ m ∈ (Node.prefixExp e).children, m.ReadsBack) :
    (Node.prefixExp e).ReadsBack := by
  cases e with
  | var v => exact h (.var v) List.mem_cons_self
  | call c => exact h (.call c) List.mem_cons_self
  | paren inner =>
    have hinner : (Node.exp inner).ReadsBack := h _ List.mem_cons_self
    intro ts part rest hafter
    simp only [PrefixExp.tokens, List.cons_append, List.append_assoc]
    exact reads_paren (hinner.2 _ rfl) hafter

theorem readsBack_var {v : Var} (h : ∀ m ∈ (Node.var v).children, m.ReadsBack) :
    (Node.var v).ReadsBack := by
  intro ts part rest hafter
  cases v with
  | name n => exact reads_name hafter
  | index base key =>
    simp only [Node.children, List.forall_mem_cons] at h
    simp only [Var.tokens, List.cons_append, List.append_assoc]
    exact h.1 _ _ _ (reads_index (h.2.1.2 _ rfl) hafter)
  | member base n =>
    simp only [Var.tokens, List.append_assoc]
    exact h _ List.mem_cons_self _ _ _ (reads_member hafter)

theorem readsBack_call {c : Call} (h : ∀ m ∈ (Node.call c).children, m.ReadsBack) :
    (Node.call c).ReadsBack := by
  intro ts part rest hafter
  cases c with
  | normal callee args =>
    simp only [Node.children, List.forall_mem_cons] at h
    rw [Call.tokens, List.append_assoc]
    exact h.1 _ _ _ (reads_normal (startsWith_append (startsWith_args args) _) (h.2.1 _) hafter)
  | method object n args =>
    simp only [Node.children, List.forall_mem_cons] at h
    simp only [Call.tokens, List.cons_append, List.append_assoc]
    exact h.1 _ _ _ (reads_method (h.2.1 _) hafter)

theorem readsBack_field {f : Field} (h : ∀ m ∈ (Node.field f).children, m.ReadsBack) :
    (Node.field f).ReadsBack := by
  intro rest hend hassign
  cases f with
  | positional value =>
    have hvalue : (Node.exp value).ReadsBack := h _ List.mem_cons_self
    exact reads_field_positional (startsWith_append value.startsWith_tokens _) hassign
      (hvalue.2 rest hend)
  | named n value =>
    have hvalue : (Node.exp value).ReadsBack := h _ List.mem_cons_self
    -- the key is at first read as an expression
    refine reads_field_named (hvalue.2 rest hend) (reads_exp_operand rfl rfl ?_)
    exact reads_operand_prefixed rfl (reads_name (reads_suffixes_nil rfl))
  | keyed key value =>
    simp only [Node.children, List.forall_mem_cons] at h
    simp only [Field.tokens, List.cons_append, List.append_assoc]
    exact reads_field_keyed (h.1.2 _ rfl) (h.2.1.2 rest hend)

end

/-! ## Trees -/

/-- **A canonical tree is read back from its tokens**, up to what they do not tell, if no node of it is at
fault. -/
theorem Node.readsBack {n : Node} (hf : ∀ m ∈ n.preorder, m.fault? = none) (hplain : n.Canonical) :
    n.ReadsBack := by
  induction n using Node.inductionOn with
  | h n ih =>
    have h : ∀ m ∈ n.children, m.ReadsBack := fun m hm =>
      ih m hm (fun k hk => hf k (mem_preorder_of_child hm hk))
        fun k hk => hplain k (mem_preorder_of_child hm hk)
    have hnone := hf n n.self_mem_preorder
    cases n with
    | chunk body => exact fun rest hend => readsBack_chunk (fun s hs => h _ (List.mem_map_of_mem hs)) hend
    | stat s => exact fun rest hend => readsBack_stat h hnone hend
    | elseIf c =>
      obtain ⟨condition, body⟩ := c
      simp only [children, List.forall_mem_cons] at h
      intro rest hend
      simp only [ElseIf.tokens, List.cons_append, List.append_assoc]
      exact reads_elseIf (h.1.2 _ rfl) (h.2.1 rest hend)
    | funcBody b =>
      obtain ⟨params, body⟩ := b
      simp only [children, List.forall_mem_cons] at h
      intro rest hend
      rw [FuncBody.tokens, List.append_assoc]
      exact reads_funcBody (h.2.1 rest hend)
    | exp e => exact readsBack_exp h (hplain _ (self_mem_preorder _))
    | prefixExp e => exact readsBack_prefixExp h
    | var v => exact readsBack_var h
    | call c => exact readsBack_call h
    | args a => exact fun rest => readsBack_args h
    | field f => exact readsBack_field h
    | table fields =>
      intro rest
      obtain ⟨ts, htokens, hfields⟩ := readsBack_braced fun f hf => h (.field f) (List.mem_map_of_mem hf)
      rw [htokens]
      exact reads_table hfields
    | expList es =>
      intro hne rest hend hlist
      exact readsBack_exps (fun e he => h _ (List.mem_map_of_mem he)) hne hend hlist
    | varList vs =>
      intro hne rest hend hlist
      exact readsBack_vars (fun v hv => h _ (List.mem_map_of_mem hv)) hne hend hlist
    | _ => trivial

end LuaUnparse
