import Mathlib.Order.Filter.AtTopBot.Basic
import LuaUnparse.Proofs.Reading.Reader
import LuaUnparse.Proofs.Reading.Spelling

/-!
# `LuaUnparse.Proofs.Reading.Rules` — what the readers read, construct by construct

Each rule says of a construct that it is read if its parts are, by readers that take enough steps. How many
are enough depends on the construct, and no rule counts them: what holds from some number of steps on holds
of `enough` of them.

## Contents
- **Steps.** `enough`, and `eventually_next`: one step more does no harm.
- **Names.** Lists of names, parameters and function names are read back.
- **First tokens.** `Token.startsExp` and `Token.startsPrefix`, by which the readers tell constructs apart.
- **Rules.** `Reads`, and a rule for each construct with parts.
-/

namespace LuaUnparse

/-! ## Steps -/

/-- The readers that take steps enough for whatever is to be read. -/
def enough : Filter Readers :=
  Filter.map readers Filter.atTop

/-- What holds after one more step of readers that take enough steps holds of them. -/
theorem eventually_next {p : Readers → Prop} (h : ∀ᶠ r in enough, p r.next) :
    ∀ᶠ r in enough, p r := by
  rw [enough, Filter.eventually_map, Filter.eventually_atTop] at h ⊢
  obtain ⟨n, hn⟩ := h
  refine ⟨n + 1, fun m hm => ?_⟩
  obtain ⟨k, rfl⟩ : ∃ k, m = k + 1 := ⟨m - 1, by omega⟩
  exact hn k (by omega)

theorem exists_of_eventually {p : Readers → Prop} (h : ∀ᶠ r in enough, p r) : ∃ r, p r := by
  rw [enough, Filter.eventually_map, Filter.eventually_atTop] at h
  obtain ⟨n, hn⟩ := h
  exact ⟨_, hn n le_rfl⟩

/-- Readers that take enough steps take this construct off the front of the tokens. -/
def Reads {Part : Type} (read : Readers → Reader Part) (ts : List Token) (part : Part)
    (rest : List Token) : Prop :=
  ∀ᶠ r in enough, read r ts = some (part, rest)

/-! ## First tokens -/

/-- Whether an expression that may be called or indexed goes on with the token. -/
def Token.isSuffix : Token → Bool
  | .string _ => true
  | .symbol s => (s matches .openParen | .openBrace | .openBracket | .dot | .colon)
  | _ => false

/-- Whether an expression that may be called or indexed begins with the token. -/
def Token.startsPrefix : Token → Bool
  | .name _ => true
  | .symbol s => (s matches .openParen)
  | _ => false

/-- Whether an expression begins with the token. -/
def Token.startsExp : Token → Bool
  | .name _ | .number _ | .string _ => true
  | .keyword k => (k matches .nil | .true | .false | .function | .not)
  | .symbol s => (s matches .ellipsis | .openParen | .openBrace | .hash | .op .sub | .op .bitXor)
  | .lineEnd => false

/-- Whether the first token is of a kind. -/
def startsWith (p : Token → Bool) (ts : List Token) : Bool :=
  ts.head?.any p

theorem startsWith_append {p : Token → Bool} {ts : List Token} (h : startsWith p ts = true)
    (rest : List Token) : startsWith p (ts ++ rest) = true := by
  cases ts with
  | nil => simp [startsWith] at h
  | cons t ts => exact h

theorem exists_of_startsWith {p : Token → Bool} {ts : List Token} (h : startsWith p ts = true) :
    ∃ t after, ts = t :: after ∧ p t = true := by
  cases ts with
  | nil => simp [startsWith] at h
  | cons t after => exact ⟨t, after, rfl, h⟩

/-- No expression that may be called or indexed goes on here. -/
def endsOperand (ts : List Token) : Bool :=
  !startsWith Token.isSuffix ts

/-- No expression goes on here. -/
def endsExp (ts : List Token) : Bool :=
  endsOperand ts && (ts.head?.bind Token.binOp?).isNone

/-- No list of expressions, of variables or of names goes on here. -/
def endsList (ts : List Token) : Bool :=
  !startsWith (· == .symbol .comma) ts

/-- A statement ends here. -/
def endsLine (ts : List Token) : Bool :=
  ts.isEmpty || startsWith (· == .lineEnd) ts

/-- A block ends here. -/
def endsBlock : List Token → Bool
  | [] => true
  | .lineEnd :: ts => closesBlock ts
  | _ => false

theorem endsExp_of_endsLine {ts : List Token} (h : endsLine ts = true) :
    endsExp ts = true ∧ endsList ts = true := by
  cases ts with
  | nil => decide
  | cons t ts =>
    have ht : t = .lineEnd := by simpa [endsLine, startsWith] using h
    subst ht
    exact ⟨rfl, rfl⟩

theorem endsLine_of_endsBlock {ts : List Token} (h : endsBlock ts = true) : endsLine ts = true := by
  cases ts with
  | nil => rfl
  | cons t ts =>
    cases t with
    | lineEnd => rfl
    | _ => simp [endsBlock] at h

theorem endsOperand_of_endsExp {ts : List Token} (h : endsExp ts = true) : endsOperand ts = true :=
  (Bool.and_eq_true_iff.mp h).1

/-! ## Names -/

theorem readNames_tokens {names : List Name} (hne : names ≠ []) {rest : List Token}
    (h : endsList rest = true) : readNames (namesTokens names ++ rest) = some (names, rest) := by
  cases names with
  | nil => exact absurd rfl hne
  | cons n names =>
    induction names generalizing n with
    | nil =>
      show readNames (.name n :: rest) = some ([n], rest)
      rw [readNames]
      rintro ts rfl
      simp [endsList, startsWith] at h
    | cons m names ih =>
      show readNames (.name n :: .symbol .comma :: (namesTokens (m :: names) ++ rest)) = _
      rw [readNames, ih m (List.cons_ne_nil m names)]
      rfl

theorem readParams_tokens (params : ParList) (rest : List Token) :
    readParams (namesTokens params.names ++ (params.closing ++ rest)) = some (params, rest) := by
  obtain ⟨names, vararg⟩ := params
  induction names with
  | nil => cases vararg <;> rfl
  | cons n names ih =>
    cases names with
    | nil => cases vararg <;> rfl
    | cons m names =>
      have hclosing : (ParList.mk (n :: m :: names) vararg).closing =
          (ParList.mk (m :: names) vararg).closing := rfl
      show readParams (.name n :: .symbol .comma :: (namesTokens (m :: names) ++ _)) = _
      rw [readParams, hclosing, ih]
      rfl

theorem readParList_tokens (params : ParList) (rest : List Token) :
    readParList (params.tokens ++ rest) = some (params, rest) := by
  simp [readParList, ParList.tokens, readParams_tokens]

/-- Neither a field nor a method goes on here. -/
def endsPath (ts : List Token) : Bool :=
  !startsWith (fun t => t matches .symbol .dot | .symbol .colon) ts

theorem readMethod_tokens (method : Option Name) {rest : List Token} (h : endsPath rest = true) :
    readMethod (methodTokens method ++ rest) = (method, rest) := by
  cases method with
  | some n => rfl
  | none =>
    show readMethod rest = (none, rest)
    unfold readMethod
    split
    · simp [endsPath, startsWith] at h
    · rfl

theorem readIndexers_tokens (indexers : List Name) {rest : List Token}
    (h : startsWith (· == .symbol .dot) rest = false) :
    readIndexers (indexersTokens indexers ++ rest) = (indexers, rest) := by
  induction indexers with
  | nil =>
    show readIndexers rest = ([], rest)
    unfold readIndexers
    split
    · simp [startsWith] at h
    · rfl
  | cons n indexers ih =>
    show readIndexers (.symbol .dot :: .name n :: (indexersTokens indexers ++ rest)) = _
    rw [readIndexers, ih]
    rfl

theorem readFuncName_tokens (name : FuncName) {rest : List Token} (h : endsPath rest = true) :
    readFuncName (name.tokens ++ rest) = some (name, rest) := by
  obtain ⟨base, indexers, method⟩ := name
  -- no further field follows the last one
  have hmethod : startsWith (· == .symbol .dot) (methodTokens method ++ rest) = false := by
    cases method with
    | some n => rfl
    | none =>
      cases rest with
      | nil => rfl
      | cons t ts =>
        show (t == .symbol .dot) = false
        rw [beq_eq_false_iff_ne]
        rintro rfl
        simp [endsPath, startsWith] at h
  rw [FuncName.tokens, List.cons_append, List.append_assoc, readFuncName, readIndexers_tokens _ hmethod]
  show some (FuncName.mk base indexers (readMethod _).1, (readMethod _).2) = _
  rw [readMethod_tokens _ h]

/-! ## Rules -/

section

variable {ts us vs rest : List Token}

theorem reads_exps {e : Exp} {es : List Exp} (h : Reads Readers.exp ts e us)
    (hs : Reads Readers.moreExps us es rest) : Reads readExps ts (e :: es) rest := by
  filter_upwards [h, hs] with r h hs
  simp [readExps, h, hs]

theorem reads_moreExps_nil (h : endsList rest = true) : Reads Readers.moreExps rest [] rest := by
  refine eventually_next (.of_forall fun r => ?_)
  show readMoreExps r rest = some ([], rest)
  unfold readMoreExps
  split
  · simp [endsList, startsWith] at h
  · rfl

theorem reads_moreExps_cons {es : List Exp} (h : Reads readExps ts es rest) :
    Reads Readers.moreExps (.symbol .comma :: ts) es rest :=
  eventually_next h

theorem reads_var {v : Var} (h : Reads Readers.prefixExp ts (.var v) rest) :
    Reads readVar ts v rest := by
  filter_upwards [h] with r h
  simp [readVar, h]

theorem reads_call {c : Call} (h : Reads Readers.prefixExp ts (.call c) rest) :
    Reads readCall ts c rest := by
  filter_upwards [h] with r h
  simp [readCall, h]

theorem reads_vars {v : Var} {vs : List Var} (h : Reads Readers.prefixExp ts (.var v) us)
    (hs : Reads Readers.moreVars us vs rest) : Reads readVars ts (v :: vs) rest := by
  filter_upwards [reads_var h, hs] with r h hs
  simp [readVars, h, hs]

theorem reads_moreVars_nil (h : endsList rest = true) : Reads Readers.moreVars rest [] rest := by
  refine eventually_next (.of_forall fun r => ?_)
  show readMoreVars r rest = some ([], rest)
  unfold readMoreVars
  split
  · simp [endsList, startsWith] at h
  · rfl

theorem reads_moreVars_cons {vs : List Var} (h : Reads readVars ts vs rest) :
    Reads Readers.moreVars (.symbol .comma :: ts) vs rest :=
  eventually_next h

theorem expectEnd_endTokens (ts : List Token) : expectEnd (endTokens ++ ts) = some ts := by
  simp [expectEnd, endTokens]

theorem reads_funcBody {params : ParList} {body : Chunk} (h : Reads Readers.chunk ts body rest) :
    Reads readFuncBody (params.tokens ++ ts) (.mk params body) rest := by
  filter_upwards [h] with r h
  simp [readFuncBody, readParList_tokens, h]

/-! ### Expressions that may be called or indexed -/

theorem reads_suffixes_nil {e : PrefixExp} (h : endsOperand rest = true) :
    Reads (Readers.suffixes · e) rest e rest := by
  refine eventually_next (.of_forall fun r => ?_)
  show readSuffixes r e rest = some (e, rest)
  cases rest with
  | nil => rfl
  | cons t ts =>
    cases t with
    | symbol s =>
      cases s <;> first | rfl | exact absurd h (by simp [endsOperand, startsWith, Token.isSuffix])
    | string value => exact absurd h (by simp [endsOperand, startsWith, Token.isSuffix])
    | _ => rfl

variable {base e : PrefixExp}

theorem reads_member {n : Name} (h : Reads (Readers.suffixes · (.var (.member base n))) ts e rest) :
    Reads (Readers.suffixes · base) (.symbol .dot :: .name n :: ts) e rest :=
  eventually_next h

theorem reads_index {key : Exp} (hkey : Reads Readers.exp ts key (.symbol .closeBracket :: us))
    (h : Reads (Readers.suffixes · (.var (.index base key))) us e rest) :
    Reads (Readers.suffixes · base) (.symbol .openBracket :: ts) e rest := by
  refine eventually_next ?_
  filter_upwards [hkey, h] with r hkey h
  simp [Readers.next, readSuffixes, hkey, h]

theorem reads_method {n : Name} {args : Args} (hargs : Reads readArgs ts args us)
    (h : Reads (Readers.suffixes · (.call (.method base n args))) us e rest) :
    Reads (Readers.suffixes · base) (.symbol .colon :: .name n :: ts) e rest := by
  refine eventually_next ?_
  filter_upwards [hargs, h] with r hargs h
  simp [Readers.next, readSuffixes, hargs, h]

/-- Whether the arguments of a call begin with the token. -/
def Token.startsArgs : Token → Bool
  | .string _ => true
  | .symbol s => (s matches .openParen | .openBrace)
  | _ => false

theorem reads_normal {args : Args} (hstart : startsWith Token.startsArgs ts = true)
    (hargs : Reads readArgs ts args us)
    (h : Reads (Readers.suffixes · (.call (.normal base args))) us e rest) :
    Reads (Readers.suffixes · base) ts e rest := by
  refine eventually_next ?_
  obtain ⟨t, ts, rfl, ht⟩ := exists_of_startsWith hstart
  filter_upwards [hargs, h] with r hargs h
  show readSuffixes r base _ = _
  cases t with
  | string value => simp [readSuffixes, hargs, h]
  | symbol s =>
    cases s with
    | openParen => simp [readSuffixes, hargs, h]
    | openBrace => simp [readSuffixes, hargs, h]
    | _ => exact absurd ht (by simp [Token.startsArgs])
  | _ => exact absurd ht (by simp [Token.startsArgs])

theorem reads_name {n : Name} (h : Reads (Readers.suffixes · (.var (.name n))) ts e rest) :
    Reads Readers.prefixExp (.name n :: ts) e rest :=
  eventually_next h

theorem reads_paren {inner : Exp} (hinner : Reads Readers.exp ts inner (.symbol .closeParen :: us))
    (h : Reads (Readers.suffixes · (.paren inner)) us e rest) :
    Reads Readers.prefixExp (.symbol .openParen :: ts) e rest := by
  refine eventually_next ?_
  filter_upwards [hinner, h] with r hinner h
  simp [Readers.next, readPrefixExp, hinner, h]

/-! ### Tables and arguments -/

theorem reads_fields_nil : Reads Readers.fields (.symbol .closeBrace :: rest) [] rest :=
  eventually_next (.of_forall fun _ => rfl)

theorem reads_fields_end : Reads Readers.fields (.lineEnd :: .symbol .closeBrace :: rest) [] rest :=
  eventually_next (.of_forall fun _ => rfl)

theorem reads_fields_cons {f : Field} {fs : List Field}
    (hstart : startsWith (· != .symbol .closeBrace) ts = true)
    (hf : Reads readField ts f (.symbol .comma :: us)) (h : Reads Readers.fields us fs rest) :
    Reads Readers.fields (.lineEnd :: ts) (f :: fs) rest := by
  refine eventually_next ?_
  obtain ⟨t, ts, rfl, ht⟩ := exists_of_startsWith hstart
  filter_upwards [hf, h] with r hf h
  show readFields r _ = _
  rw [readFields]
  · simp [hf, h]
  · rintro ts' ⟨⟩
    exact absurd ht (by decide)

theorem reads_table {fs : List Field} (h : Reads Readers.fields ts fs rest) :
    Reads readTable (.symbol .openBrace :: ts) fs rest := by
  filter_upwards [h] with r h
  simp [readTable, h]

theorem reads_args_nil :
    Reads readArgs (.symbol .openParen :: .symbol .closeParen :: rest) (.list []) rest :=
  .of_forall fun _ => rfl

theorem reads_args_list {es : List Exp} (hstart : startsWith Token.startsExp ts = true)
    (h : Reads readExps ts es (.symbol .closeParen :: rest)) :
    Reads readArgs (.symbol .openParen :: ts) (.list es) rest := by
  filter_upwards [h] with r h
  rw [readArgs]
  · simp [h]
  · rintro ts' rfl
    exact absurd hstart (by simp [startsWith, Token.startsExp])

theorem reads_args_table {fs : List Field} (h : Reads Readers.fields ts fs rest) :
    Reads readArgs (.symbol .openBrace :: ts) (.table fs) rest := by
  filter_upwards [reads_table h] with r h
  simp [readArgs, h]

theorem reads_field_keyed {key value : Exp}
    (hkey : Reads Readers.exp ts key (.symbol .closeBracket :: .symbol .assign :: us))
    (h : Reads Readers.exp us value rest) :
    Reads readField (.symbol .openBracket :: ts) (.keyed key value) rest := by
  filter_upwards [hkey, h] with r hkey h
  simp [readField, hkey, h]

theorem reads_field_named {n : Name} {value : Exp} (h : Reads Readers.exp ts value rest)
    (hn : Reads Readers.exp (.name n :: .symbol .assign :: ts) (.ofName n) (.symbol .assign :: ts)) :
    Reads readField (.name n :: .symbol .assign :: ts) (.named n value) rest := by
  filter_upwards [h, hn] with r h hn
  simp [readField, h, hn, Exp.ofName]

theorem reads_field_positional {value : Exp} (hstart : startsWith Token.startsExp ts = true)
    (hend : startsWith (· == .symbol .assign) rest = false) (h : Reads Readers.exp ts value rest) :
    Reads readField ts (.positional value) rest := by
  filter_upwards [h] with r h
  obtain ⟨t, ts, rfl, ht⟩ := exists_of_startsWith hstart
  rw [readField]
  · simp only [h, Option.bind_eq_bind, Option.bind_some]
    -- a name would be a key only before an equals sign
    split
    · next heq =>
      cases heq
      simp [startsWith] at hend
    · next heq =>
      cases heq
      rfl
  · rintro ts' ⟨⟩
    exact absurd ht (by decide)

/-! ### Expressions -/

theorem reads_operand_function {body : FuncBody} (h : Reads readFuncBody ts body (endTokens ++ rest)) :
    Reads readOperand (.keyword .function :: ts) (.function body) rest := by
  filter_upwards [h] with r h
  simp [readOperand, h, expectEnd_endTokens]

theorem reads_operand_table {fs : List Field} (h : Reads Readers.fields ts fs rest) :
    Reads readOperand (.symbol .openBrace :: ts) (.table fs) rest := by
  filter_upwards [h] with r h
  simp [readOperand, h]

theorem reads_operand_prefixed {e : PrefixExp} (hstart : startsWith Token.startsPrefix ts = true)
    (h : Reads Readers.prefixExp ts e rest) : Reads readOperand ts (.prefixed e) rest := by
  obtain ⟨t, ts, rfl, ht⟩ := exists_of_startsWith hstart
  filter_upwards [h] with r h
  cases t with
  | name n => simp [readOperand, h]
  | symbol s =>
    cases s with
    | openParen => simp [readOperand, h]
    | _ => exact absurd ht (by simp [Token.startsPrefix])
  | _ => exact absurd ht (by simp [Token.startsPrefix])

theorem reads_exp_unary (op : UnOp) {operand : Exp} (h : Reads readOperand ts operand rest) :
    Reads Readers.exp (op.token :: ts) (.unary op operand) rest := by
  refine eventually_next ?_
  filter_upwards [h] with r h
  simp [Readers.next, readExp, Token.unOp?_token, h]

theorem reads_exp_binary {left right : Exp} (op : BinOp)
    (hstart : startsWith (fun t => t.unOp?.isNone) ts = true)
    (hl : Reads readOperand ts left (op.token :: us)) (hr : Reads readOperand us right rest) :
    Reads Readers.exp ts (.binary left op right) rest := by
  refine eventually_next ?_
  obtain ⟨t, ts, rfl, ht⟩ := exists_of_startsWith hstart
  filter_upwards [hl, hr] with r hl hr
  have hun : t.unOp? = none := by simpa using ht
  simp [Readers.next, readExp, hun, hl, Token.binOp?_token, hr]

theorem reads_exp_operand {e : Exp} (hstart : startsWith (fun t => t.unOp?.isNone) ts = true)
    (hend : endsExp rest = true) (h : Reads readOperand ts e rest) : Reads Readers.exp ts e rest := by
  refine eventually_next ?_
  obtain ⟨t, ts, rfl, ht⟩ := exists_of_startsWith hstart
  have hbin : rest.head?.bind Token.binOp? = none := by
    simpa using (Bool.and_eq_true_iff.mp hend).2
  filter_upwards [h] with r h
  have hun : t.unOp? = none := by simpa using ht
  simp [Readers.next, readExp, hun, h, hbin]

/-! ### Blocks -/

theorem reads_chunk_nil (h : endsBlock rest = true) : Reads Readers.chunk rest [] rest := by
  refine eventually_next (.of_forall fun r => ?_)
  show readChunk r rest = some ([], rest)
  unfold readChunk
  split
  · exact if_pos h
  · rfl

theorem reads_chunk_cons {s : Stat} {body : Chunk} (hopen : closesBlock ts = false)
    (hs : Reads Readers.stat ts s us) (h : Reads Readers.chunk us body rest) :
    Reads Readers.chunk (.lineEnd :: ts) (s :: body) rest := by
  refine eventually_next ?_
  filter_upwards [hs, h] with r hs h
  simp [Readers.next, readChunk, hopen, hs, h]

theorem reads_body {body : Chunk} (h : Reads Readers.chunk ts body (endTokens ++ rest)) :
    Reads readBody ts body rest := by
  filter_upwards [h] with r h
  simp [readBody, h, expectEnd_endTokens]

theorem reads_elseIf {condition : Exp} {body : Chunk}
    (hcondition : Reads Readers.exp ts condition (.keyword .then :: us))
    (hbody : Reads Readers.chunk us body rest) :
    Reads readElseIf (.keyword .elseif :: ts) (.mk condition body) rest := by
  filter_upwards [hcondition, hbody] with r hcondition hbody
  simp [readElseIf, hcondition, hbody]

/-- Neither another clause of a conditional nor anything else goes on here. -/
def endsClauses (ts : List Token) : Bool :=
  match ts with
  | .lineEnd :: .keyword .elseif :: _ => false
  | _ => true

theorem reads_elseIfs_nil (h : endsClauses rest = true) : Reads Readers.elseIfs rest [] rest := by
  refine eventually_next (.of_forall fun r => ?_)
  show readElseIfs r rest = some ([], rest)
  unfold readElseIfs
  split
  · simp [endsClauses] at h
  · rfl

theorem reads_elseIfs_cons {clause : ElseIf} {clauses : List ElseIf}
    (hclause : Reads readElseIf (.keyword .elseif :: ts) clause us)
    (h : Reads Readers.elseIfs us clauses rest) :
    Reads Readers.elseIfs (.lineEnd :: .keyword .elseif :: ts) (clause :: clauses) rest := by
  refine eventually_next ?_
  filter_upwards [hclause, h] with r hclause h
  simp [Readers.next, readElseIfs, hclause, h]

theorem reads_else_none : Reads readElse (endTokens ++ rest) none (endTokens ++ rest) :=
  .of_forall fun _ => rfl

theorem reads_else_some {body : Chunk} (h : Reads Readers.chunk ts body rest) :
    Reads readElse (.lineEnd :: .keyword .else :: ts) (some body) rest := by
  filter_upwards [h] with r h
  simp [readElse, h]

/-! ### Statements -/

theorem reads_function {name : FuncName} {body : FuncBody} (hend : endsPath ts = true)
    (h : Reads readFuncBody ts body (endTokens ++ rest)) :
    Reads Readers.stat (.keyword .function :: (name.tokens ++ ts)) (.function name body) rest := by
  refine eventually_next ?_
  filter_upwards [h] with r h
  show readFunction r (name.tokens ++ ts) = some (.function name body, rest)
  simp [readFunction, readFuncName_tokens name hend, h, expectEnd_endTokens]

theorem reads_localFunction {n : Name} {body : FuncBody}
    (h : Reads readFuncBody ts body (endTokens ++ rest)) :
    Reads Readers.stat (.keyword .local :: .keyword .function :: .name n :: ts) (.localFunction n body)
      rest := by
  refine eventually_next ?_
  filter_upwards [h] with r h
  show readLocalFunction r n ts = some (.localFunction n body, rest)
  simp [readLocalFunction, h, expectEnd_endTokens]

theorem reads_if {condition : Exp} {body : Chunk} {elseIfs : List ElseIf} {elseBody : Option Chunk}
    {ws : List Token} (hcondition : Reads Readers.exp ts condition (.keyword .then :: us))
    (hbody : Reads Readers.chunk us body vs) (hclauses : Reads Readers.elseIfs vs elseIfs ws)
    (helse : Reads readElse ws elseBody (endTokens ++ rest)) :
    Reads Readers.stat (.keyword .if :: ts) (.ifThen condition body elseIfs elseBody) rest := by
  refine eventually_next ?_
  filter_upwards [hcondition, hbody, hclauses, helse] with r hcondition hbody hclauses helse
  show readIf r ts = some (.ifThen condition body elseIfs elseBody, rest)
  simp [readIf, hcondition, hbody, hclauses, helse, expectEnd_endTokens]

theorem reads_numericFor {n : Name} {values : List Exp} {body : Chunk} {s : Stat}
    (hvalues : Reads readExps ts values (.keyword .do :: us)) (hbody : Reads readBody us body rest)
    (hs : numericFor? [n] values body = some s) :
    Reads Readers.stat (.keyword .for :: .name n :: .symbol .assign :: ts) s rest := by
  refine eventually_next ?_
  filter_upwards [hvalues, hbody] with r hvalues hbody
  have hnames : readNames (.name n :: .symbol .assign :: ts) = some ([n], .symbol .assign :: ts) :=
    readNames_tokens (List.cons_ne_nil n []) rfl
  show readFor r (.name n :: .symbol .assign :: ts) = some (s, rest)
  simp [readFor, hnames, hvalues, hbody, hs]

theorem reads_genericFor {names : List Name} {values : List Exp} {body : Chunk} (hne : names ≠ [])
    (hvalues : Reads readExps ts values (.keyword .do :: us)) (hbody : Reads readBody us body rest) :
    Reads Readers.stat (.keyword .for :: (namesTokens names ++ .keyword .in :: ts))
      (.genericFor names values body) rest := by
  refine eventually_next ?_
  filter_upwards [hvalues, hbody] with r hvalues hbody
  have hnames : readNames (namesTokens names ++ .keyword .in :: ts) = some (names, .keyword .in :: ts) :=
    readNames_tokens hne rfl
  show readFor r (namesTokens names ++ .keyword .in :: ts) = some (.genericFor names values body, rest)
  simp [readFor, hnames, hvalues, hbody]

theorem reads_return_nil (h : endsLine rest = true) :
    Reads Readers.stat (.keyword .return :: rest) (.ret []) rest := by
  refine eventually_next (.of_forall fun r => ?_)
  show readReturn r rest = some (.ret [], rest)
  cases rest with
  | nil => rfl
  | cons t ts =>
    have ht : t = .lineEnd := by simpa [endsLine, startsWith] using h
    subst ht
    rfl

theorem reads_return {values : List Exp} (hstart : startsWith Token.startsExp ts = true)
    (h : Reads readExps ts values rest) :
    Reads Readers.stat (.keyword .return :: ts) (.ret values) rest := by
  refine eventually_next ?_
  obtain ⟨t, ts, rfl, ht⟩ := exists_of_startsWith hstart
  filter_upwards [h] with r h
  show readReturn r (t :: ts) = some (.ret values, rest)
  rw [readReturn]
  · simp [h]
  · simp
  · rintro ts' ⟨⟩
    exact absurd ht (by decide)

theorem reads_local_none {names : List Name} (hne : names ≠ []) (hlist : endsList rest = true)
    (hend : startsWith (· == .symbol .assign) rest = false) :
    Reads Readers.stat (.keyword .local :: (namesTokens names ++ rest)) (.localVars names none) rest := by
  refine eventually_next (.of_forall fun r => ?_)
  obtain ⟨n, names, rfl⟩ := List.exists_cons_of_ne_nil hne
  have hnames := readNames_tokens hne hlist
  show readLocal r (namesTokens (n :: names) ++ rest) = _
  simp only [readLocal, hnames, Option.bind_eq_bind, Option.bind_some]
  split
  · next heq =>
    cases heq
    simp [startsWith] at hend
  · next heq =>
    cases heq
    rfl

theorem reads_local_some {names : List Name} {values : List Exp} (hne : names ≠ [])
    (h : Reads readExps ts values rest) :
    Reads Readers.stat (.keyword .local :: (namesTokens names ++ .symbol .assign :: ts))
      (.localVars names (some values)) rest := by
  refine eventually_next ?_
  obtain ⟨n, names, rfl⟩ := List.exists_cons_of_ne_nil hne
  have hnames : readNames (namesTokens (n :: names) ++ .symbol .assign :: ts) =
      some (n :: names, .symbol .assign :: ts) := readNames_tokens hne rfl
  filter_upwards [h] with r h
  show readLocal r (namesTokens (n :: names) ++ .symbol .assign :: ts) = _
  rw [readLocal, hnames]
  simp [h]

theorem reads_block {body : Chunk} (h : Reads readBody ts body rest) :
    Reads Readers.stat (.keyword .do :: ts) (.block body) rest := by
  refine eventually_next ?_
  filter_upwards [h] with r h
  show readBlock r ts = some (.block body, rest)
  simp [readBlock, h]

theorem reads_repeat {body : Chunk} {condition : Exp}
    (hbody : Reads Readers.chunk ts body (.lineEnd :: .keyword .until :: us))
    (h : Reads Readers.exp us condition rest) :
    Reads Readers.stat (.keyword .repeat :: ts) (.repeatUntil body condition) rest := by
  refine eventually_next ?_
  filter_upwards [hbody, h] with r hbody h
  show readRepeat r ts = some (.repeatUntil body condition, rest)
  simp [readRepeat, hbody, h]

theorem reads_while {condition : Exp} {body : Chunk}
    (hcondition : Reads Readers.exp ts condition (.keyword .do :: us)) (h : Reads readBody us body rest) :
    Reads Readers.stat (.keyword .while :: ts) (.whileDo condition body) rest := by
  refine eventually_next ?_
  filter_upwards [hcondition, h] with r hcondition h
  show readWhile r ts = some (.whileDo condition body, rest)
  simp [readWhile, hcondition, h]

theorem reads_break : Reads Readers.stat (.keyword .break :: rest) .breakLoop rest :=
  eventually_next (.of_forall fun _ => rfl)

/-- A statement that begins with an expression begins with no word of its own. -/
theorem readStat_of_startsPrefix (r : Readers) (h : startsWith Token.startsPrefix ts = true) :
    readStat r ts = readPlainStat r ts := by
  obtain ⟨t, ts, rfl, ht⟩ := exists_of_startsWith h
  cases t with
  | keyword k => exact absurd ht (by simp [Token.startsPrefix])
  | _ => rfl

theorem reads_stat_call {c : Call} (hstart : startsWith Token.startsPrefix ts = true)
    (h : Reads Readers.prefixExp ts (.call c) rest) : Reads Readers.stat ts (.call c) rest := by
  refine eventually_next ?_
  filter_upwards [h] with r h
  show readStat r ts = _
  rw [readStat_of_startsPrefix r hstart]
  simp [readPlainStat, h]

/-- A list of variables begins with one, and goes on with the others. -/
theorem exists_of_readVars {r : Readers} {targets : List Var} {after : List Token}
    (h : readVars r ts = some (targets, after)) :
    ∃ v vs us, targets = v :: vs ∧ r.prefixExp ts = some (.var v, us) ∧
      r.moreVars us = some (vs, after) := by
  obtain ⟨⟨v, us⟩, hv, hrest⟩ := Option.bind_eq_some_iff.mp h
  obtain ⟨⟨vs, after'⟩, hvs, heq⟩ := Option.bind_eq_some_iff.mp hrest
  obtain ⟨⟨e, us'⟩, he, hvar⟩ := Option.bind_eq_some_iff.mp hv
  cases heq
  cases e with
  | var w =>
    cases hvar
    exact ⟨v, vs, us, rfl, he, hvs⟩
  | _ => simp at hvar

theorem reads_stat_assign {targets : List Var} {values : List Exp}
    (hstart : startsWith Token.startsPrefix ts = true)
    (htargets : Reads readVars ts targets (.symbol .assign :: us)) (h : Reads readExps us values rest) :
    Reads Readers.stat ts (.assign targets values) rest := by
  refine eventually_next ?_
  filter_upwards [htargets, h] with r htargets h
  -- the first target is read before it is known that it is one
  obtain ⟨v, vs, after, rfl, hv, hvs⟩ := exists_of_readVars htargets
  show readStat r ts = _
  rw [readStat_of_startsPrefix r hstart]
  simp [readPlainStat, hv, hvs, h]

end

end LuaUnparse
