import LuaUnparse.Proofs.Reading.Plain

/-!
# `LuaUnparse.Proofs.Reading.Token` — texts cut into tokens

A reader of texts begins by cutting them into tokens. Blanks are dropped, but the ends of lines are kept,
because they keep a statement apart from the next one.

## Contents
- **Tokens.** `Symbol` and `Token`, and the token of each operator.
- **One token.** `takeToken?`, which takes the longest token off the front of a text.
- **All tokens.** `lex?`, and `lex?_of_takeToken?`, one step of it.
-/

namespace LuaUnparse

/-! ## Tokens -/

/-- The marks that are neither words nor literals. An operator spelled with a word is none of them. -/
inductive Symbol where
  | openParen
  | closeParen
  | openBrace
  | closeBrace
  | openBracket
  | closeBracket
  | dot
  | colon
  | comma
  | assign
  | ellipsis
  | hash
  | op (operator : BinOp)
  deriving DecidableEq

/-- The mark as it is written. -/
def Symbol.spelling : Symbol → String
  | .openParen => "("
  | .closeParen => ")"
  | .openBrace => "\x7b"
  | .closeBrace => "\x7d"
  | .openBracket => "["
  | .closeBracket => "]"
  | .dot => "."
  | .colon => ":"
  | .comma => ","
  | .assign => "="
  | .ellipsis => "..."
  | .hash => "#"
  | .op operator => operator.spelling

/-- Every mark, a longer one before those that it begins with. -/
def Symbol.all : List Symbol :=
  [.ellipsis, .op .concat, .dot, .op .eq, .assign, .op .le, .op .shiftLeft, .op .lt, .op .ge,
    .op .shiftRight, .op .gt, .op .ne, .op .bitXor, .op .floorDiv, .op .div, .op .bitOr, .op .bitAnd,
    .op .add, .op .sub, .op .mul, .op .mod, .op .pow, .hash, .openParen, .closeParen, .openBrace,
    .closeBrace, .openBracket, .closeBracket, .colon, .comma]

/-- A unit of a text. -/
inductive Token where
  | name (name : Name)
  | keyword (word : Keyword)
  | number (raw : String)
  | string (value : String)
  | symbol (symbol : Symbol)
  | lineEnd
  deriving DecidableEq

/-- The token of an operator between two operands. -/
def BinOp.token : BinOp → Token
  | .or => .keyword .or
  | .and => .keyword .and
  | op => .symbol (.op op)

/-- The token of an operator before its operand. -/
def UnOp.token : UnOp → Token
  | .not => .keyword .not
  | .negate => .symbol (.op .sub)
  | .length => .symbol .hash
  | .bitNot => .symbol (.op .bitXor)

namespace Token

/-- The operator between two operands that a token may be. -/
def binOp? (token : Token) : Option BinOp :=
  BinOp.all.find? (·.token == token)

/-- The operator before an operand that a token may be. -/
def unOp? (token : Token) : Option UnOp :=
  UnOp.all.find? (·.token == token)

theorem binOp?_token (op : BinOp) : binOp? op.token = some op := by
  cases op <;> rfl

theorem unOp?_token (op : UnOp) : unOp? op.token = some op := by
  cases op <;> rfl

/-- The token of a word. -/
def ofWord (word : String) : Token :=
  match Keyword.ofSpelling? word with
  | some k => .keyword k
  | none => .name word

theorem ofWord_spelling (k : Keyword) : ofWord k.spelling = .keyword k := by
  have hfound : Keyword.ofSpelling? k.spelling = some k := Keyword.vocabulary.ofSpelling?_eq_some_iff.mpr rfl
  rw [ofWord, hfound]

theorem ofWord_of_isValid {name : Name} (h : name.isValid = true) : ofWord name = .name name := by
  have hfree := (Bool.and_eq_true_iff.mp h).2
  rw [Keyword.isReserved, Bool.not_eq_true', Option.isSome_eq_false_iff, Option.isNone_iff_eq_none] at hfree
  rw [ofWord, hfree]

end Token

/-! ## One token -/

/-- The mark at the front of a text. -/
def Symbol.at? (cs : List Char) : Option Symbol :=
  all.find? (·.spelling.toList.isPrefixOf cs)

/-- Takes the longest token off the front of a text, or a blank, which is none. -/
def takeToken? : List Char → Option (List Token × List Char)
  | [] => none
  | c :: rest =>
    if c = ' ' then some ([], rest)
    else if c = '\n' then some ([.lineEnd], rest)
    else if c = '"' then
      (Quoted.scanBody? rest).map fun (value, after) => ([.string (String.ofList value)], after)
    else if Name.isStart c then
      some ([.ofWord (String.ofList (c :: rest.takeWhile Name.isPart))], rest.dropWhile Name.isPart)
    else if c.isDigit then
      some ([.number (String.ofList (c :: rest.takeWhile NumberLit.isPart))],
        rest.dropWhile NumberLit.isPart)
    else (Symbol.at? (c :: rest)).map fun s => ([.symbol s], rest.drop (s.spelling.length - 1))

theorem length_lt_of_scanBody? {cs value after : List Char}
    (h : Quoted.scanBody? cs = some (value, after)) : after.length < cs.length := by
  fun_induction Quoted.scanBody? cs generalizing value with
  | case1 => simp at h
  | case2 rest => simp_all
  | case3 => simp at h
  | case4 c rest hspecial ih =>
    obtain ⟨⟨v, a⟩, hv, heq⟩ := Option.map_eq_some_iff.mp h
    cases heq
    have := ih hv
    simp only [List.length_cons]
    omega
  | case5 => simp at h
  | case6 => simp at h
  | case7 c rest _ _ _ hspecial ih =>
    obtain ⟨⟨v, a⟩, hv, heq⟩ := Option.map_eq_some_iff.mp h
    cases heq
    have := ih hv
    simp only [List.length_cons]
    omega

/-- What is left is shorter. -/
theorem length_lt_of_takeToken? {cs after : List Char} {tokens : List Token}
    (h : takeToken? cs = some (tokens, after)) : after.length < cs.length := by
  cases cs with
  | nil => simp [takeToken?] at h
  | cons c rest =>
    rw [takeToken?] at h
    rw [List.length_cons]
    have hwhile : ∀ p : Char → Bool, (rest.dropWhile p).length ≤ rest.length := fun p =>
      (List.dropWhile_suffix p).length_le
    split at h
    · cases h
      omega
    split at h
    · cases h
      omega
    split at h
    · obtain ⟨⟨value, after'⟩, hv, heq⟩ := Option.map_eq_some_iff.mp h
      cases heq
      have := length_lt_of_scanBody? hv
      omega
    split at h
    · cases h
      have := hwhile Name.isPart
      omega
    split at h
    · cases h
      have := hwhile NumberLit.isPart
      omega
    · obtain ⟨s, hs, heq⟩ := Option.map_eq_some_iff.mp h
      cases heq
      have := rest.length_drop (i := s.spelling.length - 1)
      omega

/-! ## All tokens -/

/-- Cuts a text into tokens, if it consists of nothing else. -/
def lex? (cs : List Char) : Option (List Token) :=
  match h : takeToken? cs with
  | some (tokens, after) =>
    have := length_lt_of_takeToken? h
    (lex? after).map (tokens ++ ·)
  | none => if cs.isEmpty then some [] else none
termination_by cs.length

theorem lex?_nil : lex? [] = some [] := by
  rw [lex?]
  rfl

/-- The first token, and then the others. -/
theorem lex?_of_takeToken? {cs after : List Char} {tokens : List Token}
    (h : takeToken? cs = some (tokens, after)) : lex? cs = (lex? after).map (tokens ++ ·) := by
  rw [lex?]
  split
  · next h' =>
    rw [h] at h'
    cases h'
    rfl
  · next h' => simp [h] at h'

end LuaUnparse
