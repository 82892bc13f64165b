import LuaUnparse.Proofs.Reading.Token

/-!
# `LuaUnparse.Proofs.Grammar.Derivation` — the grammar that trees follow

The grammar is the extended one of the Lua manual: a right-hand side may leave phrases out and repeat them.
What it derives are terminals, which tell every word and every mark apart, but of a name, a number or a
string only that it is one.

## Contents
- **Terminals.** `Terminal`, and `Token.terminal?`, the terminal of a token.
- **Rules.** `Nonterminal`, `Phrase`, and `Nonterminal.alternatives`, the right-hand sides of each rule.
- **Derivations.** `Derives`, which terminals a form derives, and `Derives.append`.
-/

namespace LuaUnparse

/-! ## Terminals -/

/-- What the grammar tells apart. -/
inductive Terminal where
  | name
  | number
  | string
  | keyword (word : Keyword)
  | symbol (symbol : Symbol)
  deriving DecidableEq

/-- The terminal of a token. The end of a line is none. -/
def Token.terminal? : Token → Option Terminal
  | .name _ => some .name
  | .number _ => some .number
  | .string _ => some .string
  | .keyword word => some (.keyword word)
  | .symbol s => some (.symbol s)
  | .lineEnd => none

/-- The terminal of an operator between two operands. -/
def BinOp.terminal : BinOp → Terminal
  | .or => .keyword .or
  | .and => .keyword .and
  | op => .symbol (.op op)

/-- The terminal of an operator before its operand. -/
def UnOp.terminal : UnOp → Terminal
  | .not => .keyword .not
  | .negate => .symbol (.op .sub)
  | .length => .symbol .hash
  | .bitNot => .symbol (.op .bitXor)

theorem BinOp.terminal?_token (op : BinOp) : op.token.terminal? = some op.terminal := by
  cases op <;> rfl

theorem UnOp.terminal?_token (op : UnOp) : op.token.terminal? = some op.terminal := by
  cases op <;> rfl

/-! ## Rules -/

/-- What the grammar has a rule for. -/
inductive Nonterminal where
  | chunk
  | stat
  | exp
  | prefixExp
  | var
  | functionCall
  | args
  | tableConstructor
  | field
  | funcName
  | funcBody
  | parList
  | nameList
  | expList
  | varList
  | binOp
  | unOp
  deriving DecidableEq

/-- A phrase of a right-hand side: a terminal, a nonterminal, phrases that may be left out, or phrases that
may come any number of times. -/
inductive Phrase where
  | terminal (terminal : Terminal)
  | nonterminal (nonterminal : Nonterminal)
  | optional (phrases : List Phrase)
  | many (phrases : List Phrase)

namespace Phrase

/-- A word. -/
def word (k : Keyword) : Phrase :=
  .terminal (.keyword k)

/-- A mark. -/
def mark (s : Symbol) : Phrase :=
  .terminal (.symbol s)

/-- A name. -/
def name : Phrase :=
  .terminal .name

/-- One of these, and any number of others after commas. -/
def listOf (item : Phrase) : List Phrase :=
  [item, .many [mark .comma, item]]

/-- The parameters of a function in their parentheses, and its block. -/
def paramsAndBlock : List Phrase :=
  [mark .openParen, .optional [.nonterminal .parList], mark .closeParen, .nonterminal .chunk]

/-- A condition and the block that it guards. -/
def guarded : List Phrase :=
  [.nonterminal .exp, word .then, .nonterminal .chunk]

end Phrase

section

open Phrase

/-- The right-hand sides of the rule for a nonterminal. -/
def Nonterminal.alternatives : Nonterminal → List (List Phrase)
  | .chunk => [[.many [.nonterminal .stat]]]
  | .stat =>
    [[.nonterminal .varList, mark .assign, .nonterminal .expList],
     [.nonterminal .functionCall],
     [word .do, .nonterminal .chunk, word .end],
     [word .while, .nonterminal .exp, word .do, .nonterminal .chunk, word .end],
     [word .repeat, .nonterminal .chunk, word .until, .nonterminal .exp],
     [word .if] ++ guarded ++ [.many (word .elseif :: guarded),
       .optional [word .else, .nonterminal .chunk], word .end],
     [word .for, name, mark .assign, .nonterminal .exp, mark .comma, .nonterminal .exp,
       .optional [mark .comma, .nonterminal .exp], word .do, .nonterminal .chunk, word .end],
     [word .for, .nonterminal .nameList, word .in, .nonterminal .expList, word .do,
       .nonterminal .chunk, word .end],
     [word .function, .nonterminal .funcName, .nonterminal .funcBody],
     [word .local, word .function, name, .nonterminal .funcBody],
     [word .local, .nonterminal .nameList, .optional [mark .assign, .nonterminal .expList]],
     [word .return, .optional [.nonterminal .expList]],
     [word .break]]
  | .exp =>
    [[word .nil], [word .false], [word .true], [.terminal .number], [.terminal .string],
     [mark .ellipsis], [.nonterminal .unOp, .nonterminal .exp],
     [.nonterminal .exp, .nonterminal .binOp, .nonterminal .exp],
     [word .function, .nonterminal .funcBody],
     [mark .openParen, .nonterminal .exp, mark .closeParen],
     [.nonterminal .tableConstructor], [.nonterminal .prefixExp]]
  | .prefixExp =>
    [[.nonterminal .var], [.nonterminal .functionCall],
     [mark .openParen, .nonterminal .exp, mark .closeParen]]
  | .var =>
    [[name], [.nonterminal .prefixExp, mark .openBracket, .nonterminal .exp, mark .closeBracket],
     [.nonterminal .prefixExp, mark .dot, name]]
  | .functionCall =>
    [[.nonterminal .prefixExp, .nonterminal .args],
     [.nonterminal .prefixExp, mark .colon, name, .nonterminal .args]]
  | .args =>
    [[mark .openParen, .optional [.nonterminal .expList], mark .closeParen],
     [.nonterminal .tableConstructor], [.terminal .string]]
  | .tableConstructor =>
    [[mark .openBrace, .many [.nonterminal .field, mark .comma], mark .closeBrace]]
  | .field =>
    [[mark .openBracket, .nonterminal .exp, mark .closeBracket, mark .assign, .nonterminal .exp],
     [name, mark .assign, .nonterminal .exp], [.nonterminal .exp]]
  | .funcName =>
    [[name, .many [mark .dot, name], .optional [mark .colon, name]]]
  | .funcBody => [paramsAndBlock ++ [word .end]]
  | .parList =>
    [[.nonterminal .nameList, .optional [mark .comma, mark .ellipsis]], [mark .ellipsis]]
  | .nameList => [listOf name]
  | .expList => [listOf (.nonterminal .exp)]
  | .varList => [listOf (.nonterminal .var)]
  | .binOp => BinOp.all.map fun op => [.terminal op.terminal]
  | .unOp => UnOp.all.map fun op => [.terminal op.terminal]

end

/-! ## Derivations -/

/-- The form derives the terminals. -/
inductive Derives : List Phrase → List Terminal → Prop
  | nil : Derives [] []
  | terminal (t : Terminal) {form : List Phrase} {ts : List Terminal} (rest : Derives form ts) :
      Derives (.terminal t :: form) (t :: ts)
  | nonterminal {n : Nonterminal} {alternative form : List Phrase} {ts us : List Terminal}
      (mem : alternative ∈ n.alternatives) (here : Derives alternative ts) (rest : Derives form us) :
      Derives (.nonterminal n :: form) (ts ++ us)
  | skip (phrases : List Phrase) {form : List Phrase} {ts : List Terminal} (rest : Derives form ts) :
      Derives (.optional phrases :: form) ts
  | take {phrases form : List Phrase} {ts us : List Terminal} (here : Derives phrases ts)
      (rest : Derives form us) : Derives (.optional phrases :: form) (ts ++ us)
  | stop (phrases : List Phrase) {form : List Phrase} {ts : List Terminal} (rest : Derives form ts) :
      Derives (.many phrases :: form) ts
  | again {phrases form : List Phrase} {ts us : List Terminal} (here : Derives phrases ts)
      (rest : Derives (.many phrases :: form) us) : Derives (.many phrases :: form) (ts ++ us)

/-- One form after another derives what they derive, one after the other. -/
theorem Derives.append {first second : List Phrase} {ts us : List Terminal} (h : Derives first ts)
    (hs : Derives second us) : Derives (first ++ second) (ts ++ us) := by
  induction h with
  | nil => exact hs
  | terminal t _ ih => exact .terminal t ih
  | nonterminal mem here _ _ ih =>
    rw [List.append_assoc]
    exact .nonterminal mem here ih
  | skip phrases _ ih => exact .skip phrases ih
  | take here _ _ ih =>
    rw [List.append_assoc]
    exact .take here ih
  | stop phrases _ ih => exact .stop phrases ih
  | again here _ _ ih =>
    rw [List.append_assoc]
    exact .again here ih

/-- What a right-hand side derives, its nonterminal derives. -/
theorem Derives.rule {n : Nonterminal} {alternative : List Phrase} {ts : List Terminal}
    (mem : alternative ∈ n.alternatives) (h : Derives alternative ts) :
    Derives [.nonterminal n] ts := by
  rw [← List.append_nil ts]
  exact .nonterminal mem h .nil

end LuaUnparse
