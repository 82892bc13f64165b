import LuaUnparse.Lexicon.Vocabulary

/-!
# `LuaUnparse.Lexicon.Keyword` — the reserved words

## Contents
- **Words.** `Keyword`, one constructor a reserved word, and their list `Keyword.all`.
- **Spellings.** `Keyword.spelling`, with which the words are a `Keyword.vocabulary`, and the look-up
  `Keyword.ofSpelling?` in it.
-/

namespace LuaUnparse

/-- The words that no name may be. -/
inductive Keyword where
  | and
  | «break»
  | «do»
  | «else»
  | elseif
  | «end»
  | false
  | «for»
  | function
  | goto
  | «if»
  | «in»
  | «local»
  | nil
  | not
  | or
  | «repeat»
  | «return»
  | «then»
  | true
  | «until»
  | «while»
  deriving DecidableEq

namespace Keyword

/-- Every reserved word, in alphabetical order. -/
def all : List Keyword :=
  [.and, .break, .do, .else, .elseif, .end, .false, .for, .function, .goto, .if, .in, .local, .nil,
    .not, .or, .repeat, .return, .then, .true, .until, .while]

/-- The word as it is written. -/
def spelling : Keyword → String
  | .and => "and"
  | .break => "break"
  | .do => "do"
  | .else => "else"
  | .elseif => "elseif"
  | .end => "end"
  | .false => "false"
  | .for => "for"
  | .function => "function"
  | .goto => "goto"
  | .if => "if"
  | .in => "in"
  | .local => "local"
  | .nil => "nil"
  | .not => "not"
  | .or => "or"
  | .repeat => "repeat"
  | .return => "return"
  | .then => "then"
  | .true => "true"
  | .until => "until"
  | .while => "while"

/-- The reserved words and their spellings. -/
def vocabulary : Vocabulary Keyword where
  words := all
  spelling := spelling
  found k := by cases k <;> decide

/-- The reserved word spelled `text`. -/
def ofSpelling? (text : String) : Option Keyword :=
  vocabulary.ofSpelling? text

/-- Whether the text is a reserved word. -/
def isReserved (text : String) : Bool :=
  (ofSpelling? text).isSome

end Keyword

end LuaUnparse
