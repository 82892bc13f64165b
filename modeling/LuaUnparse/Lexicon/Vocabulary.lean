/-!
# `LuaUnparse.Lexicon.Vocabulary` — words and how they are spelled

## Contents
- **Vocabularies.** `Vocabulary`, the words of a kind with their spellings, no two of which are alike.
- **Look-up.** `Vocabulary.ofSpelling?`, which is inverse to spelling (`ofSpelling?_eq_some_iff`).
-/

namespace LuaUnparse

/-! ## Vocabularies -/

/-- The words of a kind, and how each of them is spelled. -/
structure Vocabulary (Word : Type) where
  words : List Word
  spelling : Word → String
  /-- Every word is listed, and none before it is spelled like it. -/
  found : ∀ word, words.find? (spelling · == spelling word) = some word

namespace Vocabulary

variable {Word : Type} (vocabulary : Vocabulary Word)

theorem mem_words (word : Word) : word ∈ vocabulary.words :=
  List.mem_of_find?_eq_some (vocabulary.found word)

/-! ## Look-up -/

/-- The word spelled `text`, letter case included. -/
def ofSpelling? (text : String) : Option Word :=
  vocabulary.words.find? (vocabulary.spelling · == text)

/-- Looking up and spelling are inverse to each other. -/
theorem ofSpelling?_eq_some_iff {text : String} {word : Word} :
    vocabulary.ofSpelling? text = some word ↔ vocabulary.spelling word = text := by
  constructor
  · intro h
    have hspelled : (vocabulary.spelling word == text) = true :=
      List.find?_some (p := (vocabulary.spelling · == text)) h
    exact beq_iff_eq.mp hspelled
  · rintro rfl
    exact vocabulary.found word

end Vocabulary

end LuaUnparse
