import LuaUnparse.Run.Source

/-!
# `LuaUnparse.Unparser` — writing a tree

An unparser is a tree and a style. It never changes: every run that it starts is a run of its own.

## Contents
- **Streams.** `Unparser.events` and `Unparser.fragments`, all that a run gives.
- **Whole texts.** `Unparser.text`, and `unparse` for a tree on its own.
-/

namespace LuaUnparse

/-- A tree to write, and the style to write it in. -/
structure Unparser where
  root : Node
  style : Style := {}

/-- The whole text, if no fragment is a fault; else the first fault. -/
def joinFragments (fragments : List (Except Fault String)) : Except Fault String :=
  (fragments.mapM id).map String.join

namespace Unparser

/-! ## Streams -/

/-- A run from the beginning. -/
def start (unparser : Unparser) : Run :=
  { root := unparser.root, style := unparser.style }

/-- All events of a run. -/
def events (unparser : Unparser) : List Event :=
  (Source.events.drain unparser.start).items

/-- All texts of a run, and the fault if there is one. -/
def fragments (unparser : Unparser) : List (Except Fault String) :=
  (Source.fragments.drain unparser.start).items

/-! ## Whole texts -/

/-- The whole text, or why there is none. -/
def text (unparser : Unparser) : Except Fault String :=
  joinFragments unparser.fragments

/-- What is logged while the whole text is made. -/
def textRecords (unparser : Unparser) : List Record :=
  .requested unparser.root.kind :: (Source.fragments.drain unparser.start).records

end Unparser

/-- The text of a tree in a style, or why there is none. -/
def unparse (root : Node) (style : Style := {}) : Except Fault String :=
  Unparser.text ⟨root, style⟩

end LuaUnparse
