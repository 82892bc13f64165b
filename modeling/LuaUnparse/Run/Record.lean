import LuaUnparse.Tree.Kind

/-!
# `LuaUnparse.Run.Record` — what is logged about a run

## Contents
- **Records.** `Record`, with its `Record.level` and its wording, `Record.title`.
-/

namespace LuaUnparse

/-- How much detail a reader of the log asks for to see a record. -/
inductive Level where
  | info
  | debug
  | trace
  deriving DecidableEq

/-- An entry of the log. `root` is the form of the root of the run. -/
inductive Record where
  /-- A whole text was asked for. -/
  | requested (root : Kind)
  /-- The first item of a run was pulled. -/
  | started (root : Kind)
  /-- A run came to its end, after that many texts. -/
  | finished (root : Kind) (fragments : Nat)
  /-- A run met a node at fault, of the form `fault`, at that depth. -/
  | aborted (root fault : Kind) (depth : Nat)
  deriving DecidableEq

namespace Record

/-- The level of a record. -/
def level : Record → Level
  | .requested _ => .info
  | .started _ => .trace
  | .finished .. => .debug
  | .aborted .. => .debug

/-- What a record says happened. -/
def title : Record → String
  | .requested _ => "generate"
  | .started _ => "generation started"
  | .finished .. => "generation finished"
  | .aborted .. => "generation aborted"

end Record

end LuaUnparse
