import LuaUnparse.Lexicon.Name
import LuaUnparse.Tree.Kind

/-!
# `LuaUnparse.Fault` — why a tree cannot be written

A tree is refused where its text could not be read back: a name that is none, a number without digits,
or a list that the grammar wants filled and that is empty.

## Contents
- **Causes.** `Fault`, one constructor a cause.
- **Reports.** The form of the node at fault (`Fault.kind`), the wording (`Fault.reason`,
  `Fault.message`), and the code and the advice that all reports share.
-/

namespace LuaUnparse

/-- Why a node cannot be written. -/
inductive Fault where
  | invalidName (name : Name)
  | numberWithoutText
  | loopWithoutNames
  | loopWithoutValues
  | localWithoutNames
  | assignmentWithoutTargets
  | assignmentWithoutValues
  deriving DecidableEq

namespace Fault

/-- The form of the node at fault. -/
def kind : Fault → Kind
  | .invalidName _ => .name
  | .numberWithoutText => .numberExpression
  | .loopWithoutNames => .genericForStatement
  | .loopWithoutValues => .genericForStatement
  | .localWithoutNames => .localStatement
  | .assignmentWithoutTargets => .assignmentStatement
  | .assignmentWithoutValues => .assignmentStatement

/-- What is wrong with it. -/
def reason : Fault → String
  | .invalidName name => "`" ++ name ++ "` is not a valid name"
  | .numberWithoutText => "number has no raw text"
  | .loopWithoutNames => "loop declares no names"
  | .loopWithoutValues => "loop has no iterator expressions"
  | .localWithoutNames => "declaration has no names"
  | .assignmentWithoutTargets => "assignment has no targets"
  | .assignmentWithoutValues => "assignment has no values"

/-- The whole report. -/
def message (fault : Fault) : String :=
  "not implemented: " ++ fault.kind.tag ++ " (" ++ fault.reason ++ ")"

/-- The code under which a report is filed. -/
def code : String := "luagen::generate::unsupported_node"

/-- The advice that goes with a report. -/
def help : String :=
  "check how the offending node was constructed; " ++
    "the generator only renders trees that follow the syntax contract"

end Fault

end LuaUnparse
