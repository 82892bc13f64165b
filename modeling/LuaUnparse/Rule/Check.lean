import LuaUnparse.Fault
import LuaUnparse.Tree.Node

/-!
# `LuaUnparse.Rule.Check` — which nodes cannot be written

A node is checked for what it writes itself, not for what its parts write: its names, its digits, and
the lists that must not be empty. Of several faults of one node the first one counts.

## Contents
- **Names.** `Name.fault?` and `firstInvalid?`.
- **Nodes.** A `fault?` for every type with something to check, and `Node.fault?` for all of them.
-/

namespace LuaUnparse

/-! ## Names -/

/-- The fault of a text that is no name. -/
def Name.fault? (name : Name) : Option Fault :=
  if name.isValid then none else some (.invalidName name)

/-- The fault of the first text in a list that is no name. -/
def firstInvalid? (names : List Name) : Option Fault :=
  names.findSome? Name.fault?

/-- The names of a function name, from left to right. -/
def FuncName.names (name : FuncName) : List Name :=
  name.base :: name.indexers ++ name.method.toList

/-! ## Nodes -/

/-- The fault of a statement. Lists of names are nodes of their own, checked only for being empty here. -/
def Stat.fault? : Stat → Option Fault
  | .localFunction name _ => name.fault?
  | .numericFor var .. => var.fault?
  | .genericFor names values _ =>
    if names.isEmpty then some .loopWithoutNames
    else if values.isEmpty then some .loopWithoutValues
    else none
  | .localVars names _ => if names.isEmpty then some .localWithoutNames else none
  | .assign targets values =>
    if targets.isEmpty then some .assignmentWithoutTargets
    else if values.isEmpty then some .assignmentWithoutValues
    else none
  | _ => none

/-- The fault of an expression: a number without digits. -/
def Exp.fault? : Exp → Option Fault
  | .number lit => if lit.raw.isEmpty then some .numberWithoutText else none
  | _ => none

/-- The fault of a variable: its name, or the name of its member. -/
def Var.fault? : Var → Option Fault
  | .name n => n.fault?
  | .member _ n => n.fault?
  | .index .. => none

/-- The fault of a call: the name of its method. -/
def Call.fault? : Call → Option Fault
  | .method _ name _ => name.fault?
  | .normal .. => none

/-- The fault of a table entry: the name of its key. -/
def Field.fault? : Field → Option Fault
  | .named name _ => name.fault?
  | .positional _ | .keyed .. => none

/-- The fault of a node itself, whatever its parts are. -/
def Node.fault? : Node → Option Fault
  | .stat s => s.fault?
  | .exp e => e.fault?
  | .var v => v.fault?
  | .call c => c.fault?
  | .field f => f.fault?
  | .funcName n => firstInvalid? n.names
  | .parList p => firstInvalid? p.names
  | .nameList ns => firstInvalid? ns
  | .name n => n.fault?
  | .chunk _ | .elseIf _ | .funcBody _ | .prefixExp _ | .args _ | .table _ | .expList _
  | .varList _ => none

end LuaUnparse
