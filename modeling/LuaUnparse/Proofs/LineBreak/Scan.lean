import LuaUnparse.Proofs.Grammar.Fragment

/-!
# `LuaUnparse.Proofs.LineBreak.Scan` — where the line breaks were

A reader of fragments from which the line breaks have been dropped can tell where most of them stood: before
the words that begin a statement or close a block, after the brace and the commas of a table, and before a
name that follows the end of an expression. A parenthesis leaves it in doubt, because after an expression
that may be called it holds arguments. Of all that has been read, the reader keeps in mind in what part of
a construct it is and which braces are open.

## Contents
- **Fragments.** `Role`, what a fragment is to the reader, and `Role.of`, the role of a text.
- **Modes.** `Mode`, where in a construct the reader is; `Mode.breaks` and `Mode.next`, what a fragment
  means there.
- **Scanning.** `Scan`, a mode and the open braces, and `recover`, which puts the line breaks back.
-/

namespace LuaUnparse

/-! ## Fragments -/

/-- Where in a construct a reader of fragments is. -/
inductive Mode where
  /-- An expression, a variable or another part of the same construct comes next. -/
  | inside
  /-- After the brace or a comma of a table: the next fragment stands on a new line. -/
  | entry
  /-- A name comes next in a list of local variables. -/
  | declaring
  /-- After a name in a list of local variables. -/
  | declared
  /-- In the head of a function, before its parameters. -/
  | heading
  /-- In the parameters of a function. -/
  | params
  /-- A line may end here, and no arguments may follow. -/
  | complete
  /-- A line may end here, but arguments may follow. -/
  | callable
  /-- In a string literal, with a flag whether arguments may follow it. -/
  | quoted (callable : Bool)
  deriving DecidableEq

/-- The mode after an expression, with a flag whether arguments may follow it. -/
def Mode.closed (callable : Bool) : Mode :=
  if callable then .callable else .complete

/-- What a fragment is to the reader. -/
inductive Role where
  | name
  /-- A word with which a line begins, and the mode after it. -/
  | lead (next : Mode)
  /-- Any text that stays on its line, and the mode after it. -/
  | stay (next : Mode)
  /-- A comma, a dot or a colon between names or expressions. -/
  | link
  | openParen
  | closeParen
  | openBrace
  | closeBrace
  | braces
  | entryEnd
  | quote
  deriving DecidableEq

/-- The role of a text that is neither a name nor a number. -/
def Role.ofMark : String → Role
  | "function " | "local function " => .lead .heading
  | "local " => .lead .declaring
  | "if " | "for " | "while " | "elseif " | "until " => .lead .inside
  | "return" | "break" | "do" | "repeat" | "else" | "end" => .lead .complete
  | "function" => .stay .heading
  | "nil" | "true" | "false" | "..." | " then" | " do" => .stay .complete
  | "]" => .stay .callable
  | ", " | "." | ":" => .link
  | "(" => .openParen
  | ")" => .closeParen
  | "\x7b" => .openBrace
  | "\x7d" => .closeBrace
  | "\x7b\x7d" => .braces
  | "," => .entryEnd
  | "\"" => .quote
  | _ => .stay .inside

/-- The role of a text. -/
def Role.of (text : String) : Role :=
  if Name.isValid text then .name
  else if text.toList.head?.any Char.isDigit then .stay .complete
  else .ofMark text

/-! ## Modes -/

namespace Mode

/-- Whether arguments may follow. -/
def isCallable : Mode → Bool
  | .callable => true
  | _ => false

/-- Whether a fragment in this role stands on a new line. -/
def breaks : Mode → Role → Bool
  | .entry, _ => true
  | .complete, .openParen | .declared, .openParen => true
  | .complete, .name | .declared, .name | .callable, .name => true
  | .complete, .lead _ | .declared, .lead _ | .callable, .lead _ => true
  | _, _ => false

/-- Whether a fragment in this role stays on the line, and is not part of a string literal. -/
def stays : Mode → Role → Bool
  | .quoted _, _ => false
  | mode, role => !mode.breaks role

/-- The mode after a fragment on the same line. The braces of a table are left to `Scan.next`. -/
def next : Mode → Role → Mode
  | .params, .closeParen => .complete
  | .params, _ => .params
  | .heading, .openParen => .params
  | .heading, _ => .heading
  | .declaring, _ => .declared
  | .declared, .link => .declaring
  | _, .name => .callable
  | _, .lead mode => mode
  | _, .stay mode => mode
  | _, .link => .inside
  | _, .openParen => .inside
  | _, .closeParen => .callable
  | mode, .braces => .closed mode.isCallable
  | mode, .quote => .quoted mode.isCallable
  | _, .entryEnd => .entry
  | mode, .openBrace | mode, .closeBrace => mode

end Mode

/-! ## Scanning -/

/-- What a reader keeps in mind: its mode, and of each open brace whether arguments may follow its table. -/
structure Scan where
  mode : Mode
  braces : List Bool

namespace Scan

/-- After a fragment on the same line. -/
def next (scan : Scan) : Role → Scan
  | .openBrace => ⟨.entry, scan.mode.isCallable :: scan.braces⟩
  | .closeBrace => ⟨.closed (scan.braces.headD false), scan.braces.tail⟩
  | role => ⟨scan.mode.next role, scan.braces⟩

/-- At the beginning of a line. -/
def atLine (scan : Scan) : Scan :=
  ⟨.inside, scan.braces⟩

end Scan

/-- An item, with nothing in the place of a line break. -/
def Item.mark : Item → Option String
  | .text t => some t
  | .lineBreak _ => none

/-- Puts the line breaks back between fragments, with nothing in their places. -/
def recover : Scan → List String → List (Option String)
  | _, [] => []
  | scan, t :: rest =>
    match scan.mode with
    | .quoted callable =>
      -- the escaped text of a literal is no quote, so the next quote closes it
      some t :: recover (if t = "\"" then ⟨.closed callable, scan.braces⟩ else scan) rest
    | mode =>
      if mode.breaks (.of t) then none :: some t :: recover (scan.atLine.next (.of t)) rest
      else some t :: recover (scan.next (.of t)) rest

/-- A fragment on the same line. -/
theorem recover_stay {scan : Scan} {t : String} (h : scan.mode.stays (.of t) = true) (rest : List String) :
    recover scan (t :: rest) = some t :: recover (scan.next (.of t)) rest := by
  obtain ⟨mode, braces⟩ := scan
  cases mode with
  | quoted callable => simp [Mode.stays] at h
  | _ =>
    rw [Mode.stays, Bool.not_eq_true'] at h
    · rw [recover]
      simp only
      rw [h]
      rfl
    · simp

/-- A fragment on a new line is read as the first one of a construct. -/
theorem recover_break {scan : Scan} {t : String} (h : scan.mode.breaks (.of t) = true)
    (rest : List String) : recover scan (t :: rest) = none :: recover scan.atLine (t :: rest) := by
  obtain ⟨mode, braces⟩ := scan
  have hline : recover ⟨.inside, braces⟩ (t :: rest) =
      some t :: recover (Scan.next ⟨.inside, braces⟩ (.of t)) rest := recover_stay rfl rest
  rw [Scan.atLine, hline]
  cases mode with
  | quoted callable => simp [Mode.breaks] at h
  | _ =>
    rw [recover]
    simp only
    rw [h]
    rfl

/-- A string literal, from its opening quote on. -/
theorem recover_string (value : String) {scan : Scan} (h : scan.mode.stays .quote = true)
    {callable : Bool} (hnext : scan.next .quote = ⟨.quoted callable, scan.braces⟩) (rest : List String) :
    recover scan ((quotedItems value).map ({} : Style).write ++ rest) =
      (quotedItems value).map Item.mark ++ recover ⟨.closed callable, scan.braces⟩ rest := by
  have hrole : Role.of "\"" = .quote := by decide
  have hescape := (escape_ne_quote value).1
  have hopen : ∀ more, recover scan ("\"" :: more) =
      some "\"" :: recover ⟨.quoted callable, scan.braces⟩ more := by
    intro more
    rw [recover_stay (hrole ▸ h), hrole, hnext]
  have hclose : recover ⟨.quoted callable, scan.braces⟩ ("\"" :: rest) =
      some "\"" :: recover ⟨.closed callable, scan.braces⟩ rest := by
    rw [recover]
    rfl
  unfold quotedItems
  by_cases hempty : Quoted.escape value = ""
  · rw [if_pos hempty]
    show recover scan ("\"" :: "\"" :: rest) = _
    rw [hopen, hclose]
    rfl
  · rw [if_neg hempty]
    show recover scan ("\"" :: Quoted.escape value :: "\"" :: rest) = _
    rw [hopen, recover]
    simp only [if_neg hescape]
    rw [hclose]
    rfl

end LuaUnparse
