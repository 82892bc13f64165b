import LuaUnparse.Layout
import LuaUnparse.Session
import LuaUnparse.Proofs.Depth
import LuaUnparse.Proofs.Refinement
import LuaUnparse.Proofs.Failure
import LuaUnparse.Proofs.Lifecycle
import LuaUnparse.Proofs.Advance
import LuaUnparse.Proofs.Compositionality
import LuaUnparse.Proofs.Balance
import LuaUnparse.Proofs.Termination
import LuaUnparse.Proofs.Parametricity
import LuaUnparse.Proofs.Enclosure
import LuaUnparse.Proofs.Logging
import LuaUnparse.Proofs.Seam
import LuaUnparse.Proofs.Separation
import LuaUnparse.Proofs.Reading.Plain
import LuaUnparse.Proofs.Reading.Token
import LuaUnparse.Proofs.Reading.Lexing
import LuaUnparse.Proofs.Reading.Spelling
import LuaUnparse.Proofs.Reading.Reader
import LuaUnparse.Proofs.Reading.Rules
import LuaUnparse.Proofs.Reading.RoundTrip
import LuaUnparse.Proofs.Erasure
import LuaUnparse.Proofs.Annotation
import LuaUnparse.Proofs.Equality
import LuaUnparse.Proofs.Grammar.Derivation
import LuaUnparse.Proofs.Grammar.Fragment
import LuaUnparse.Proofs.Grammar.Conformity
import LuaUnparse.Proofs.Grouping
import LuaUnparse.Proofs.Readability
import LuaUnparse.Proofs.Quotation
import LuaUnparse.Proofs.LineBreak.Scan
import LuaUnparse.Proofs.LineBreak.Tracking
import LuaUnparse.Proofs.LineBreak.Recovery
import LuaUnparse.Proofs.Independence
import LuaUnparse.Proofs.Monitor.Basic
import LuaUnparse.Proofs.Monitor.Nesting
import LuaUnparse.Proofs.Monitor.Indentation
import LuaUnparse.Proofs.Monitor.Leaves
import LuaUnparse.Proofs.Monitor.BlankLine
import LuaUnparse.Proofs.Frame
import LuaUnparse.Proofs.Repair
import LuaUnparse.Proofs.Sequence
import LuaUnparse.Proofs.Equivalence
import LuaUnparse.Proofs.DottedPath
import LuaUnparse.Proofs.NameLists
import LuaUnparse.Proofs.VisibleSpelling
import LuaUnparse.Proofs.LeadingMinus
