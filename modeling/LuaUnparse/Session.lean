import LuaUnparse.Unparser

/-!
# `LuaUnparse.Session` — several runs of one unparser

A session opens runs of one unparser and pulls items from them in any order. Streams are numbered from
0 in the order in which they were opened.

## Contents
- **Sessions.** `View`, `Stream` and `Session`.
- **Commands.** `Command`, `Answer`, and what one command does, `Session.perform`.
- **Scripts.** `Session.performAll`, one reply for each command.
-/

namespace LuaUnparse

/-! ## Sessions -/

/-- What a stream gives: every event, or the texts and the fault only. -/
inductive View where
  | events
  | fragments
  deriving DecidableEq

/-- A fragment seen as an event. -/
def Event.ofFragment : Except Fault String → Event
  | .ok text => .data text
  | .error fault => .failed fault

/-- The items that a view pulls from a run. -/
def View.source : View → Source Event
  | .events => .events
  | .fragments => Source.fragments.map Event.ofFragment

/-- A run, and what is pulled from it. -/
structure Stream where
  view : View
  run : Run

/-- One unparser, and the streams opened on it. A stream that was dropped is `none`. -/
structure Session where
  unparser : Unparser
  streams : List (Option Stream) := []

/-! ## Commands -/

/-- What a session can be asked to do. -/
inductive Command where
  /-- Opens a stream. -/
  | «open» (view : View)
  /-- The next item of a stream. -/
  | next (handle : Nat)
  /-- The next items of a stream, up to a number of them. -/
  | take (handle count : Nat)
  /-- All the items left in a stream. -/
  | rest (handle : Nat)
  /-- Ends a stream. -/
  | drop (handle : Nat)
  /-- The whole text, also as a copy of the unparser gives it: an unparser never changes, so a copy of it is
  the unparser itself. -/
  | text
  | style
  | kind
  deriving DecidableEq

/-- What a session answers. -/
inductive Answer where
  | handle (handle : Nat)
  | item (item : Option Event)
  | items (items : List Event)
  | dropped
  | text (text : Except Fault String)
  | style (style : Style)
  | kind (kind : Kind)

/-- An answer, what was logged while it was found, and the session after it. -/
structure Reply where
  answer : Answer
  records : List Record
  session : Session

namespace Session

/-- The stream with this number, unless there is none or it was dropped. -/
def stream? (session : Session) (handle : Nat) : Option Stream :=
  (session.streams[handle]?).join

/-- Puts a run back after items were pulled from it. -/
def resume (session : Session) (handle : Nat) (stream : Stream) (run : Run) : Session :=
  { session with streams := session.streams.set handle (some { stream with run }) }

/-- Carries out one command. A stream that was dropped acts as one that has ended. -/
def perform (session : Session) : Command → Reply
  | .open view =>
    ⟨.handle session.streams.length, [],
      { session with
        streams := session.streams ++ [some ⟨view, session.unparser.start⟩] }⟩
  | .next handle =>
    match session.stream? handle with
    | none => ⟨.item none, [], session⟩
    | some stream =>
      let pull := stream.view.source.pull stream.run
      ⟨.item pull.item, pull.records, session.resume handle stream pull.rest⟩
  | .take handle count =>
    match session.stream? handle with
    | none => ⟨.items [], [], session⟩
    | some stream =>
      let batch := stream.view.source.take count stream.run
      ⟨.items batch.items, batch.records, session.resume handle stream batch.rest⟩
  | .rest handle =>
    match session.stream? handle with
    | none => ⟨.items [], [], session⟩
    | some stream =>
      let batch := stream.view.source.drain stream.run
      ⟨.items batch.items, batch.records, session.resume handle stream batch.rest⟩
  | .drop handle => ⟨.dropped, [], { session with streams := session.streams.set handle none }⟩
  | .text => ⟨.text session.unparser.text, session.unparser.textRecords, session⟩
  | .style => ⟨.style session.unparser.style, [], session⟩
  | .kind => ⟨.kind session.unparser.root.kind, [], session⟩

/-! ## Scripts -/

/-- Carries out commands one after the other. -/
def performAll (session : Session) : List Command → List Reply
  | [] => []
  | command :: rest =>
    let reply := session.perform command
    reply :: reply.session.performAll rest

end Session

end LuaUnparse
