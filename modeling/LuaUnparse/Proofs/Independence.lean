import LuaUnparse.Proofs.Lifecycle
import LuaUnparse.Session

/-!
# `LuaUnparse.Proofs.Independence` — the streams of a session do not disturb each other

A session keeps any number of runs, each of them pulled to another point. All that matters of such a run
is the list of the items that it still has to give. Pulling takes items off the front of that list, a
stream that was dropped has an empty one, and a command about one stream leaves the lists of the others
alone. So a stream answers what it would answer if there were no other one, whatever is done in between.

## Contents
- **What is left.** `Source.left`, and what pulls, batches and drains take off it.
- **Ledgers.** `Session.ledger`, what is left of every stream, and what a command reads in it and enters in
  it (`perform_answer`, `ledger_perform`).
- **Scripts.** `Session.answers` and `Session.after`.
- **One stream alone.** `answersFrom`, the answers that a list of items gives, and
  **`runs_independent`** for a whole script.
-/

namespace LuaUnparse

/-! ## What is left -/

section

variable {Item Other : Type}

/-- The items that a run still has to give. -/
def Source.left (source : Source Item) (run : Run) : List Item :=
  (source.drain run).items

variable {source : Source Item}

/-- A pull gives the first item that is left. -/
theorem pull_item_eq_head? (source : Source Item) (run : Run) :
    (source.pull run).item = (source.left run).head? := by
  unfold Source.left
  cases hitem : (source.pull run).item with
  | none =>
    rw [Source.drain_of_none hitem]
    rfl
  | some item =>
    rw [Source.drain_of_some hitem]
    rfl

/-- A pull leaves all items but the first one. -/
theorem left_pull (hfused : source.Fused) (run : Run) :
    source.left (source.pull run).rest = (source.left run).tail := by
  unfold Source.left
  cases hitem : (source.pull run).item with
  | none =>
    rw [Source.drain_of_none hitem, Source.drain_of_none (hfused run hitem)]
    rfl
  | some item =>
    rw [Source.drain_of_some hitem]
    rfl

/-- A batch takes its items off the front, and leaves the others. -/
theorem take_eq_left (hfused : source.Fused) (count : Nat) (run : Run) :
    (source.take count run).items = (source.left run).take count ∧
      source.left (source.take count run).rest = (source.left run).drop count := by
  induction count generalizing run with
  | zero => exact ⟨rfl, rfl⟩
  | succ count ih =>
    have hhead := pull_item_eq_head? source run
    have htail := left_pull hfused run
    rw [Source.take]
    cases hleft : source.left run with
    | nil =>
      rw [hleft] at hhead htail
      simp only [hhead, List.head?_nil]
      exact ⟨rfl, htail⟩
    | cons item items =>
      rw [hleft] at hhead htail
      obtain ⟨hitems, hrest⟩ := ih (source.pull run).rest
      simp only [hhead, List.head?_cons]
      rw [hitems, hrest, htail]
      exact ⟨rfl, rfl⟩

/-- A drain leaves nothing. -/
theorem left_drain (hfused : source.Fused) (run : Run) :
    source.left (source.drain run).rest = [] := by
  -- a drain is a batch of more items than there are
  have hbatch : source.take (run.weight + 1) run = source.drain run :=
    source.take_eq_drain (Nat.lt_succ_self run.weight)
  obtain ⟨hitems, hrest⟩ := take_eq_left hfused (run.weight + 1) run
  rw [hbatch] at hitems hrest
  have hlength : (source.left run).length = min (run.weight + 1) (source.left run).length := by
    rw [← List.length_take, ← hitems]
    rfl
  rw [hrest]
  exact List.drop_eq_nil_of_le (by omega)

theorem fused_map (f : Item → Other) (hfused : source.Fused) : (source.map f).Fused := by
  intro run h
  have hnone : (source.pull run).item = none := Option.map_eq_none_iff.mp h
  exact Option.map_eq_none_iff.mpr (hfused run hnone)

theorem left_map (f : Item → Other) (source : Source Item) (run : Run) :
    (source.map f).left run = (source.left run).map f := by
  induction h : run.weight using Nat.strongRecOn generalizing run with
  | _ weight ih =>
    subst h
    unfold Source.left
    cases hitem : (source.pull run).item with
    | none =>
      have hmapped : ((source.map f).pull run).item = none := Option.map_eq_none_iff.mpr hitem
      rw [Source.drain_of_none hitem, Source.drain_of_none hmapped]
      rfl
    | some item =>
      have hmapped : ((source.map f).pull run).item = some (f item) :=
        Option.map_eq_some_iff.mpr ⟨item, hitem, rfl⟩
      have hlater := ih _ (source.weight_lt run (hitem ▸ rfl)) (source.pull run).rest rfl
      rw [Source.drain_of_some hitem, Source.drain_of_some hmapped]
      exact congrArg (f item :: ·) hlater

end

theorem fused_view (view : View) : view.source.Fused := by
  cases view with
  | events => exact fused_events
  | fragments => exact fused_map Event.ofFragment fused_fragments

/-- All that a fresh run gives in a view. -/
def Unparser.stream (unparser : Unparser) : View → List Event
  | .events => unparser.events
  | .fragments => unparser.fragments.map Event.ofFragment

/-- A run that has just begun still has everything to give. -/
theorem left_start (unparser : Unparser) (view : View) :
    view.source.left unparser.start = unparser.stream view := by
  cases view with
  | events => rfl
  | fragments => exact left_map Event.ofFragment .fragments unparser.start

/-! ## Ledgers -/

/-- What is left of a stream: nothing, if it was dropped. -/
def Stream.left? : Option Stream → List Event
  | none => []
  | some stream => stream.view.source.left stream.run

/-- What is left of every stream, in the order in which they were opened. -/
def Session.ledger (session : Session) : List (List Event) :=
  session.streams.map Stream.left?

namespace Command

/-- What a command answers, read off the ledger. -/
def answer (unparser : Unparser) (ledger : List (List Event)) : Command → Answer
  | .open _ => .handle ledger.length
  | .next handle => .item (ledger.getD handle []).head?
  | .take handle count => .items ((ledger.getD handle []).take count)
  | .rest handle => .items (ledger.getD handle [])
  | .drop _ => .dropped
  | .text => .text unparser.text
  | .style => .style unparser.style
  | .kind => .kind unparser.root.kind

/-- The stream that a command is about. -/
def handle? : Command → Option Nat
  | .next handle | .take handle _ | .rest handle | .drop handle => some handle
  | .open _ | .text | .style | .kind => none

/-- What a command leaves of the items of the stream that it is about. -/
def leave (items : List Event) : Command → List Event
  | .next _ => items.tail
  | .take _ count => items.drop count
  | .rest _ | .drop _ => []
  | .open _ | .text | .style | .kind => items

/-- Whether the command opens a stream. -/
def isOpen : Command → Bool
  | .open _ => true
  | _ => false

end Command

namespace Session

variable {session : Session} {handle : Nat} {stream : Stream}

/-- Nothing is left of a stream that was dropped, or never opened. -/
theorem ledger_of_none (h : session.stream? handle = none) : session.ledger.getD handle [] = [] := by
  unfold stream? at h
  rw [ledger, List.getD_eq_getElem?_getD, List.getElem?_map]
  cases hs : session.streams[handle]? with
  | none => rfl
  | some entry =>
    rw [hs, Option.join_some] at h
    rw [h]
    rfl

theorem ledger_of_some (h : session.stream? handle = some stream) :
    session.ledger[handle]? = some (stream.view.source.left stream.run) := by
  unfold stream? at h
  rw [ledger, List.getElem?_map, Option.join_eq_some_iff.mp h]
  rfl

/-- **A command answers what it reads in the ledger.** -/
theorem perform_answer (session : Session) (command : Command) :
    (session.perform command).answer = command.answer session.unparser session.ledger := by
  cases command with
  | «open» view =>
    show Answer.handle _ = .handle _
    rw [ledger, List.length_map]
  | next handle =>
    rw [perform, Command.answer]
    cases hs : session.stream? handle with
    | none => rw [ledger_of_none hs]; rfl
    | some stream =>
      rw [List.getD_eq_getElem?_getD, ledger_of_some hs]
      exact congrArg Answer.item (pull_item_eq_head? _ _)
  | take handle count =>
    rw [perform, Command.answer]
    cases hs : session.stream? handle with
    | none => rw [ledger_of_none hs, List.take_nil]
    | some stream =>
      rw [List.getD_eq_getElem?_getD, ledger_of_some hs]
      exact congrArg Answer.items (take_eq_left (fused_view _) count _).1
  | rest handle =>
    rw [perform, Command.answer]
    cases hs : session.stream? handle with
    | none => rw [ledger_of_none hs]
    | some stream =>
      rw [List.getD_eq_getElem?_getD, ledger_of_some hs]
      rfl
  | drop handle => rfl
  | text => rfl
  | style => rfl
  | kind => rfl

/-- A stream that gives nothing is left as it is. -/
theorem leave_of_none {index : Nat} {items : List Event} {f : List Event → List Event}
    (hf : f [] = []) (h : session.stream? handle = none) (hitems : session.ledger[index]? = some items) :
    session.ledger[index]? = some (if some handle = some index then f items else items) := by
  rw [hitems]
  split
  · next heq =>
    have hempty : items = [] := by
      rw [← ledger_of_none h, List.getD_eq_getElem?_getD, Option.some.inj heq, hitems]
      rfl
    rw [hempty, hf]
  · rfl

/-- What a run leaves is entered in the ledger, for the stream that was pulled and for no other one. -/
theorem leave_of_some {index : Nat} {items : List Event} {f : List Event → List Event} {run : Run}
    (h : session.stream? handle = some stream) (hitems : session.ledger[index]? = some items)
    (hleft : stream.view.source.left run = f (stream.view.source.left stream.run)) :
    (session.resume handle stream run).ledger[index]? =
      some (if some handle = some index then f items else items) := by
  have hset : (session.resume handle stream run).ledger =
      session.ledger.set handle (stream.view.source.left run) := List.map_set
  rw [hset]
  split
  · next heq =>
    obtain rfl := Option.some.inj heq
    have hsome : items = stream.view.source.left stream.run :=
      Option.some.inj (hitems.symm.trans (ledger_of_some h))
    rw [hleft, hsome, List.getElem?_set_self (List.getElem?_eq_some_iff.mp hitems).1]
  · next hne => rw [List.getElem?_set_ne (fun heq => hne (congrArg some heq)), hitems]

/-- A stream that is opened is the last one, and has everything to give. -/
theorem ledger_open (session : Session) (view : View) :
    (session.perform (.open view)).session.ledger =
      session.ledger ++ [session.unparser.stream view] := by
  show (session.streams ++ [some (Stream.mk view session.unparser.start)]).map Stream.left? = _
  rw [List.map_append]
  exact congrArg (session.ledger ++ [·]) (left_start session.unparser view)

/-- **A command takes items from the stream that it is about**, and leaves all others alone. -/
theorem ledger_perform (command : Command) {index : Nat} {items : List Event}
    (h : session.ledger[index]? = some items) :
    (session.perform command).session.ledger[index]? =
      some (if command.handle? = some index then command.leave items else items) := by
  cases command with
  | «open» view =>
    rw [ledger_open, List.getElem?_append_left (List.getElem?_eq_some_iff.mp h).1]
    exact h
  | next handle =>
    rw [perform]
    cases hs : session.stream? handle with
    | none => exact leave_of_none List.tail_nil hs h
    | some stream => exact leave_of_some hs h (left_pull (fused_view _) _)
  | take handle count =>
    rw [perform]
    cases hs : session.stream? handle with
    | none => exact leave_of_none (f := List.drop count) List.drop_nil hs h
    | some stream => exact leave_of_some hs h (take_eq_left (fused_view _) count _).2
  | rest handle =>
    rw [perform]
    cases hs : session.stream? handle with
    | none => exact leave_of_none (f := fun _ => []) rfl hs h
    | some stream => exact leave_of_some (f := fun _ => []) hs h (left_drain (fused_view _) _)
  | drop handle =>
    have hset : (session.perform (.drop handle)).session.ledger = session.ledger.set handle [] :=
      List.map_set
    rw [hset]
    by_cases heq : handle = index
    · subst heq
      rw [List.getElem?_set_self (List.getElem?_eq_some_iff.mp h).1]
      exact congrArg some (if_pos rfl).symm
    · rw [List.getElem?_set_ne heq, h]
      exact congrArg some (if_neg fun he => heq (Option.some.inj he)).symm
  | text => exact h
  | style => exact h
  | kind => exact h

theorem length_ledger_perform (session : Session) (command : Command) :
    (session.perform command).session.ledger.length =
      session.ledger.length + if command.isOpen then 1 else 0 := by
  cases command with
  | «open» view =>
    rw [ledger_open, List.length_append]
    rfl
  | next handle =>
    rw [perform]
    cases session.stream? handle <;> simp [ledger, resume, Command.isOpen]
  | take handle count =>
    rw [perform]
    cases session.stream? handle <;> simp [ledger, resume, Command.isOpen]
  | rest handle =>
    rw [perform]
    cases session.stream? handle <;> simp [ledger, resume, Command.isOpen]
  | drop handle => simp [perform, ledger, Command.isOpen]
  | text => rfl
  | style => rfl
  | kind => rfl

theorem unparser_perform (session : Session) (command : Command) :
    (session.perform command).session.unparser = session.unparser := by
  cases command with
  | next handle => rw [perform]; cases session.stream? handle <;> rfl
  | take handle count => rw [perform]; cases session.stream? handle <;> rfl
  | rest handle => rw [perform]; cases session.stream? handle <;> rfl
  | _ => rfl

/-! ## Scripts -/

/-- What a session answers to commands one after the other. -/
def answers (session : Session) (commands : List Command) : List Answer :=
  (session.performAll commands).map Reply.answer

/-- The session after commands. -/
def after (session : Session) : List Command → Session
  | [] => session
  | command :: rest => (session.perform command).session.after rest

theorem answers_cons (session : Session) (command : Command) (rest : List Command) :
    session.answers (command :: rest) =
      (session.perform command).answer :: (session.perform command).session.answers rest := rfl

theorem length_answers (session : Session) (commands : List Command) :
    (session.answers commands).length = commands.length := by
  induction commands generalizing session with
  | nil => rfl
  | cons command rest ih => rw [answers_cons, List.length_cons, List.length_cons, ih]

theorem answers_append (session : Session) (first second : List Command) :
    session.answers (first ++ second) =
      session.answers first ++ (session.after first).answers second := by
  induction first generalizing session with
  | nil => rfl
  | cons command rest ih => rw [List.cons_append, answers_cons, answers_cons, ih]; rfl

/-- The answer to a command is the one that the session gives after the commands before it. -/
theorem getElem?_answers (session : Session) (before : List Command) (command : Command)
    (later : List Command) :
    (session.answers (before ++ command :: later))[before.length]? =
      some ((session.after before).perform command).answer := by
  have hlength := length_answers session before
  rw [answers_append, List.getElem?_append_right (Nat.le_of_eq hlength), hlength, Nat.sub_self]
  rfl

/-- The answers that follow are those of the session after the command. -/
theorem drop_answers (session : Session) (before : List Command) (command : Command)
    (later : List Command) :
    (session.answers (before ++ command :: later)).drop (before.length + 1) =
      ((session.after before).perform command).session.answers later := by
  rw [answers_append, ← length_answers session before, List.drop_length_add_append]
  rfl

theorem unparser_after (session : Session) (commands : List Command) :
    (session.after commands).unparser = session.unparser := by
  induction commands generalizing session with
  | nil => rfl
  | cons command rest ih =>
    show ((session.perform command).session.after rest).unparser = _
    rw [ih, unparser_perform]

/-- There are as many streams as were opened. -/
theorem length_ledger_after (session : Session) (commands : List Command) :
    (session.after commands).ledger.length =
      session.ledger.length + commands.countP Command.isOpen := by
  induction commands generalizing session with
  | nil => rfl
  | cons command rest ih =>
    show ((session.perform command).session.after rest).ledger.length = _
    rw [ih, length_ledger_perform, List.countP_cons]
    omega

end Session

/-! ## One stream alone -/

/-- The items of an answer. -/
def Answer.given : Answer → List Event
  | .item next => next.toList
  | .items list => list
  | .handle _ | .dropped | .text _ | .style _ | .kind _ => []

/-- What a command about a stream answers if these items are left of it. -/
def Command.answerFrom (items : List Event) : Command → Answer
  | .next _ => .item items.head?
  | .take _ count => .items (items.take count)
  | .rest _ => .items items
  | _ => .dropped

/-- What commands about one stream answer, if there is no other one. -/
def answersFrom (items : List Event) : List Command → List Answer
  | [] => []
  | command :: rest => command.answerFrom items :: answersFrom (command.leave items) rest

/-- How many items commands about one stream ask for, up to the one that drops it. The stream has that many
items in all. -/
def asked (total : Nat) : List Command → Nat
  | [] => 0
  | .next _ :: rest => 1 + asked total rest
  | .take _ count :: rest => count + asked total rest
  | .rest _ :: rest => total + asked total rest
  | .drop _ :: _ => 0
  | _ :: rest => asked total rest

/-- The commands about one stream. -/
def commandsTo (handle : Nat) (commands : List Command) : List Command :=
  commands.filter (·.handle? == some handle)

/-- The answers to the commands about one stream. -/
def answersTo (handle : Nat) (commands : List Command) (answers : List Answer) : List Answer :=
  ((commands.zip answers).filter (·.1.handle? == some handle)).map (·.2)

theorem Command.answer_eq_answerFrom {unparser : Unparser} {ledger : List (List Event)}
    {command : Command} {handle : Nat} {items : List Event} (h : command.handle? = some handle)
    (hitems : ledger[handle]? = some items) :
    command.answer unparser ledger = command.answerFrom items := by
  cases command with
  | next _ | take _ _ | rest _ =>
    obtain rfl := Option.some.inj h
    rw [answer, List.getD_eq_getElem?_getD, hitems]
    rfl
  | drop _ => rfl
  | _ => exact absurd h (by simp [handle?])

/-- **A stream answers as if there were no other one**, whatever else is done meanwhile. -/
theorem answersTo_eq_answersFrom {handle : Nat} (commands : List Command) {session : Session}
    {items : List Event} (h : session.ledger[handle]? = some items) :
    answersTo handle commands (session.answers commands) =
      answersFrom items (commandsTo handle commands) := by
  induction commands generalizing session items with
  | nil => rfl
  | cons command rest ih =>
    have hleft := session.ledger_perform command h
    rw [Session.answers_cons, answersTo, commandsTo, List.zip_cons_cons]
    by_cases hhandle : command.handle? = some handle
    · rw [if_pos hhandle] at hleft
      have hanswer : (session.perform command).answer = command.answerFrom items := by
        rw [session.perform_answer, Command.answer_eq_answerFrom hhandle h]
      rw [List.filter_cons_of_pos (by simpa using hhandle),
        List.filter_cons_of_pos (by simpa using hhandle), List.map_cons, answersFrom, hanswer]
      exact congrArg (command.answerFrom items :: ·) (ih hleft)
    · rw [if_neg hhandle] at hleft
      rw [List.filter_cons_of_neg (by simpa using hhandle),
        List.filter_cons_of_neg (by simpa using hhandle)]
      exact ih hleft

/-- The items that one stream gives are the first ones of all that it has, as many as are asked for. -/
theorem given_answersFrom {total : Nat} (commands : List Command) {items : List Event}
    (h : items.length ≤ total) :
    (answersFrom items commands).flatMap Answer.given = items.take (asked total commands) := by
  induction commands generalizing items with
  | nil => rfl
  | cons command rest ih =>
    have hleave : (command.leave items).length ≤ total := by
      cases command with
      | next _ | take _ _ =>
        simp only [Command.leave, List.length_tail, List.length_drop]
        omega
      | rest _ | drop _ => exact Nat.zero_le total
      | _ => exact h
    rw [answersFrom, List.flatMap_cons, ih hleave]
    cases command with
    | next _ =>
      rw [asked, Nat.add_comm]
      cases items with
      | nil => simp [Command.answerFrom, Command.leave, Answer.given]
      | cons item items => rfl
    | take _ count =>
      rw [asked, List.take_add]
      rfl
    | rest _ =>
      rw [asked, List.take_of_length_le (Nat.le_add_right_of_le h), Command.leave, List.take_nil,
        List.append_nil]
      rfl
    | drop _ =>
      rw [asked, Command.leave, List.take_nil]
      rfl
    | _ => rfl

/-- A session without streams. -/
def Unparser.session (unparser : Unparser) : Session :=
  { unparser }

/-- The stream that is opened after other commands has everything to give, and the number of the streams
opened before. -/
theorem ledger_of_open (unparser : Unparser) (before : List Command) (view : View) :
    ((unparser.session.after before).perform (.open view)).session.ledger[
      before.countP Command.isOpen]? = some (unparser.stream view) := by
  have hlength : (unparser.session.after before).ledger.length = before.countP Command.isOpen := by
    rw [Session.length_ledger_after]
    exact Nat.zero_add _
  rw [Session.ledger_open, Session.unparser_after, ← hlength, List.getElem?_concat_length]
  rfl

/-- **The runs of one unparser are independent.** Take any commands, and any of them that opens a stream.
The stream gets the number of streams opened before. To the commands about it that follow, up to the one
that drops it and after that, it answers as if they were given to a list of items of their own, namely to
all that a fresh run of the unparser gives in that view: so the items that it gives are the first of these,
as many as were asked for, and none once it has ended or was dropped. The whole text, the style and the
kind are answered at any time as they are at the beginning. -/
theorem runs_independent (unparser : Unparser) :
    (∀ before view later,
      let handle := before.countP Command.isOpen
      let stream := unparser.stream view
      let answers := unparser.session.answers (before ++ .open view :: later)
      let own := answersTo handle later (answers.drop (before.length + 1))
      answers[before.length]? = some (.handle handle) ∧
      own = answersFrom stream (commandsTo handle later) ∧
      own.flatMap Answer.given = stream.take (asked stream.length (commandsTo handle later))) ∧
    ∀ before later,
      let answers command := unparser.session.answers (before ++ command :: later)
      (answers .text)[before.length]? = some (.text (unparse unparser.root unparser.style)) ∧
      (answers .style)[before.length]? = some (.style unparser.style) ∧
      (answers .kind)[before.length]? = some (.kind unparser.root.kind) := by
  have hanswer : ∀ before command later,
      (unparser.session.answers (before ++ command :: later))[before.length]? =
        some (command.answer unparser (unparser.session.after before).ledger) := by
    intro before command later
    rw [Session.getElem?_answers, Session.perform_answer, Session.unparser_after]
    rfl
  refine ⟨fun before view later => ?_, fun before later => ?_⟩
  · intro handle stream answers own
    have hown : own = answersFrom stream (commandsTo handle later) := by
      show answersTo handle later (answers.drop (before.length + 1)) = _
      rw [Session.drop_answers]
      exact answersTo_eq_answersFrom later (ledger_of_open unparser before view)
    refine ⟨?_, hown, ?_⟩
    · have hlength := Session.length_ledger_after unparser.session before
      rw [hanswer, Command.answer, hlength]
      exact congrArg (some ∘ Answer.handle) (Nat.zero_add handle)
    · rw [hown]
      exact given_answersFrom _ (Nat.le_refl stream.length)
  · exact ⟨hanswer before .text later, hanswer before .style later, hanswer before .kind later⟩

end LuaUnparse
