import LuaUnparse.Proofs.Enclosure
import LuaUnparse.Proofs.Lifecycle
import LuaUnparse.Session

/-!
# `LuaUnparse.Proofs.Logging` — what the log says of a run

A run is logged by the pulls that bring it on its way and to its end. Here the records of each pull are
found, whichever stream is pulled and however often: the first pull logs the start, one pull logs the
outcome, and no other pull logs anything. The numbers in the last record are those of the run and of the
tree: how many texts there were, or how many blocks and tables enclose the node at fault.

## Contents
- **Records of a pull.** `Source.logged`, and how the two streams compare on a run that has begun.
- **Closing records.** `Record.closing`, and `logged_writing`: from any point of a walk, one record is still
  to come.
- **Whole runs.** `logged_events` and `logged_fragments`, and **`log_tells_the_run`**.
-/

namespace LuaUnparse

/-! ## Records of a pull -/

section

variable {Item : Type}

/-- What a pull logs, the first one being at index 0. -/
def Source.logged (source : Source Item) (index : Nat) (run : Run) : List Record :=
  (source.pull (source.after index run)).records

variable {source : Source Item} {run rest : Run} {item : Option Item} {records : List Record}

theorem logged_zero_of_pull (h : source.pull run = ⟨item, records, rest⟩) :
    source.logged 0 run = records := by
  show (source.pull run).records = records
  rw [h]

theorem logged_succ_of_pull (h : source.pull run = ⟨item, records, rest⟩) (index : Nat) :
    source.logged (index + 1) run = source.logged index rest := by
  show source.logged index (source.pull run).rest = source.logged index rest
  rw [h]

end

/-- A run that is over logs nothing any more. -/
theorem logged_closed (root : Node) (style : Style) (index : Nat) :
    Source.events.logged index ⟨root, style, .closed⟩ = [] := by
  induction index with
  | zero => rfl
  | succ index ih => exact ih

/-- A run that has begun does not begin again. -/
theorem next_of_begun {run : Run} (h : run.progress ≠ .waiting) :
    run.next.item ≠ some .start ∧ run.next.rest.progress ≠ .waiting := by
  obtain ⟨root, style, progress⟩ := run
  cases progress with
  | waiting => exact absurd rfl h
  | closed => exact ⟨nofun, nofun⟩
  | writing cursor written =>
    cases hs : cursor.seek with
    | wrote item next =>
      rw [next_of_wrote root style written hs]
      exact ⟨nofun, nofun⟩
    | failed fault depth =>
      rw [next_of_failed root style written hs]
      exact ⟨nofun, nofun⟩
    | ended =>
      rw [next_of_ended root style written hs]
      exact ⟨nofun, nofun⟩

/-- Once a run has begun, a pull of either stream logs the same and leaves the same. -/
theorem nextFragment_of_begun {run : Run} (h : run.progress ≠ .waiting) :
    run.nextFragment.records = run.next.records ∧ run.nextFragment.rest = run.next.rest := by
  cases hitem : run.next.item with
  | none =>
    rw [nextFragment_of_none hitem]
    exact ⟨rfl, rfl⟩
  | some event =>
    cases event with
    | start => exact absurd hitem (next_of_begun h).1
    | data text =>
      rw [nextFragment_of_data hitem]
      exact ⟨rfl, rfl⟩
    | finish =>
      rw [nextFragment_of_finish hitem]
      exact ⟨rfl, rfl⟩
    | failed fault =>
      rw [nextFragment_of_failed hitem]
      exact ⟨rfl, rfl⟩

/-- So all later pulls log the same, too. -/
theorem logged_of_begun {run : Run} (h : run.progress ≠ .waiting) (index : Nat) :
    Source.fragments.logged index run = Source.events.logged index run := by
  induction index generalizing run with
  | zero => exact (nextFragment_of_begun h).1
  | succ index ih =>
    show Source.fragments.logged index run.nextFragment.rest = Source.events.logged index run.next.rest
    rw [(nextFragment_of_begun h).2]
    exact ih (next_of_begun h).2

/-! ## Closing records -/

/-- The record of the end of a run: how many texts it gave, or where it failed. -/
def Record.closing (root : Kind) (written : Nat) : Option (Nat × Fault) → Record
  | none => .finished root written
  | some (depth, fault) => .aborted root fault.kind depth

/-- **From any point of a walk, one record is still to come**, and it comes with the pull that finds no text
any more. -/
theorem logged_writing (root : Node) (style : Style) (cursor : Cursor) (written index : Nat) :
    Source.events.logged index ⟨root, style, .writing cursor written⟩ =
      if index = cursor.layout.items.length then
        [.closing root.kind (written + cursor.layout.items.length) cursor.abort?]
      else [] := by
  induction h : cursor.weight using Nat.strongRecOn generalizing cursor written index with
  | _ weight ih =>
    subst h
    rw [cursor.layout_eq_seek, cursor.abort?_eq_seek]
    cases hs : cursor.seek with
    | wrote item next =>
      have hpull : Source.events.pull ⟨root, style, .writing cursor written⟩ = _ :=
        next_of_wrote root style written hs
      cases index with
      | zero =>
        -- a pull that gives a text logs nothing
        rw [logged_zero_of_pull hpull]
        rfl
      | succ index =>
        rw [logged_succ_of_pull hpull, ih _ (Cursor.weight_lt_of_seek hs) next (written + 1) index rfl]
        simp only [Stop.layout, Stop.abort?, Layout.cons, List.length_cons, Nat.add_right_cancel_iff]
        rw [Nat.add_right_comm, Nat.add_assoc]
    | failed fault depth =>
      have hpull : Source.events.pull ⟨root, style, .writing cursor written⟩ = _ :=
        next_of_failed root style written hs
      cases index with
      | zero => exact logged_zero_of_pull hpull
      | succ index =>
        rw [logged_succ_of_pull hpull]
        exact logged_closed root style index
    | ended =>
      have hpull : Source.events.pull ⟨root, style, .writing cursor written⟩ = _ :=
        next_of_ended root style written hs
      cases index with
      | zero => exact logged_zero_of_pull hpull
      | succ index =>
        rw [logged_succ_of_pull hpull]
        exact logged_closed root style index

/-! ## Whole runs -/

section

variable (root : Node) (style : Style) (index : Nat)

/-- The first event is the start, so the outcome comes one pull after the last text. -/
theorem logged_events :
    Source.events.logged index (Unparser.start ⟨root, style⟩) =
      (if index = 0 then [.started root.kind] else []) ++
        if index = root.rootLayout.items.length + 1 then
          [.closing root.kind root.rootLayout.items.length root.abort?]
        else [] := by
  cases index with
  | zero => rfl
  | succ index =>
    have hwriting := logged_writing root style (.atRoot root) 0 index
    rw [abort?_atRoot, Nat.zero_add] at hwriting
    simp only [Nat.add_right_cancel_iff, Nat.add_one_ne_zero, if_false, List.nil_append]
    exact hwriting

/-- The first pull passes over the start, and logs it. -/
theorem logged_fragments :
    Source.fragments.logged index (Unparser.start ⟨root, style⟩) =
      (if index = 0 then [.started root.kind] else []) ++
        if index = root.rootLayout.items.length then
          [.closing root.kind root.rootLayout.items.length root.abort?]
        else [] := by
  have hstart : Source.fragments.pull (Unparser.start ⟨root, style⟩) = _ := nextFragment_of_start rfl
  have hbegun : Run.progress ⟨root, style, .writing (.atRoot root) 0⟩ ≠ .waiting := nofun
  have hwriting := logged_writing root style (.atRoot root) 0 index
  rw [abort?_atRoot, Nat.zero_add, ← logged_of_begun hbegun] at hwriting
  cases index with
  | zero =>
    rw [logged_zero_of_pull hstart]
    exact congrArg ([.started root.kind] ++ ·) hwriting
  | succ index =>
    rw [logged_succ_of_pull hstart]
    simp only [Nat.add_one_ne_zero, if_false, List.nil_append]
    exact hwriting

end

/-- The fault of a walk through a whole tree is that of its layout. -/
theorem abort?_fault (root : Node) : root.abort?.map Prod.snd = root.rootLayout.fault := by
  have hpre : root.lineages.map Prod.snd = root.preorder := map_snd_traverse _ _ root
  rw [rootLayout_fault, ← hpre, List.findSome?_map, Node.abort?, List.map_findSome?]
  congr 1
  funext p
  cases hf : p.2.fault? <;> simp [hf]

/-- **The log tells the truth about a run.** Opening a stream logs nothing. The first pull logs that the run
has started, and no later one does. One pull logs the outcome: of the events the one that gives the outcome,
of the fragments the one that gives the fault or, if there is none, the first one that gives nothing. All
other pulls log nothing. The record of the outcome holds the number of texts; or, if the run fails, how many
blocks below the root and tables with entries enclose the node at fault, which is the first one of the
tree. -/
theorem log_tells_the_run (root : Node) (style : Style) :
    ∃ (texts : List String) (outcome : Option Fault) (closing : Record),
      (∀ index, Source.events.answer index (Unparser.start ⟨root, style⟩) =
        (.start :: texts.map Event.data ++ [.ending outcome])[index]?) ∧
      (∀ index, Source.fragments.answer index (Unparser.start ⟨root, style⟩) =
        (texts.map .ok ++ outcome.toList.map .error)[index]?) ∧
      (∀ (session : Session) (view : View), (session.perform (.open view)).records = []) ∧
      (∀ index, Source.events.logged index (Unparser.start ⟨root, style⟩) =
        (if index = 0 then [.started root.kind] else []) ++
          if index = texts.length + 1 then [closing] else []) ∧
      (∀ index, Source.fragments.logged index (Unparser.start ⟨root, style⟩) =
        (if index = 0 then [.started root.kind] else []) ++
          if index = texts.length then [closing] else []) ∧
      match outcome with
      | none => closing = .finished root.kind texts.length
      | some fault =>
        ∃ before above n after, root.lineages = before ++ (above, n) :: after ∧
          (∀ p ∈ before, p.2.fault? = none) ∧ n.fault? = some fault ∧
          closing = .aborted root.kind fault.kind (enclosures above) := by
  have hlength : (root.rootLayout.texts style).length = root.rootLayout.items.length := List.length_map _
  refine ⟨root.rootLayout.texts style, root.rootLayout.fault,
    .closing root.kind root.rootLayout.items.length root.abort?, answer_events root style,
    answer_fragments root style, fun _ _ => rfl, ?_, ?_, ?_⟩
  · intro index
    rw [hlength]
    exact logged_events root style index
  · intro index
    rw [hlength]
    exact logged_fragments root style index
  · rw [← abort?_fault, hlength]
    cases habort : root.abort? with
    | none => rfl
    | some abort =>
      obtain ⟨before, ⟨above, n⟩, after, hsplit, hfault, hbefore⟩ := List.findSome?_eq_some_iff.mp habort
      obtain ⟨fault, hn, rfl⟩ := Option.map_eq_some_iff.mp hfault
      refine ⟨before, above, n, after, hsplit, fun p hp => ?_, hn, rfl⟩
      exact Option.map_eq_none_iff.mp (hbefore p hp)

end LuaUnparse
