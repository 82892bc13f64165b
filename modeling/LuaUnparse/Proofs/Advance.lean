import LuaUnparse.Proofs.Refinement

/-!
# `LuaUnparse.Proofs.Advance` — a run, move by move

Between two items a run may make many moves that show nothing: it opens a level, or puts the shape of a
node in the place of the node. Here a run is followed from move to move, so that one can say where it
stands in the middle of a pull.

## Contents
- **One move.** `Run.advance`, which gives one event at most, and `drain_items_advance`: the pulls from
  here give that event, and then what they give from the next place.
- **Many moves.** `Run.Reaches`, from one place of a run to a later one, with the events in between; what
  is pulled is what the moves give (`drain_items_of_reaches`).
- **Pulls.** `next_eq_advance`: a pull makes moves that show nothing, and then the one that gives its event;
  so it is a way of many moves itself (`reaches_next`, `reaches_nextFragment`).
- **Layouts.** `Run.Writes`: the moves write a layout, over any pending pieces (`writes_pieces`).
-/

namespace LuaUnparse

/-! ## One move -/

/-- One move of a run: the event that it gives, if it gives one, and the run after it. -/
def Run.advance (run : Run) : Option Event × Run :=
  match run.progress with
  | .waiting => (some .start, { run with progress := .writing (.atRoot run.root) 0 })
  | .writing cursor written =>
    match cursor.move with
    | .silent next => (none, { run with progress := .writing next written })
    | .write item next =>
      (some (.data (run.style.write item)), { run with progress := .writing next (written + 1) })
    | .fail fault => (some (.failed fault), { run with progress := .closed })
    | .done => (some .finish, { run with progress := .closed })
  | .closed => (none, run)

section

variable (root : Node) (style : Style) {cursor next : Cursor} (written : Nat)

theorem advance_of_silent (h : cursor.move = .silent next) :
    Run.advance ⟨root, style, .writing cursor written⟩ = (none, ⟨root, style, .writing next written⟩) := by
  simp [Run.advance, h]

theorem advance_of_write {item : Item} (h : cursor.move = .write item next) :
    Run.advance ⟨root, style, .writing cursor written⟩ =
      (some (.data (style.write item)), ⟨root, style, .writing next (written + 1)⟩) := by
  simp [Run.advance, h]

theorem advance_of_fail {fault : Fault} (h : cursor.move = .fail fault) :
    Run.advance ⟨root, style, .writing cursor written⟩ =
      (some (.failed fault), ⟨root, style, .closed⟩) := by
  simp [Run.advance, h]

theorem advance_of_done (h : cursor.move = .done) :
    Run.advance ⟨root, style, .writing cursor written⟩ = (some .finish, ⟨root, style, .closed⟩) := by
  simp [Run.advance, h]

/-- Nothing is left in a run that is over. -/
theorem drain_events_closed : (Source.events.drain ⟨root, style, .closed⟩).items = [] := by
  have hclosed : Source.events.pull ⟨root, style, .closed⟩ = ⟨none, [], _⟩ := rfl
  exact drain_items_of_none hclosed

end

/-- **A move takes the event that it gives off those to come**, and no other. -/
theorem drain_items_advance (run : Run) :
    (Source.events.drain run).items =
      run.advance.1.toList ++ (Source.events.drain run.advance.2).items := by
  obtain ⟨root, style, progress⟩ := run
  cases progress with
  | waiting => exact drain_events_start root style
  | closed => rfl
  | writing cursor written =>
    rw [drain_events_writing, cursor.layout_eq_move]
    cases hm : cursor.move with
    | silent next =>
      rw [advance_of_silent root style written hm, drain_events_writing]
      rfl
    | write item next =>
      rw [advance_of_write root style written hm, drain_events_writing]
      rfl
    | fail fault =>
      rw [advance_of_fail root style written hm, drain_events_closed]
      rfl
    | done =>
      rw [advance_of_done root style written hm, drain_events_closed]
      rfl

/-! ## Many moves -/

/-- From one place of a run to a later one, with the events that the moves in between give. -/
inductive Run.Reaches : Run → List Event → Run → Prop
  | stay {run : Run} : run.Reaches [] run
  | move {run last : Run} {events : List Event} (later : run.advance.2.Reaches events last) :
      run.Reaches (run.advance.1.toList ++ events) last

namespace Run.Reaches

theorem trans {first second third : Run} {events events' : List Event} (h : first.Reaches events second)
    (h' : second.Reaches events' third) : first.Reaches (events ++ events') third := by
  induction h with
  | stay => exact h'
  | move _ ih =>
    rw [List.append_assoc]
    exact .move (ih h')

/-- One move, if one knows what it comes to. -/
theorem of_advance {run next : Run} {event : Option Event} (h : run.advance = (event, next)) :
    run.Reaches event.toList next := by
  have hmove : run.Reaches (run.advance.1.toList ++ []) run.advance.2 := .move .stay
  rw [h, List.append_nil] at hmove
  exact hmove

end Run.Reaches

/-- **What is pulled is what the moves give**: the events up to a later place of the run, and then those to
come from there. -/
theorem drain_items_of_reaches {run last : Run} {events : List Event} (h : run.Reaches events last) :
    (Source.events.drain run).items = events ++ (Source.events.drain last).items := by
  induction h with
  | stay => rfl
  | move _ ih => rw [drain_items_advance, ih, List.append_assoc]

/-! ## Pulls -/

/-- A move that shows nothing is no pull of its own. -/
theorem next_of_silent (root : Node) (style : Style) {cursor next : Cursor} (written : Nat)
    (h : cursor.move = .silent next) :
    Run.next ⟨root, style, .writing cursor written⟩ = Run.next ⟨root, style, .writing next written⟩ := by
  simp [Run.next, Cursor.seek_of_silent h]

/-- **A pull is a number of moves that show nothing, and one more move**, which gives what the pull gives and
leaves what the pull leaves. -/
theorem next_eq_advance (run : Run) :
    ∃ pausing, run.Reaches [] pausing ∧ pausing.advance = (run.next.item, run.next.rest) := by
  obtain ⟨root, style, progress⟩ := run
  cases progress with
  | waiting => exact ⟨_, .stay, rfl⟩
  | closed => exact ⟨_, .stay, rfl⟩
  | writing cursor written =>
    fun_induction Cursor.seek cursor with
    | case1 cursor next h lt ih =>
      obtain ⟨pausing, hreach, hadvance⟩ := ih
      rw [next_of_silent root style written h]
      exact ⟨pausing, (Run.Reaches.of_advance (advance_of_silent root style written h)).trans hreach,
        hadvance⟩
    | case2 cursor item next h =>
      rw [next_of_wrote root style written (Cursor.seek_of_write h)]
      exact ⟨_, .stay, advance_of_write root style written h⟩
    | case3 cursor fault h =>
      rw [next_of_failed root style written (Cursor.seek_of_fail h)]
      exact ⟨_, .stay, advance_of_fail root style written h⟩
    | case4 cursor h =>
      rw [next_of_ended root style written (Cursor.seek_of_done h)]
      exact ⟨_, .stay, advance_of_done root style written h⟩

/-- A pull of the events leads on to a later place of the run. -/
theorem reaches_next (run : Run) : run.Reaches run.next.item.toList run.next.rest := by
  obtain ⟨pausing, hreach, hadvance⟩ := next_eq_advance run
  exact hreach.trans (.of_advance hadvance)

/-- A pull of the fragments does so, too, if perhaps past the start. -/
theorem reaches_nextFragment (run : Run) : ∃ events, run.Reaches events run.nextFragment.rest := by
  fun_induction Run.nextFragment run with
  | case1 run pull hstart lt later ih =>
    obtain ⟨events, hlater⟩ := ih
    exact ⟨_, (reaches_next run).trans hlater⟩
  | case2 run pull text hdata => exact ⟨_, reaches_next run⟩
  | case3 run pull fault hfailed => exact ⟨_, reaches_next run⟩
  | case4 run pull hfinish => exact ⟨_, reaches_next run⟩
  | case5 run pull hnone => exact ⟨_, reaches_next run⟩

/-! ## Layouts -/

section

variable (root : Node) (style : Style)

/-- The events of the items of a layout. -/
def Layout.data (layout : Layout) : List Event :=
  layout.items.map fun item => .data (style.write item)

/-- From one cursor the moves write a layout. Then they are at the other cursor, or the run is over, if a
node at fault cuts the layout short. -/
def Run.Writes (cursor : Cursor) (layout : Layout) (last : Cursor) : Prop :=
  ∀ written,
    match layout.fault with
    | none => Reaches ⟨root, style, .writing cursor written⟩ (layout.data style)
        ⟨root, style, .writing last (written + layout.items.length)⟩
    | some fault => Reaches ⟨root, style, .writing cursor written⟩ (layout.data style ++ [.failed fault])
        ⟨root, style, .closed⟩

namespace Run.Writes

variable {root style} {cursor middle last : Cursor} {first second : Layout}

theorem append (h : Run.Writes root style cursor first middle)
    (h' : Run.Writes root style middle second last) :
    Run.Writes root style cursor (first ++ second) last := by
  intro written
  obtain ⟨items, _ | fault⟩ := first
  · have hfirst := h written
    have hsecond := h' (written + items.length)
    obtain ⟨more, _ | fault⟩ := second
    · have htrans := hfirst.trans hsecond
      simp only [Layout.data, ← List.map_append] at htrans
      simpa [Layout.data, Nat.add_assoc] using htrans
    · have htrans := hfirst.trans hsecond
      simpa [Layout.data] using htrans
  · exact h written

theorem of_silent (h : cursor.move = .silent middle) (h' : Run.Writes root style middle first last) :
    Run.Writes root style cursor first last := by
  intro written
  have hmove := Reaches.of_advance (advance_of_silent root style written h)
  have hlater := h' written
  split at hlater <;> exact hmove.trans hlater

theorem of_write {item : Item} (h : cursor.move = .write item middle)
    (h' : Run.Writes root style middle first last) :
    Run.Writes root style cursor (.cons item first) last := by
  have hitem : Run.Writes root style cursor ⟨[item], none⟩ middle := fun written =>
    Reaches.of_advance (advance_of_write root style written h)
  exact hitem.append h'

end Run.Writes

/-- **Pieces in front of others are written as their layout**, and the others are left as they were. -/
theorem writes_pieces (depth : Nat) (ps rest : List Piece) :
    Run.Writes root style ⟨depth, ps ++ rest⟩ (layoutPieces depth ps) ⟨depthAfter depth ps, rest⟩ := by
  fun_induction layoutPieces depth ps generalizing rest with
  | case1 depth => exact fun written => .stay
  | case2 depth t ps hempty ih =>
    refine Run.Writes.of_silent ?_ (ih rest)
    simp [Cursor.move, hempty]
  | case3 depth t ps hempty ih =>
    refine Run.Writes.of_write ?_ (ih rest)
    simp [Cursor.move, hempty]
  | case4 depth ps ih => exact Run.Writes.of_write rfl (ih rest)
  | case5 depth ps ih => exact Run.Writes.of_silent rfl (ih rest)
  | case6 depth ps ih => exact Run.Writes.of_silent rfl (ih rest)
  | case7 depth n ps pieces hn hlt ih ihRest =>
    -- the shape comes in the place of the node, and leads back to its depth
    have hmove : Cursor.move ⟨depth, .node n :: ps ++ rest⟩ = .silent ⟨depth, pieces ++ (ps ++ rest)⟩ := by
      simp [Cursor.move, hn]
    have hshape := ih (ps ++ rest)
    rw [(Node.eq_shape_of_pieces hn).2, depthAfter_shape, ← (Node.eq_shape_of_pieces hn).2] at hshape
    exact Run.Writes.of_silent hmove (hshape.append (ihRest rest))
  | case8 depth n ps fault hn =>
    intro written
    have hmove : Cursor.move ⟨depth, .node n :: ps ++ rest⟩ = .fail fault := by
      simp [Cursor.move, hn]
    exact .of_advance (advance_of_fail root style written hmove)

end

end LuaUnparse
