import LuaUnparse.Proofs.Refinement

/-!
# `LuaUnparse.Proofs.Lifecycle` — a run, pull after pull

A stream may be pulled as often as one likes, also when it has nothing left to give. Here the pulls are
counted from the first one on, and what each of them gives is read off the list of all items: the pull at
an index gives the item at that index, and none past the end.

## Contents
- **Pulls.** `Source.after` and `Source.answer`, the run after so many pulls and what the next one gives.
- **Ended streams.** `Source.Fused`: no item comes after none. Both streams are fused
  (`fused_events`, `fused_fragments`).
- **Agreement.** `answer_events` and `answer_fragments`, the pulls of the two streams, and
  **`entry_points_agree`**, for both of them and the whole text.
-/

namespace LuaUnparse

/-! ## Pulls -/

section

variable {Item : Type}

/-- The run after so many pulls. A pull that gives nothing counts too. -/
def Source.after (source : Source Item) : (count : Nat) → Run → Run
  | 0, run => run
  | count + 1, run => source.after count (source.pull run).rest

/-- What a pull gives, the first one being at index 0. -/
def Source.answer (source : Source Item) (index : Nat) (run : Run) : Option Item :=
  (source.pull (source.after index run)).item

/-- Once a pull gives nothing, so does the next one. -/
def Source.Fused (source : Source Item) : Prop :=
  ∀ run, (source.pull run).item = none → (source.pull (source.pull run).rest).item = none

/-- **Each pull of a fused source gives the item at its index**, and nothing past the last one. -/
theorem answer_eq_getElem? {source : Source Item} (hfused : source.Fused) (index : Nat) (run : Run) :
    source.answer index run = (source.drain run).items[index]? := by
  induction index generalizing run with
  | zero =>
    show (source.pull run).item = _
    cases hitem : (source.pull run).item with
    | none =>
      rw [Source.drain_of_none hitem]
      rfl
    | some item =>
      rw [Source.drain_of_some hitem]
      rfl
  | succ index ih =>
    have hlater : source.answer (index + 1) run = (source.drain (source.pull run).rest).items[index]? :=
      ih (source.pull run).rest
    rw [hlater]
    cases hitem : (source.pull run).item with
    | none =>
      -- nothing comes now, and nothing comes later
      rw [Source.drain_of_none hitem, Source.drain_of_none (hfused run hitem)]
      rfl
    | some item =>
      rw [Source.drain_of_some hitem]
      rfl

end

/-! ## Ended streams -/

/-- Only a run that is over gives no event. -/
theorem progress_of_next_none {run : Run} (h : run.next.item = none) : run.progress = .closed := by
  obtain ⟨root, style, progress⟩ := run
  cases progress with
  | waiting => simp [Run.next] at h
  | writing cursor written => cases hs : cursor.seek <;> simp [Run.next, hs] at h
  | closed => rfl

/-- The end of a run closes it. -/
theorem progress_of_next_finish {run : Run} (h : run.next.item = some .finish) :
    run.next.rest.progress = .closed := by
  obtain ⟨root, style, progress⟩ := run
  cases progress with
  | waiting => simp [Run.next] at h
  | writing cursor written =>
    cases hs : cursor.seek with
    | wrote item next => simp [Run.next, hs] at h
    | failed fault depth => simp [Run.next, hs] at h
    | ended => rw [next_of_ended root style written hs]
  | closed => simp [Run.next] at h

theorem next_of_closed {run : Run} (h : run.progress = .closed) : run.next = ⟨none, [], run⟩ := by
  unfold Run.next
  rw [h]

theorem fused_events : Source.events.Fused := by
  intro run h
  show run.next.rest.next.item = none
  have hclosed : run.progress = .closed := progress_of_next_none h
  rw [next_of_closed hclosed, next_of_closed hclosed]

/-- A run that gives no fragment is over from then on. -/
theorem progress_of_nextFragment_none {run : Run} (h : run.nextFragment.item = none) :
    run.nextFragment.rest.progress = .closed := by
  fun_induction Run.nextFragment run with
  | case1 run pull hstart lt later ih => exact ih h
  | case2 run pull text hdata => simp at h
  | case3 run pull fault hfailed => simp at h
  | case4 run pull hfinish => exact progress_of_next_finish hfinish
  | case5 run pull hnone =>
    have hclosed : run.progress = .closed := progress_of_next_none hnone
    show run.next.rest.progress = .closed
    rw [next_of_closed hclosed]
    exact hclosed

theorem fused_fragments : Source.fragments.Fused := by
  intro run h
  show run.nextFragment.rest.nextFragment.item = none
  have hnext : run.nextFragment.rest.next.item = none := by
    rw [next_of_closed (progress_of_nextFragment_none h)]
  rw [nextFragment_of_none hnext]

/-! ## Agreement -/

section

variable (root : Node) (style : Style) (index : Nat)

/-- What the pulls of the events give, in the order of the layout. -/
theorem answer_events :
    Source.events.answer index (Unparser.start ⟨root, style⟩) =
      (.start :: (root.rootLayout.texts style).map Event.data ++
        [.ending root.rootLayout.fault])[index]? := by
  rw [answer_eq_getElem? fused_events, drain_events_start, drain_events_writing, Layout.events,
    Layout.texts, List.map_map]
  rfl

/-- What the pulls of the fragments give, in the order of the layout. -/
theorem answer_fragments :
    Source.fragments.answer index (Unparser.start ⟨root, style⟩) =
      ((root.rootLayout.texts style).map .ok ++ root.rootLayout.fault.toList.map .error)[index]? := by
  rw [answer_eq_getElem? fused_fragments]
  show (Unparser.fragments ⟨root, style⟩)[index]? = _
  rw [fragments_eq_layout]
  rfl

end

/-- **The two streams and the whole text tell the same of a tree.** There are texts and an outcome, of which
the events are a start, the texts and the outcome, one for each pull, and nothing for every later pull; the
fragments are the texts, then the fault if there is one, then nothing for every later pull; and the whole
text is all the texts together, or the fault and no text. -/
theorem entry_points_agree (root : Node) (style : Style) :
    ∃ (texts : List String) (outcome : Option Fault),
      (∀ index, Source.events.answer index (Unparser.start ⟨root, style⟩) =
        (.start :: texts.map Event.data ++ [.ending outcome])[index]?) ∧
      (∀ index, Source.fragments.answer index (Unparser.start ⟨root, style⟩) =
        (texts.map .ok ++ outcome.toList.map .error)[index]?) ∧
      unparse root style =
        match outcome with
        | none => .ok (String.join texts)
        | some fault => .error fault := by
  exact ⟨root.rootLayout.texts style, root.rootLayout.fault, answer_events root style,
    answer_fragments root style, unparse_eq_layout root style⟩

end LuaUnparse
