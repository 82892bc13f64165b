import LuaUnparse.Proofs.Refinement

/-!
# `LuaUnparse.Proofs.Sequence` — a chunk is written statement by statement

The statements of a chunk share one run, its depth and its list of pending pieces. Each of them leaves both as it
found them, so a chunk is written as its statements are one after the other, each as the root of a run of its
own, up to the first one that fails.

## Contents
- **Layouts.** `rootLayout_chunk_append`, two chunks as one.
- **Fragments.** `cutShort`, a stream up to its first fault, and `fragments_append`: the fragments of one
  layout after another.
- **Chunks.** **`chunk_written_by_statement`**.
-/

namespace LuaUnparse

/-! ## Layouts -/

/-- The lines of a chunk lead back to the depth at which they begin. -/
theorem depthAfter_lines (depth : Nat) (body : Chunk) : depthAfter depth (Chunk.lines body) = depth := by
  apply depthAfter_of_isLevel
  simp [Chunk.lines]

theorem rootLayout_chunk_append (a b : Chunk) :
    (Node.chunk (a ++ b)).rootLayout = (Node.chunk a).rootLayout ++ (Node.chunk b).rootLayout := by
  have hlines : Chunk.lines (a ++ b) = Chunk.lines a ++ Chunk.lines b := List.flatMap_append
  rw [Node.rootLayout, Node.opening, hlines, layoutPieces_append, depthAfter_lines]
  rfl

/-! ## Fragments -/

/-- A stream of fragments up to its first fault, the fault included. -/
def cutShort : List (Except Fault String) → List (Except Fault String)
  | [] => []
  | .ok text :: rest => .ok text :: cutShort rest
  | .error fault :: _ => [.error fault]

theorem cutShort_texts_append (texts : List String) (rest : List (Except Fault String)) :
    cutShort (texts.map .ok ++ rest) = texts.map .ok ++ cutShort rest := by
  induction texts with
  | nil => rfl
  | cons text texts ih =>
    rw [List.map_cons, List.cons_append, cutShort, ih]
    rfl

/-- A fault cuts the stream short, whatever follows, and nothing else does. -/
theorem cutShort_fragments_append (style : Style) (layout : Layout) (rest : List (Except Fault String)) :
    cutShort (layout.fragments style ++ rest) =
      match layout.fault with
      | some _ => layout.fragments style
      | none => layout.fragments style ++ cutShort rest := by
  rw [Layout.fragments, List.append_assoc, cutShort_texts_append]
  cases layout.fault with
  | none => rw [Option.toList_none, List.map_nil, List.nil_append, List.append_nil]
  | some fault => rfl

/-- The fragments of one layout after another: the second one has none if the first one fails. -/
theorem fragments_append (style : Style) (first second : Layout) :
    (first ++ second).fragments style =
      match first.fault with
      | some _ => first.fragments style
      | none => first.fragments style ++ second.fragments style := by
  obtain ⟨items, _ | fault⟩ := first
  · simp [Layout.fragments, Layout.texts]
  · rfl

theorem events_append (style : Style) (first second : Layout) :
    (first ++ second).events style =
      match first.fault with
      | some _ => first.events style
      | none => (first.events style).dropLast ++ second.events style := by
  obtain ⟨items, _ | fault⟩ := first
  · simp [Layout.events]
  · rfl

/-! ## Chunks -/

/-- The fragments of a chunk are those of its statements, each after a line end. -/
theorem fragments_chunk (style : Style) (body : Chunk) :
    (Node.chunk body).rootLayout.fragments style =
      cutShort (body.flatMap fun s => .ok style.newLine :: (Node.stat s).rootLayout.fragments style) := by
  induction body with
  | nil =>
    rw [rootLayout_chunk_nil]
    rfl
  | cons s body ih =>
    have hstat : (Node.stat s).rootLayout = (Node.stat s).layout 0 := rootLayout_eq_layout rfl
    -- the line end comes before the check of the statement, so it is written even if the statement fails
    rw [rootLayout_chunk_cons, List.flatMap_cons, List.cons_append, cutShort, cutShort_fragments_append, ← ih,
      ← fragments_append, ← style.lineBreak_zero, hstat]
    rfl

/-- **A chunk is written statement by statement.** The fragments of a chunk are those of its statements in order,
each as it is written on its own, after a line end; the first statement that fails ends them with its fault.
So a chunk that is followed by another one is written alone if it fails. Otherwise the other one comes after
it as it is written on its own: of the two streams of events, the end of the first and the start of the
second are left out. -/
theorem chunk_written_by_statement (style : Style) :
    (∀ body : Chunk, Unparser.fragments ⟨.chunk body, style⟩ =
      cutShort (body.flatMap fun s => .ok style.newLine :: Unparser.fragments ⟨.stat s, style⟩)) ∧
    ∀ a b : Chunk,
      Unparser.fragments ⟨.chunk (a ++ b), style⟩ =
        (match unparse (.chunk a) style with
        | .error _ => Unparser.fragments ⟨.chunk a, style⟩
        | .ok _ => Unparser.fragments ⟨.chunk a, style⟩ ++ Unparser.fragments ⟨.chunk b, style⟩) ∧
      Unparser.events ⟨.chunk (a ++ b), style⟩ =
        match unparse (.chunk a) style with
        | .error _ => Unparser.events ⟨.chunk a, style⟩
        | .ok _ =>
          (Unparser.events ⟨.chunk a, style⟩).dropLast ++ (Unparser.events ⟨.chunk b, style⟩).tail := by
  constructor
  · intro body
    simp only [fragments_eq_layout]
    exact fragments_chunk style body
  · intro a b
    rw [unparse_eq_layout, Layout.text]
    constructor
    · rw [fragments_eq_layout, fragments_eq_layout, fragments_eq_layout, rootLayout_chunk_append,
        fragments_append]
      cases (Node.chunk a).rootLayout.fault <;> rfl
    · rw [Unparser.events, Unparser.events, Unparser.events, drain_events_root, drain_events_root,
        drain_events_root, rootLayout_chunk_append, events_append]
      cases (Node.chunk a).rootLayout.fault with
      | some fault => rfl
      | none =>
        have hends : (Node.chunk a).rootLayout.events style ≠ [] := by simp [Layout.events]
        show _ = (Event.start :: _).dropLast ++ _
        rw [List.dropLast_cons_of_ne_nil hends]
        rfl

end LuaUnparse
