import LuaUnparse.Proofs.Grammar.Conformity

/-!
# `LuaUnparse.Proofs.Monitor.Basic` — following what a tree is written as

A monitor goes through items with a state of its own, and may refuse one. To follow a tree it is enough to
say what each node as a whole does to the state, and to see that the shape of every node, with its children
taken as wholes, does the same. No induction on the tree is left to the monitors themselves.

## Contents
- **Monitors.** `Monitor`, with what it does at an item and at a node as a whole.
- **Pieces.** `Monitor.Takes`, from one state to another over pieces, and its rules, also for lists of
  parts (`takes_flatMap`, `takes_separated`), paths (`takes_path`) and parameters (`takes_params`).
- **Layouts.** `Monitor.Sound`, and `Monitor.Sound.reads`: what a sound monitor makes of pieces it makes of
  their layout. If a node at fault cuts this short, the monitor has come to where a node may begin.
- **Runs.** `Monitor.Sound.read_of_ok`, for a run that does not fail, and `Monitor.foldlM_of_read`, from a
  monitor to a reader that keeps only a part of its state.
-/

namespace LuaUnparse

/-! ## Monitors -/

/-- A reader of items. -/
structure Monitor (State : Type) where
  /-- What an item does to the state, unless it is refused. -/
  step : State → Item → Option State
  /-- What a node as a whole, at this depth, does to the state, if it may begin there. -/
  whole : Node → Nat → State → Option State

namespace Monitor

variable {State : Type} (monitor : Monitor State)

/-- What items do to the state, one after the other. -/
def read (s : State) (items : List Item) : Option State :=
  items.foldlM monitor.step s

/-- What pieces do to the state, with their nodes taken as wholes. -/
def through : Nat → State → List Piece → Option State
  | _, s, [] => some s
  | depth, s, .text t :: rest =>
    if t.isEmpty then through depth s rest
    else (monitor.step s (.text t)).bind (through depth · rest)
  | depth, s, .lineBreak :: rest =>
    (monitor.step s (.lineBreak depth)).bind (through depth · rest)
  | depth, s, .indent :: rest => through (depth + 1) s rest
  | depth, s, .dedent :: rest => through (depth - 1) s rest
  | depth, s, .node n :: rest => (monitor.whole n depth s).bind (through depth · rest)

/-- From one state the pieces lead to the other. -/
def Takes (depth : Nat) (s : State) (ps : List Piece) (s' : State) : Prop :=
  monitor.through depth s ps = some s'

/-! ## Pieces -/

section

variable {monitor} {depth : Nat} {s s' s'' : State} {ps qs : List Piece} {t : String}

theorem takes_nil : monitor.Takes depth s [] s := rfl

theorem takes_text (ht : t.isEmpty = false) (h : monitor.step s (.text t) = some s')
    (hr : monitor.Takes depth s' ps s'') : monitor.Takes depth s (.text t :: ps) s'' := by
  rw [Takes, through, ht, h]
  exact hr

/-- A text that may be empty, and then is no item. -/
theorem takes_text? (h : t.isEmpty = false → monitor.step s (.text t) = some s)
    (hr : monitor.Takes depth s ps s') : monitor.Takes depth s (.text t :: ps) s' := by
  cases ht : t.isEmpty with
  | true =>
    rw [Takes, through, ht]
    exact hr
  | false => exact takes_text ht (h ht) hr

/-- Levels are no items. -/
theorem takes_indent (h : monitor.Takes (depth + 1) s ps s') : monitor.Takes depth s (.indent :: ps) s' := h

theorem takes_dedent (h : monitor.Takes (depth - 1) s ps s') : monitor.Takes depth s (.dedent :: ps) s' := h

theorem takes_lineBreak (h : monitor.step s (.lineBreak depth) = some s')
    (hr : monitor.Takes depth s' ps s'') : monitor.Takes depth s (.lineBreak :: ps) s'' := by
  rw [Takes, through, h]
  exact hr

theorem takes_node {n : Node} (h : monitor.whole n depth s = some s')
    (hr : monitor.Takes depth s' ps s'') : monitor.Takes depth s (.node n :: ps) s'' := by
  rw [Takes, through, h]
  exact hr

theorem through_append (depth : Nat) (s : State) (ps qs : List Piece) :
    monitor.through depth s (ps ++ qs) =
      (monitor.through depth s ps).bind (monitor.through (depthAfter depth ps) · qs) := by
  induction ps generalizing depth s with
  | nil => rfl
  | cons p ps ih =>
    cases p with
    | text t =>
      rw [List.cons_append, through, through, depthAfter]
      split
      · exact ih depth s
      · cases monitor.step s (.text t) with
        | none => rfl
        | some s₁ => exact ih depth s₁
    | lineBreak =>
      rw [List.cons_append, through, through, depthAfter]
      cases monitor.step s (.lineBreak depth) with
      | none => rfl
      | some s₁ => exact ih depth s₁
    | indent => exact ih (depth + 1) s
    | dedent => exact ih (depth - 1) s
    | node n =>
      rw [List.cons_append, through, through, depthAfter]
      cases monitor.whole n depth s with
      | none => rfl
      | some s₁ => exact ih depth s₁

/-- Pieces after others that open no level and close none. -/
theorem Takes.append (h : monitor.Takes depth s ps s') (hlevel : ps.all Piece.isLevel = true)
    (hs : monitor.Takes depth s' qs s'') : monitor.Takes depth s (ps ++ qs) s'' := by
  rw [Takes, through_append, h, depthAfter_of_isLevel hlevel]
  exact hs

/-- Parts one after the other. Of the state one has to know what it is after the first ones of them. -/
theorem takes_flatMap {Part : Type} {f : Part → List Piece} {parts : List Part}
    (reach : List Part → State) (hlevel : ∀ part, (f part).all Piece.isLevel = true)
    (h : ∀ done, ∀ part ∈ parts, monitor.Takes depth (reach done) (f part) (reach (done ++ [part]))) :
    monitor.Takes depth (reach []) (parts.flatMap f) (reach parts) := by
  have hmore : ∀ done rest, (∀ part ∈ rest, part ∈ parts) →
      monitor.Takes depth (reach done) (rest.flatMap f) (reach (done ++ rest)) := by
    intro done rest hrest
    induction rest generalizing done with
    | nil =>
      rw [List.append_nil]
      exact takes_nil
    | cons part rest ih =>
      rw [List.forall_mem_cons] at hrest
      have hlater := ih (done ++ [part]) hrest.2
      rw [List.append_assoc] at hlater
      exact (h done part hrest.1).append (hlevel part) hlater
  exact hmore [] parts fun _ hpart => hpart

/-- Parts one after the other, each of which leaves the state as it is. -/
theorem takes_flatMap_self {Part : Type} {f : Part → List Piece} {parts : List Part}
    (hlevel : ∀ part, (f part).all Piece.isLevel = true)
    (h : ∀ part ∈ parts, monitor.Takes depth s (f part) s) :
    monitor.Takes depth s (parts.flatMap f) s :=
  takes_flatMap (fun _ => s) hlevel fun _ => h

/-- Parts with commas between them. -/
theorem takes_separated {Part : Type} {f : Part → Piece} {parts : List Part}
    (reach : List Part → State) (hlevel : ∀ part, (f part).isLevel = true)
    (h : ∀ done, ∀ part ∈ parts, monitor.Takes depth (reach done) [f part] (reach (done ++ [part])))
    (hcomma : ∀ done, done ≠ [] → monitor.step (reach done) (.text ", ") = some (reach done)) :
    monitor.Takes depth (reach []) (separated (parts.map f)) (reach parts) := by
  cases parts with
  | nil => exact takes_nil
  | cons part parts =>
    rw [List.map_cons, separated_cons, List.flatMap_map]
    have hmore : monitor.Takes depth (reach [part]) (parts.flatMap fun q => [.text ", ", f q])
        (reach (part :: parts)) := by
      refine takes_flatMap (fun done => reach (part :: done)) (fun q => by simp [hlevel]) ?_
      intro done q hq
      refine takes_text (by decide) (hcomma _ (List.cons_ne_nil part done)) ?_
      exact h (part :: done) q (List.mem_cons_of_mem part hq)
    exact (h [] part List.mem_cons_self).append (by simp [hlevel]) hmore

theorem takes_separated_self {Part : Type} {f : Part → Piece} {parts : List Part}
    (hlevel : ∀ part, (f part).isLevel = true) (h : ∀ part ∈ parts, monitor.Takes depth s [f part] s)
    (hcomma : monitor.step s (.text ", ") = some s) :
    monitor.Takes depth s (separated (parts.map f)) s :=
  takes_separated (fun _ => s) hlevel (fun _ => h) fun _ _ => hcomma

/-- The blank between an operator and its operand, if there is one. -/
theorem takes_unaryGap (op : UnOp) (operand : Exp) (h : monitor.step s (.text " ") = some s)
    (hr : monitor.Takes depth s ps s') : monitor.Takes depth s (unaryGap op operand ++ ps) s' := by
  unfold unaryGap
  split
  · exact takes_text rfl h hr
  · exact hr

/-- A path: its base, and its other names after their marks. Of the state one has to know what it is after the
base and the first of the other names. -/
theorem takes_path {name : FuncName} (reach : List Name → State)
    (hbase : monitor.Takes depth s [.text name.base] (reach []))
    (hdot : ∀ done, monitor.step (reach done) (.text ".") = some (reach done))
    (hcolon : ∀ done, monitor.step (reach done) (.text ":") = some (reach done))
    (hname : ∀ done, ∀ n ∈ name.indexers ++ name.method.toList,
      monitor.Takes depth (reach done) [.text n] (reach (done ++ [n]))) :
    monitor.Takes depth s name.shape (reach (name.indexers ++ name.method.toList)) := by
  obtain ⟨base, indexers, method⟩ := name
  have hfields : monitor.Takes depth (reach []) (indexers.flatMap fun n => [.text ".", .text n])
      (reach indexers) := by
    refine takes_flatMap reach (fun _ => rfl) fun done n hn => takes_text rfl (hdot done) ?_
    exact hname done n (List.mem_append_left _ hn)
  have hmethod : monitor.Takes depth (reach indexers) (method.toList.flatMap fun n => [.text ":", .text n])
      (reach (indexers ++ method.toList)) := by
    cases method with
    | none =>
      rw [Option.toList_none, List.append_nil]
      exact takes_nil
    | some n =>
      exact takes_text rfl (hcolon indexers) (hname indexers n (List.mem_append_right _ List.mem_cons_self))
  exact hbase.append rfl (hfields.append (by simp) hmethod)

/-- A parameter list: the names, and the dots if there are any, between parentheses. -/
theorem takes_params {params : ParList} {s₁ s₂ : State} (hopen : monitor.step s (.text "(") = some s₁)
    (hnames : monitor.Takes depth s₁ (namesShape params.names) s₂)
    (halone : monitor.step s₂ (.text "...") = some s₂) (hmore : monitor.step s₂ (.text ", ...") = some s₂)
    (hclose : monitor.step s₂ (.text ")") = some s') : monitor.Takes depth s params.shape s' := by
  obtain ⟨names, vararg⟩ := params
  have hend : monitor.Takes depth s₂ [.text ")"] s' := takes_text rfl hclose takes_nil
  have hdots : monitor.Takes depth s₂
      ((if vararg then [.text (if names.isEmpty then "..." else ", ...")] else []) ++ [.text ")"]) s' := by
    split
    · split
      · exact takes_text rfl halone hend
      · exact takes_text rfl hmore hend
    · exact hend
  rw [ParList.shape, List.cons_append, List.cons_append, List.append_assoc]
  exact takes_text rfl hopen (hnames.append (by simp) hdots)

end

/-! ## Layouts -/

/-- What a monitor makes of a layout: it comes to the second state, or to a state in which a node may begin,
if a node at fault comes there. -/
def Reads (s : State) (layout : Layout) (s' : State) : Prop :=
  match layout.fault with
  | none => monitor.read s layout.items = some s'
  | some _ => ∃ s₁, monitor.read s layout.items = some s₁ ∧
      ∃ n depth, (monitor.whole n depth s₁).isSome = true

/-- What a monitor says of a node as a whole is borne out by its shape, for trees of a kind. -/
structure Sound (Kind : Node → Prop) : Prop where
  /-- The children of such a tree are such trees. -/
  child {n m : Node} : Kind n → m ∈ n.children → Kind m
  shape {n : Node} {depth : Nat} {s s' : State} : Kind n → n.fault? = none →
    monitor.whole n depth s = some s' → monitor.Takes depth s n.shape s'

section

variable {monitor} {s s' s'' : State}

theorem Reads.append {first second : Layout} (h : monitor.Reads s first s')
    (hs : monitor.Reads s' second s'') : monitor.Reads s (first ++ second) s'' := by
  obtain ⟨items, _ | fault⟩ := first
  · have hfirst : items.foldlM monitor.step s = some s' := h
    obtain ⟨more, _ | fault⟩ := second
    · show (items ++ more).foldlM monitor.step s = some s''
      rw [List.foldlM_append, hfirst]
      exact hs
    · obtain ⟨s₁, hread, hwhole⟩ := hs
      refine ⟨s₁, ?_, hwhole⟩
      show (items ++ more).foldlM monitor.step s = some s₁
      rw [List.foldlM_append, hfirst]
      exact hread
  · exact h

theorem reads_cons {item : Item} {layout : Layout} (h : monitor.step s item = some s')
    (hr : monitor.Reads s' layout s'') : monitor.Reads s (.cons item layout) s'' := by
  have hfirst : monitor.Reads s ⟨[item], none⟩ s' := by
    show [item].foldlM monitor.step s = some s'
    rw [List.foldlM_cons, h]
    rfl
  exact hfirst.append hr

/-- **What a sound monitor makes of pieces it makes of their layout.** -/
theorem Sound.reads {Kind : Node → Prop} (h : monitor.Sound Kind) {depth : Nat} {ps : List Piece}
    (hkind : ∀ n ∈ nodesIn ps, Kind n) (ht : monitor.Takes depth s ps s') :
    monitor.Reads s (layoutPieces depth ps) s' := by
  fun_induction layoutPieces depth ps generalizing s s' with
  | case1 depth => exact ht
  | case2 depth t rest hempty ih =>
    rw [Takes, through, if_pos hempty] at ht
    exact ih hkind ht
  | case3 depth t rest hempty ih =>
    rw [Takes, through, if_neg hempty] at ht
    obtain ⟨s₁, hstep, hrest⟩ := Option.bind_eq_some_iff.mp ht
    exact reads_cons hstep (ih hkind hrest)
  | case4 depth rest ih =>
    obtain ⟨s₁, hstep, hrest⟩ := Option.bind_eq_some_iff.mp ht
    exact reads_cons hstep (ih hkind hrest)
  | case5 depth rest ih => exact ih hkind ht
  | case6 depth rest ih => exact ih hkind ht
  | case7 depth n rest pieces hn hlt ih ihRest =>
    rw [nodesIn, List.forall_mem_cons] at hkind
    obtain ⟨s₁, hwhole, hrest⟩ := Option.bind_eq_some_iff.mp ht
    obtain ⟨hnone, rfl⟩ := Node.eq_shape_of_pieces hn
    have hchildren : ∀ m ∈ nodesIn n.shape, Kind m := by
      rw [nodesIn_shape]
      exact fun m hm => h.child hkind.1 hm
    exact (ih hchildren (h.shape hkind.1 hnone hwhole)).append (ihRest hkind.2 hrest)
  | case8 depth n rest fault hn =>
    obtain ⟨s₁, hwhole, -⟩ := Option.bind_eq_some_iff.mp ht
    exact ⟨s, rfl, n, depth, by rw [hwhole]; rfl⟩

/-- The same of a whole tree. -/
theorem Sound.reads_rootLayout {Kind : Node → Prop} (h : monitor.Sound Kind) {root : Node}
    (hkind : Kind root) (ht : monitor.Takes 0 s root.opening s') :
    monitor.Reads s root.rootLayout s' := by
  refine h.reads ?_ ht
  cases root with
  | chunk body =>
    -- a chunk at the root is laid out without its own indentation
    have hnodes : nodesIn (Node.chunk body).opening = (Node.chunk body).children := by
      simp [Node.opening, Chunk.lines, Node.children, nodesIn, List.map_eq_flatMap]
    rw [hnodes]
    exact fun m hm => h.child hkind hm
  | _ =>
    intro n hn
    rw [List.mem_singleton.mp hn]
    exact hkind

/-! ## Runs -/

/-- A run that does not fail is read to its end. -/
theorem Sound.read_of_ok {Kind : Node → Prop} (h : monitor.Sound Kind) {root : Node} (hkind : Kind root)
    (ht : monitor.Takes 0 s root.opening s') {style : Style} {text : String}
    (hrun : unparse root style = .ok text) : monitor.read s root.rootLayout.items = some s' := by
  have hfault : root.rootLayout.fault = none := by
    rw [rootLayout_fault]
    exact (unparse_eq_ok_iff root style).mp ⟨text, hrun⟩
  have hreads := h.reads_rootLayout hkind ht
  rw [Reads, hfault] at hreads
  exact hreads

/-- A reader that keeps a part of the state of a monitor, and does with it at every item what the monitor
does, reads what the monitor reads. -/
theorem foldlM_of_read {Other : Type} {f : State → Other} {reader : Other → Item → Option Other}
    (hstep : ∀ s item s', monitor.step s item = some s' → reader (f s) item = some (f s'))
    {items : List Item} (h : monitor.read s items = some s') :
    items.foldlM reader (f s) = some (f s') := by
  induction items generalizing s with
  | nil =>
    obtain rfl : s = s' := Option.some.inj h
    rfl
  | cons item items ih =>
    obtain ⟨s₁, hitem, hread⟩ := Option.bind_eq_some_iff.mp h
    rw [List.foldlM_cons, hstep s item s₁ hitem]
    exact ih hread

end

end Monitor

/-- The fragments of a run that does not fail are texts. -/
theorem fragments_of_ok {root : Node} {style : Style} {text : String} (h : unparse root style = .ok text) :
    Unparser.fragments ⟨root, style⟩ = (root.rootLayout.texts style).map .ok := by
  have hfault : root.rootLayout.fault = none := by
    rw [rootLayout_fault]
    exact (unparse_eq_ok_iff root style).mp ⟨text, h⟩
  rw [fragments_eq_layout, Layout.fragments, hfault, Option.toList_none, List.map_nil, List.append_nil]

end LuaUnparse
