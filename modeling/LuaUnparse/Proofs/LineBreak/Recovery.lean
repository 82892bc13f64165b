import LuaUnparse.Proofs.LineBreak.Tracking
import LuaUnparse.Proofs.Readability

/-!
# `LuaUnparse.Proofs.LineBreak.Recovery` — what line breaks tell

A chunk can be told from its fragments without the line breaks, unless in one of its blocks a statement that
may be called stands before one that begins with a parenthesis. Nothing but a line break keeps these two
apart, and without it the second is read as arguments of the first.

## Contents
- **Levelled items.** `Item.level`, an item without its depth, which has no tokens of its own.
- **Chunks.** `recover_rootLayout`, the line breaks of a chunk are found again, and
  **`unbroken_eq_iff_erase_eq`**, what equal fragments mean.
- **Absorbed calls.** `absorbed_call`, two chunks that only their line breaks tell apart.
-/

namespace LuaUnparse

/-! ## Levelled items -/

/-- The item at the outermost depth. -/
def Item.level : Item → Item
  | .text t => .text t
  | .lineBreak _ => .lineBreak 0

theorem level_of_mark {i j : Item} (h : i.mark = j.mark) : i.level = j.level := by
  cases i <;> cases j <;> simp_all [Item.mark, Item.level]

theorem levels_of_marks {is js : List Item} (h : is.map Item.mark = js.map Item.mark) :
    is.map Item.level = js.map Item.level := by
  induction is generalizing js with
  | nil =>
    cases js with
    | nil => rfl
    | cons j js => simp at h
  | cons i is ih =>
    cases js with
    | nil => simp at h
    | cons j js =>
      rw [List.map_cons, List.map_cons, List.cons.injEq] at h
      rw [List.map_cons, List.map_cons, level_of_mark h.1, ih h.2]

/-- The depths of line breaks are no tokens. -/
theorem Spells.level {is : List Item} {ts : List Token} (h : Spells is ts) :
    Spells (is.map Item.level) ts := by
  induction h with
  | nil => exact .nil
  | text ht _ ih => exact .text ht ih
  | @string value is ts _ ih =>
    have hquoted : (quotedItems value).map Item.level = quotedItems value := by
      unfold quotedItems
      split <;> rfl
    rw [List.map_append, hquoted]
    exact .string value ih
  | lineBreak depth _ ih => exact .lineBreak 0 ih

theorem seamless_level {is : List Item} {before : Option String} (h : Seamless before is) :
    Seamless before (is.map Item.level) := by
  induction is generalizing before with
  | nil => trivial
  | cons i is ih =>
    cases i with
    | text t => exact ⟨h.1, h.2.1, ih h.2.2⟩
    | lineBreak depth =>
      show Seamless none (is.map Item.level)
      exact ih h

/-! ## Chunks -/

section

variable {a b : Chunk}

/-- **The line breaks of a chunk are found again** between its other fragments. -/
theorem recover_rootLayout (hf : ∀ m ∈ (Node.chunk a).preorder, m.fault? = none)
    (hplain : (Node.chunk a).Canonical) (hsep : (Node.chunk a).Separate) :
    recover ⟨.complete, []⟩ (Node.chunk a).rootLayout.unbroken =
      (Node.chunk a).rootLayout.items.map Item.mark := by
  have hstats : ∀ s ∈ a, Node.Tracked (.stat s) := by
    intro s hs
    have hchild : Node.stat s ∈ (Node.chunk a).children := List.mem_map_of_mem hs
    have hinto : ∀ k ∈ (Node.stat s).preorder, k ∈ (Node.chunk a).preorder :=
      fun k hk => Node.mem_preorder_of_child hchild hk
    exact Node.tracked (fun k hk => hf k (hinto k hk)) (fun k hk => hplain k (hinto k hk))
      fun k hk => hsep k (hinto k hk)
  have hself : Chunk.isSeparate a = true := hsep _ (Node.self_mem_preorder _)
  have hmode : ∀ s ∈ a.head?, Mode.complete = .callable → s.beginsParen = false :=
    fun _ _ h => absurd h (by decide)
  -- the root is laid out without the levels of `Node.tracked`, so its statements are followed one by one
  obtain ⟨m, -, hlines⟩ := tracks_lines hstats hself rfl hmode
  have hrecover := (hlines [] 0).2 []
  rw [List.append_nil, recover, List.append_nil] at hrecover
  exact hrecover

/-- The tokens of a chunk are those of its levelled items. -/
theorem lex?_level (hf : ∀ m ∈ (Node.chunk a).preorder, m.fault? = none)
    (hplain : (Node.chunk a).Canonical) :
    lex? (({} : Style).chars ((Node.chunk a).rootLayout.items.map Item.level)) =
      some (Node.chunk a).tokens := by
  have hnum := hplain.numbersPlain
  obtain ⟨-, hspells⟩ := Node.writes_opening hf hnum 0
  exact lex?_of_spells hspells.level (seamless_level (seamless_rootLayout hnum.numbersSpelled))

/-- Canonical chunks with the same tokens are the same, up to what is never written. -/
theorem erase_eq_of_tokens_eq (hf : ∀ m ∈ (Node.chunk a).preorder, m.fault? = none)
    (hf' : ∀ m ∈ (Node.chunk b).preorder, m.fault? = none) (ha : (Node.chunk a).Canonical)
    (hb : (Node.chunk b).Canonical) (h : (Node.chunk a).tokens = (Node.chunk b).tokens) :
    (Node.chunk a).erase = (Node.chunk b).erase := by
  have hboth := (reads_node hf ha).and (reads_node hf' hb)
  obtain ⟨r, hr, hr'⟩ := exists_of_eventually hboth
  have hread : readNode r .chunk (Node.chunk a).tokens = some ((Node.chunk a).erase, []) := hr
  have hread' : readNode r .chunk (Node.chunk b).tokens = some ((Node.chunk b).erase, []) := hr'
  rw [h, hread'] at hread
  exact (congrArg Prod.fst (Option.some.inj hread)).symm

/-- The fragments of a run that does not fail, line breaks apart. -/
theorem fault_of_fragments {root : Node} {texts : List String}
    (h : Unparser.fragments ⟨root, {}⟩ = texts.map .ok) :
    (∀ m ∈ root.preorder, m.fault? = none) ∧
      texts.filter (!isLineBreak ·) = root.rootLayout.unbroken := by
  rw [fragments_eq_layout, Layout.fragments] at h
  cases hfault : root.rootLayout.fault with
  | some fault =>
    -- the report of a fault is no text
    have hmem : Except.error fault ∈ texts.map Except.ok := by
      rw [← h, hfault]
      simp
    simp at hmem
  | none =>
    rw [hfault, Option.toList_none, List.map_nil, List.append_nil] at h
    have htexts : root.rootLayout.texts {} = texts :=
      (List.map_inj_right fun _ _ heq => Except.ok.inj heq).mp h
    rw [rootLayout_fault] at hfault
    exact ⟨List.findSome?_eq_none_iff.mp hfault, by rw [← htexts, Layout.unbroken]⟩

/-- **Two canonical chunks in which no line break is in doubt have the same fragments but for line breaks
exactly if they are the same chunk**, up to the values of numbers, the spellings that strings are known by,
whether what stands in parentheses may be called, and whether there is an empty list of values or none. -/
theorem unbroken_eq_iff_erase_eq (ha : (Node.chunk a).Canonical) (hb : (Node.chunk b).Canonical)
    (hsep : (Node.chunk a).Separate) (hsep' : (Node.chunk b).Separate) {texts others : List String}
    (h : Unparser.fragments ⟨.chunk a, {}⟩ = texts.map .ok)
    (h' : Unparser.fragments ⟨.chunk b, {}⟩ = others.map .ok) :
    texts.filter (!isLineBreak ·) = others.filter (!isLineBreak ·) ↔
      (Node.chunk a).erase = (Node.chunk b).erase := by
  obtain ⟨hf, htexts⟩ := fault_of_fragments h
  obtain ⟨hf', hothers⟩ := fault_of_fragments h'
  rw [htexts, hothers]
  constructor
  · intro heq
    have hmarks : (Node.chunk a).rootLayout.items.map Item.mark =
        (Node.chunk b).rootLayout.items.map Item.mark := by
      rw [← recover_rootLayout hf ha hsep, ← recover_rootLayout hf' hb hsep', heq]
    have hlex := lex?_level hf ha
    rw [levels_of_marks hmarks, lex?_level hf' hb] at hlex
    exact erase_eq_of_tokens_eq hf hf' ha hb (Option.some.inj hlex).symm
  · intro herase
    rw [← rootLayout_erase (.chunk a), herase, rootLayout_erase]

end

/-- A call and then a return of a number in parentheses, which may be called in one chunk and not in the other,
and the number has another value. The line break between the statements is among those that are dropped. -/
theorem unbroken_eq_iff_erase_eq_return :
    (Node.chunk [.call (.normal (.var (.name "f")) (.list [])), .ret [.paren (.number ⟨"1", 1⟩)]]).Canonical ∧
    (Node.chunk [.call (.normal (.var (.name "f")) (.list [])),
      .ret [.prefixed (.paren (.number ⟨"1", 2⟩))]]).Canonical ∧
    (Node.chunk [.call (.normal (.var (.name "f")) (.list [])), .ret [.paren (.number ⟨"1", 1⟩)]]).Separate ∧
    (Node.chunk [.call (.normal (.var (.name "f")) (.list [])),
      .ret [.prefixed (.paren (.number ⟨"1", 2⟩))]]).Separate ∧
    Unparser.fragments ⟨.chunk [.call (.normal (.var (.name "f")) (.list [])),
      .ret [.paren (.number ⟨"1", 1⟩)]], {}⟩ =
      ["\n", "f", "(", ")", "\n", "return", " ", "(", "1", ")"].map .ok ∧
    Unparser.fragments ⟨.chunk [.call (.normal (.var (.name "f")) (.list [])),
      .ret [.prefixed (.paren (.number ⟨"1", 2⟩))]], {}⟩ =
      ["\n", "f", "(", ")", "\n", "return", " ", "(", "1", ")"].map .ok ∧
    ["\n", "f", "(", ")", "\n", "return", " ", "(", "1", ")"].filter (!isLineBreak ·) =
      ["f", "(", ")", "return", " ", "(", "1", ")"] ∧
    (Node.chunk [.call (.normal (.var (.name "f")) (.list [])), .ret [.paren (.number ⟨"1", 1⟩)]]).erase =
      (Node.chunk [.call (.normal (.var (.name "f")) (.list [])),
        .ret [.prefixed (.paren (.number ⟨"1", 2⟩))]]).erase := by
  have ha : (Node.chunk [.call (.normal (.var (.name "f")) (.list [])),
      .ret [.paren (.number ⟨"1", 1⟩)]]).Canonical := by decide +kernel
  have hb : (Node.chunk [.call (.normal (.var (.name "f")) (.list [])),
      .ret [.prefixed (.paren (.number ⟨"1", 2⟩))]]).Canonical := by decide +kernel
  have hsep : (Node.chunk [.call (.normal (.var (.name "f")) (.list [])),
      .ret [.paren (.number ⟨"1", 1⟩)]]).Separate := by decide +kernel
  have hsep' : (Node.chunk [.call (.normal (.var (.name "f")) (.list [])),
      .ret [.prefixed (.paren (.number ⟨"1", 2⟩))]]).Separate := by decide +kernel
  have hlayout : (Node.chunk [.call (.normal (.var (.name "f")) (.list [])),
      .ret [.paren (.number ⟨"1", 1⟩)]]).rootLayout =
      ⟨[.lineBreak 0, .text "f", .text "(", .text ")", .lineBreak 0, .text "return", .text " ", .text "(",
        .text "1", .text ")"], none⟩ := by decide +kernel
  have hlayout' : (Node.chunk [.call (.normal (.var (.name "f")) (.list [])),
      .ret [.prefixed (.paren (.number ⟨"1", 2⟩))]]).rootLayout =
      ⟨[.lineBreak 0, .text "f", .text "(", .text ")", .lineBreak 0, .text "return", .text " ", .text "(",
        .text "1", .text ")"], none⟩ := by decide +kernel
  have hfragments : ∀ root : Node, root.rootLayout =
        ⟨[.lineBreak 0, .text "f", .text "(", .text ")", .lineBreak 0, .text "return", .text " ", .text "(",
          .text "1", .text ")"], none⟩ →
      Unparser.fragments ⟨root, {}⟩ =
        ["\n", "f", "(", ")", "\n", "return", " ", "(", "1", ")"].map .ok := by
    intro root hroot
    rw [fragments_eq_layout, hroot]
    rfl
  have h := hfragments _ hlayout
  have h' := hfragments _ hlayout'
  exact ⟨ha, hb, hsep, hsep', h, h', by decide, (unbroken_eq_iff_erase_eq ha hb hsep hsep' h h').mp rfl⟩

/-! ## Absorbed calls -/

mutual

/-- The call with the parenthesis that the expression begins with as its arguments, and the rest of the
expression after it. -/
def PrefixExp.after (c : Call) : PrefixExp → PrefixExp
  | .var v => .var (v.after c)
  | .call d => .call (.after c d)
  | .paren inner => .call (.normal (.call c) (.list [inner]))

/-- The same for a variable. -/
def Var.after (c : Call) : Var → Var
  | .name n => .name n
  | .index base key => .index (base.after c) key
  | .member base n => .member (base.after c) n

/-- The same for a call. -/
def Call.after (c : Call) : Call → Call
  | .normal callee args => .normal (callee.after c) args
  | .method object name args => .method (object.after c) name args

end

/-- After a call, what begins with a parenthesis is laid out as arguments of the call and what follows
them would be. -/
def Node.Absorbed (c : Call) (depth : Nat) : Node → Prop
  | .prefixExp e => e.beginsParen = true →
      (Node.prefixExp (e.after c)).layout depth =
        (Node.call c).layout depth ++ (Node.prefixExp e).layout depth
  | .var v => v.beginsParen = true →
      (Node.var (v.after c)).layout depth = (Node.call c).layout depth ++ (Node.var v).layout depth
  | .call d => d.beginsParen = true →
      (Node.call (.after c d)).layout depth = (Node.call c).layout depth ++ (Node.call d).layout depth
  | _ => True

/-- What is laid out in two parts, the first of them after the call. -/
theorem absorbed_parts {c : Call} {depth : Nat} {n m : Node} {ps : List Piece}
    (h : n.layout depth = (Node.call c).layout depth ++ m.layout depth) :
    layoutPieces depth (.node n :: ps) =
      (Node.call c).layout depth ++ layoutPieces depth (.node m :: ps) := by
  rw [layoutPieces_node, layoutPieces_node, h, Layout.append_assoc]

/-- **Whatever begins with a parenthesis is absorbed by a call before it**, if no node of it is at fault. -/
theorem Node.absorbed (c : Call) (depth : Nat) {n : Node} (hf : ∀ m ∈ n.preorder, m.fault? = none) :
    n.Absorbed c depth := by
  induction n using Node.inductionOn with
  | h n ih =>
    have hchildren : ∀ m ∈ n.children, m.Absorbed c depth := fun m hm =>
      ih m hm fun k hk => hf k (mem_preorder_of_child hm hk)
    have hnone := hf n n.self_mem_preorder
    cases n with
    | prefixExp e =>
      intro hparen
      have hshape : (Node.prefixExp e).layout depth = layoutPieces depth e.shape := layout_of_none rfl depth
      have hshape' : (Node.prefixExp (e.after c)).layout depth = layoutPieces depth (e.after c).shape :=
        layout_of_none rfl depth
      rw [hshape, hshape']
      cases e with
      | var v => exact hchildren (.var v) List.mem_cons_self hparen
      | call d => exact hchildren (.call d) List.mem_cons_self hparen
      | paren inner =>
        -- here the parenthesis stands, and becomes the arguments of the call
        have hcallee : (Node.prefixExp (.call c)).layout depth = (Node.call c).layout depth :=
          layout_of_none rfl depth
        have hargs : (Node.args (.list [inner])).layout depth =
            layoutPieces depth [.text "(", .node (.exp inner), .text ")"] := by
          have hlist : (Node.expList [inner]).layout depth = (Node.exp inner).layout depth :=
            layout_of_none rfl depth
          rw [layout_of_none rfl]
          show layoutPieces depth [.text "(", .node (.expList [inner]), .text ")"] = _
          rw [layoutPieces_text rfl, layoutPieces_text rfl, layoutPieces_node, layoutPieces_node, hlist]
        show (Node.call (.normal (.call c) (.list [inner]))).layout depth = _
        rw [layout_of_none rfl]
        show layoutPieces depth [.node (.prefixExp (.call c)), .node (.args (.list [inner]))] = _
        rw [layoutPieces_node, hcallee]
        show _ ++ (Node.args (.list [inner])).layout depth = _
        rw [hargs]
        rfl
    | var v =>
      intro hparen
      cases v with
      | name n => exact absurd hparen (by simp [Var.beginsParen])
      | index base key =>
        have hbase := hchildren (.prefixExp base) List.mem_cons_self hparen
        rw [layout_of_none hnone, layout_of_none rfl]
        exact absorbed_parts hbase
      | member base n =>
        have hbase := hchildren (.prefixExp base) List.mem_cons_self hparen
        have hafter : (Node.var (.member (base.after c) n)).fault? = none := hnone
        rw [layout_of_none hnone]
        exact (layout_of_none hafter depth).trans (absorbed_parts hbase)
    | call d =>
      intro hparen
      cases d with
      | normal callee args =>
        have hcallee := hchildren (.prefixExp callee) List.mem_cons_self hparen
        rw [layout_of_none hnone, layout_of_none rfl]
        exact absorbed_parts hcallee
      | method object name args =>
        have hobject := hchildren (.prefixExp object) List.mem_cons_self hparen
        have hafter : (Node.call (.method (object.after c) name args)).fault? = none := hnone
        rw [layout_of_none hnone]
        exact (layout_of_none hafter depth).trans (absorbed_parts hobject)
    | _ => trivial

/-- **A call before one that begins with a parenthesis is absorbed by it**: but for line breaks, the two
statements have the fragments of a single one. -/
theorem unbroken_absorbed {c d : Call} (hc : ∀ m ∈ (Node.call c).preorder, m.fault? = none)
    (hd : ∀ m ∈ (Node.call d).preorder, m.fault? = none) (hparen : d.beginsParen = true) :
    (Node.chunk [.call c, .call d]).rootLayout.unbroken =
      (Node.chunk [.call (.after c d)]).rootLayout.unbroken := by
  have hstat : ∀ e : Call, (Node.stat (.call e)).layout 0 = (Node.call e).layout 0 :=
    fun e => Node.layout_of_none rfl 0
  have habsorbed : (Node.call (.after c d)).layout 0 = (Node.call c).layout 0 ++ (Node.call d).layout 0 :=
    Node.absorbed c 0 hd hparen
  have hnone : ((Node.call c).layout 0).fault = none := by
    rw [layout_fault]
    exact List.findSome?_eq_none_iff.mpr hc
  have hpair : (Node.chunk [.call c, .call d]).rootLayout =
      .cons (.lineBreak 0) ((Node.call c).layout 0 ++ .cons (.lineBreak 0) ((Node.call d).layout 0)) := by
    rw [rootLayout_chunk_cons, rootLayout_chunk_cons, rootLayout_chunk_nil, hstat, hstat, Layout.append_empty]
  have hsingle : (Node.chunk [.call (.after c d)]).rootLayout =
      .cons (.lineBreak 0) ((Node.call c).layout 0 ++ (Node.call d).layout 0) := by
    rw [rootLayout_chunk_cons, rootLayout_chunk_nil, hstat, Layout.append_empty, habsorbed]
  rw [hpair, hsingle, Layout.unbroken_lineBreak, Layout.unbroken_lineBreak, Layout.unbroken_append hnone,
    Layout.unbroken_append hnone, Layout.unbroken_lineBreak]

/-- A call of what stands in parentheses after a call, and the chunk in which the one is absorbed by the
other: canonical chunks with the same fragments but for line breaks, and not the same. -/
theorem absorbed_call :
    (Node.chunk [.call (.normal (.var (.name "f")) (.list [])),
      .call (.normal (.paren (.ofName "g")) (.list []))]).Canonical ∧
    (Node.chunk [.call (.normal (.call (.normal (.call (.normal (.var (.name "f")) (.list [])))
      (.list [.ofName "g"]))) (.list []))]).Canonical ∧
    Unparser.fragments ⟨.chunk [.call (.normal (.var (.name "f")) (.list [])),
      .call (.normal (.paren (.ofName "g")) (.list []))], {}⟩ =
      ["\n", "f", "(", ")", "\n", "(", "g", ")", "(", ")"].map .ok ∧
    Unparser.fragments ⟨.chunk [.call (.normal (.call (.normal (.call (.normal (.var (.name "f"))
      (.list []))) (.list [.ofName "g"]))) (.list []))], {}⟩ =
      ["\n", "f", "(", ")", "(", "g", ")", "(", ")"].map .ok ∧
    ["\n", "f", "(", ")", "\n", "(", "g", ")", "(", ")"].filter (!isLineBreak ·) =
      ["\n", "f", "(", ")", "(", "g", ")", "(", ")"].filter (!isLineBreak ·) ∧
    (Node.chunk [.call (.normal (.var (.name "f")) (.list [])),
      .call (.normal (.paren (.ofName "g")) (.list []))]).erase ≠
      (Node.chunk [.call (.normal (.call (.normal (.call (.normal (.var (.name "f")) (.list [])))
        (.list [.ofName "g"]))) (.list []))]).erase := by
  have hlayout : (Node.chunk [.call (.normal (.var (.name "f")) (.list [])),
      .call (.normal (.paren (.ofName "g")) (.list []))]).rootLayout =
      ⟨[.lineBreak 0, .text "f", .text "(", .text ")", .lineBreak 0, .text "(", .text "g", .text ")",
        .text "(", .text ")"], none⟩ := by decide +kernel
  have hlayout' : (Node.chunk [.call (.normal (.call (.normal (.call (.normal (.var (.name "f"))
      (.list []))) (.list [.ofName "g"]))) (.list []))]).rootLayout =
      ⟨[.lineBreak 0, .text "f", .text "(", .text ")", .text "(", .text "g", .text ")", .text "(",
        .text ")"], none⟩ := by decide +kernel
  refine ⟨by decide +kernel, by decide +kernel, ?_, ?_, by decide, ?_⟩
  · rw [fragments_eq_layout, hlayout]
    rfl
  · rw [fragments_eq_layout, hlayout']
    rfl
  · intro heq
    simp [Node.erase, Stat.eraseAll] at heq

end LuaUnparse
