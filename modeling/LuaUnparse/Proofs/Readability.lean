import LuaUnparse.Proofs.Erasure
import LuaUnparse.Proofs.Reading.RoundTrip

/-!
# `LuaUnparse.Proofs.Readability` — a text has one tree

Whoever knows the category of a canonical tree can read the tree back from its text: the text is cut into
the tokens of the tree, and the tokens are read as the tree, up to what is never written. So no two
canonical trees of one category share a text, unless they are the same once that is left out.

## Contents
- **Reading back.** `reads_node`: a node is read from its tokens to the last one.
- **Whole texts.** `readText?_of_unparse`: a text is read back as its tree, and `unparse_eq_iff_erase_eq`:
  equal texts are those of equal trees.
-/

namespace LuaUnparse

/-! ## Reading back -/

theorem reads_map {Part : Type} {read : Readers → Reader Part} {f : Part → Node} {part : Part}
    {ts rest : List Token} (h : Reads read ts part rest) :
    Reads (fun r ts => (read r ts).map (.map f id)) ts (f part) rest := by
  filter_upwards [h] with r h
  rw [h]
  rfl

theorem reads_listOf {Part : Type} {read : Readers → Reader (List Part)} {parts : List Part}
    {ts rest : List Token} (hne : ts ≠ []) (h : Reads read ts parts rest) :
    Reads (fun r => listOf (read r)) ts parts rest := by
  cases ts with
  | nil => exact absurd rfl hne
  | cons t ts => exact h

theorem ne_nil_of_startsWith {p : Token → Bool} {ts : List Token} (h : startsWith p ts = true) :
    ts ≠ [] := by
  rintro rfl
  simp [startsWith] at h

/-- The tokens of a canonical tree are read back as the tree, to the last one, if no node of it is at
fault. -/
theorem reads_node {root : Node} (hf : ∀ m ∈ root.preorder, m.fault? = none) (hplain : root.Canonical) :
    Reads (readNode · root.category) root.tokens root.erase [] := by
  have h := Node.readsBack hf hplain
  rw [← List.append_nil root.tokens]
  cases root with
  | chunk body => exact reads_map (h [] rfl)
  | stat s => exact reads_map (h [] rfl)
  | elseIf c => exact reads_map (h [] rfl)
  | funcBody b => exact reads_map (h [] rfl)
  | funcName name =>
    have hname : Reads (fun _ => readFuncName) (name.tokens ++ []) name [] :=
      .of_forall fun _ => readFuncName_tokens name rfl
    exact reads_map hname
  | parList params =>
    have hparams : Reads (fun _ => readParList) (params.tokens ++ []) params [] :=
      .of_forall fun _ => readParList_tokens params []
    exact reads_map hparams
  | exp e => exact reads_map (h.2 [] rfl)
  | prefixExp e => exact reads_map (readsBack_prefixExp_end h rfl)
  | var v => exact reads_map (reads_var (h _ _ _ (reads_suffixes_nil rfl)))
  | call c => exact reads_map (reads_call (h _ _ _ (reads_suffixes_nil rfl)))
  | args a => exact reads_map (h [])
  | field f => exact reads_map (h [] rfl rfl)
  | table fields => exact reads_map (h [])
  | nameList names =>
    cases names with
    | nil => exact .of_forall fun _ => rfl
    | cons n names =>
      have hnames : Reads (fun _ => readNames) (namesTokens (n :: names) ++ []) (n :: names) [] :=
        .of_forall fun _ => readNames_tokens (List.cons_ne_nil n names) rfl
      exact reads_map (reads_listOf (List.cons_ne_nil _ _) hnames)
  | expList es =>
    cases es with
    | nil => exact .of_forall fun _ => rfl
    | cons e es =>
      have hstart : startsWith Token.startsExp (Exp.tokensAll (e :: es) ++ []) = true :=
        startsWith_append (startsWith_append e.startsWith_tokens _) []
      exact reads_map (reads_listOf (ne_nil_of_startsWith hstart) (h (List.cons_ne_nil e es) [] rfl rfl))
  | varList vs =>
    cases vs with
    | nil => exact .of_forall fun _ => rfl
    | cons v vs =>
      have hstart : startsWith Token.startsPrefix (Var.tokensAll (v :: vs) ++ []) = true :=
        startsWith_append (startsWith_append (Node.var v).starts _) []
      exact reads_map (reads_listOf (ne_nil_of_startsWith hstart) (h (List.cons_ne_nil v vs) [] rfl rfl))
  | name n => exact .of_forall fun _ => rfl

/-! ## Whole texts -/

/-- Reads a whole text as a node of a category. -/
def readText? (r : Readers) (category : Category) (text : String) : Option Node := do
  let ts ← lex? text.toList
  let (n, rest) ← readNode r category ts
  if rest.isEmpty then some n else none

/-- **The text of a canonical tree is read back as the tree**, if its category is known, up to what is never
written. -/
theorem readText?_of_unparse {root : Node} (hplain : root.Canonical) {text : String}
    (h : unparse root {} = .ok text) :
    ∀ᶠ r in enough, readText? r root.category text = some root.erase := by
  have hf : ∀ m ∈ root.preorder, m.fault? = none :=
    List.findSome?_eq_none_iff.mp ((unparse_eq_ok_iff root {}).mp ⟨text, h⟩)
  have hlex := lex?_of_unparse hplain.numbersPlain h
  filter_upwards [reads_node hf hplain] with r hr
  simp [readText?, hlex, hr]

/-- **Two canonical trees of one category have the same text exactly if they are the same tree**, up to the
values of numbers, the spellings that strings are known by, whether what stands in parentheses may be
called, and whether there is an empty list of values or none. -/
theorem unparse_eq_iff_erase_eq {a b : Node} (hcategory : a.category = b.category) (ha : a.Canonical)
    (hb : b.Canonical) {text other : String} (h : unparse a {} = .ok text)
    (h' : unparse b {} = .ok other) : text = other ↔ a.erase = b.erase := by
  constructor
  · rintro rfl
    -- some readers take steps enough for both trees, and they read one tree from one text
    have hboth := (readText?_of_unparse ha h).and (readText?_of_unparse hb h')
    obtain ⟨r, hr, hr'⟩ := exists_of_eventually hboth
    rw [← hcategory, hr] at hr'
    exact Option.some.inj hr'
  · intro herase
    rw [← unparse_erase, herase, unparse_erase, h'] at h
    exact (Except.ok.inj h).symm

/-- A text that tells neither the value of its number nor whether its parentheses may be called. -/
theorem unparse_eq_iff_erase_eq_parens :
    unparse (.exp (.unary .negate (.paren (.number ⟨"1", 1⟩)))) {} = .ok "-(1)" ∧
      unparse (.exp (.unary .negate (.prefixed (.paren (.number ⟨"1", 2⟩))))) {} = .ok "-(1)" ∧
      (Node.exp (.unary .negate (.paren (.number ⟨"1", 1⟩)))).erase =
        (Node.exp (.unary .negate (.prefixed (.paren (.number ⟨"1", 2⟩))))).erase := by
  have hlayout : (Node.exp (.unary .negate (.paren (.number ⟨"1", 1⟩)))).rootLayout =
      ⟨[.text "-", .text "(", .text "1", .text ")"], none⟩ := by decide +kernel
  have hlayout' : (Node.exp (.unary .negate (.prefixed (.paren (.number ⟨"1", 2⟩))))).rootLayout =
      ⟨[.text "-", .text "(", .text "1", .text ")"], none⟩ := by decide +kernel
  have htext : ∀ root : Node, root.rootLayout = ⟨[.text "-", .text "(", .text "1", .text ")"], none⟩ →
      unparse root {} = .ok "-(1)" := fun root hroot => by
    rw [unparse_eq_layout, hroot]
    rfl
  have ha := htext _ hlayout
  have hb := htext _ hlayout'
  have hiff := unparse_eq_iff_erase_eq (by rfl) (by decide +kernel) (by decide +kernel) ha hb
  exact ⟨ha, hb, hiff.mp rfl⟩

end LuaUnparse
