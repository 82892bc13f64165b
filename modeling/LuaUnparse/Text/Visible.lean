/-!
# `LuaUnparse.Text.Visible` — spelling a text without control characters

The visible spelling of a text stands between double quotes and holds no control character: each of
them, and the backslash and the double quote, is replaced by an escape.

## Contents
- **Characters.** `isControl`, and the table `shortEscapes` of the escapes with one letter.
- **Writing.** `spellChar` for one character and `spell` for a whole text.
- **Reading.** `decode?`, which undoes the escapes.
-/

namespace LuaUnparse.Visible

/-! ## Characters -/

/-- The control characters: U+0000 to U+001F and U+007F to U+009F. -/
def isControl (c : Char) : Bool :=
  c.toNat < 0x20 || (0x7f ≤ c.toNat && c.toNat < 0xa0)

/-- The letters that may follow a backslash, each with the character that the two stand for. -/
def shortEscapes : List (Char × Char) :=
  [('0', '\x00'), ('t', '\t'), ('r', '\r'), ('n', '\n'), ('"', '"'), ('\\', '\\')]

/-! ## Writing -/

/-- One character of the spelling. A control character without a short escape is given by its code
point in lower-case hexadecimal digits. -/
def spellChar (c : Char) : List Char :=
  match shortEscapes.find? (·.2 == c) with
  | some (letter, _) => ['\\', letter]
  | none => if isControl c then ['\\', 'u', '{'] ++ Nat.toDigits 16 c.toNat ++ ['}'] else [c]

/-- The text between the quotes. -/
def spellChars (value : List Char) : List Char :=
  value.flatMap spellChar

/-- The visible spelling of a text, quotes included. It is the debug spelling of any text in which the characters
that are no control characters can be printed. Debug output also escapes combining marks and all other
characters that cannot be printed; these are copied here. -/
def spell (value : String) : String :=
  String.ofList ('"' :: spellChars value.toList ++ ['"'])

/-! ## Reading -/

/-- The value of a lower-case hexadecimal digit. -/
def hexDigit? (c : Char) : Option Nat :=
  if c.isDigit then some (c.toNat - '0'.toNat)
  else if 'a' ≤ c ∧ c ≤ 'f' then some (c.toNat - 'a'.toNat + 10)
  else none

/-- The number up to a closing brace, begun with `code`, and the text after the brace. -/
def readHex? (code : Nat) : List Char → Option (Nat × List Char)
  | [] => none
  | c :: rest =>
    if c == '}' then some (code, rest)
    else
      match hexDigit? c with
      | some digit => readHex? (16 * code + digit) rest
      | none => none

theorem length_lt_of_readHex? {code value : Nat} {cs rest : List Char}
    (h : readHex? code cs = some (value, rest)) : rest.length < cs.length := by
  induction cs generalizing code with
  | nil => simp [readHex?] at h
  | cons c tail ih =>
    simp only [readHex?] at h
    split at h
    · obtain ⟨-, rfl⟩ : code = value ∧ tail = rest := by simpa using h
      simp
    · split at h
      · exact Nat.lt_succ_of_lt (ih h)
      · simp at h

/-- The character that the escape after a backslash stands for, and the text after the escape. -/
def readEscape? : List Char → Option (Char × List Char)
  | [] => none
  | c :: rest =>
    match shortEscapes.lookup c with
    | some value => some (value, rest)
    | none =>
      match c, rest with
      | 'u', '{' :: digits => (readHex? 0 digits).map fun (code, after) => (Char.ofNat code, after)
      | _, _ => none

theorem length_lt_of_readEscape? {cs rest : List Char} {value : Char}
    (h : readEscape? cs = some (value, rest)) : rest.length < cs.length := by
  unfold readEscape? at h
  split at h
  · simp at h
  · split at h
    · obtain ⟨-, rfl⟩ := Prod.mk.inj (Option.some.inj h)
      simp
    · split at h
      · obtain ⟨⟨code, after⟩, hex, hval⟩ := Option.map_eq_some_iff.mp h
        obtain ⟨-, rfl⟩ := Prod.mk.inj hval
        have := length_lt_of_readHex? hex
        simp
        omega
      · simp at h

/-- Undoes the escapes of `spellChars`. A backslash before anything but an escape is refused. -/
def decode? : List Char → Option (List Char)
  | [] => some []
  | c :: rest =>
    if c == '\\' then
      match h : readEscape? rest with
      | some (value, after) =>
        have := length_lt_of_readEscape? h
        (decode? after).map (value :: ·)
      | none => none
    else (decode? rest).map (c :: ·)
termination_by cs => cs.length

end LuaUnparse.Visible
