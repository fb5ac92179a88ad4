import Sigil.Token
import Sigil.Token.Filler

/-!
# Lexemes

The words of the language as stretches of text: identifiers and the two truth words, numbers,
strings and symbols. Each is the longest of its sort at the place where it starts.

## Main results

* `whole_lexeme`: a lexeme and what follows it make up the text.
* `taken_lexeme_ne_nil`: a lexeme is not empty.
-/

namespace Sigil

/-! ### Characters -/

/-- The letters of the ASCII alphabet and the underscore, which start an identifier. -/
def isWordStart (c : Char) : Bool :=
  c == '_' || ('a' ≤ c && c ≤ 'z') || ('A' ≤ c && c ≤ 'Z')

/-- The ten ASCII digits. -/
def isDigit (c : Char) : Bool :=
  '0' ≤ c && c ≤ '9'

/-- The characters of an identifier behind its first. -/
def isWordPart (c : Char) : Bool :=
  isWordStart c || isDigit c

/-- The two characters that delimit strings. -/
def isQuote (c : Char) : Bool :=
  c == '"' || c == '\''

/-! ### Words, numbers and strings -/

/-- The longest stretch of characters with a property. -/
def stretch (p : Char → Bool) (cs : List Char) : Split :=
  ⟨cs.takeWhile p, cs.dropWhile p⟩

@[simp] theorem whole_stretch (p : Char → Bool) (cs : List Char) :
    (stretch p cs).whole = cs :=
  List.takeWhile_append_dropWhile

/-- The kind of a word: the truth words are not identifiers. -/
def kindOfWord (word : List Char) : TokenKind :=
  if word = ['t', 'r', 'u', 'e'] ∨ word = ['f', 'a', 'l', 's', 'e'] then .boolean else .identifier

/-- A number: digits, and then perhaps a point with at least one digit behind it. -/
def numeral (cs : List Char) : Split :=
  let digits := stretch isDigit cs
  match digits.rest with
  | '.' :: d :: ds =>
    if isDigit d then (stretch isDigit (d :: ds)).prepend (digits.taken ++ ['.']) else digits
  | _ => digits

@[simp] theorem whole_numeral (cs : List Char) : (numeral cs).whole = cs := by
  have hdigits : (stretch isDigit cs).taken ++ (stretch isDigit cs).rest = cs :=
    whole_stretch isDigit cs
  simp only [numeral]
  split
  · next d ds heq =>
      split
      · rw [heq] at hdigits
        simpa using hdigits
      · exact hdigits
  · exact hdigits

/-- The rest of a string behind its opening quotation mark: everything up to and including the next
mark of the same sort, if there is one. Nothing is special inside a string. -/
def closeString (mark : Char) (cs : List Char) : Option Split :=
  let body := stretch (· != mark) cs
  match body.rest with
  | [] => none
  | c :: rest => some ⟨body.taken ++ [c], rest⟩

theorem eq_of_closeString {mark : Char} {cs : List Char} {s : Split}
    (h : closeString mark cs = some s) : s.whole = cs := by
  have hbody := whole_stretch (· != mark) cs
  simp only [closeString] at h
  split at h
  · cases h
  · next c rest heq =>
      cases h
      rw [Split.whole, heq] at hbody
      simpa [Split.whole] using hbody

/-! ### The lexeme in front of a text -/

/-- Why a text that is not at its end has no token in front. -/
inductive LexFault where
  /-- The filler in front is faulty. -/
  | filler (fault : FillerFault)
  /-- A string is opened and not closed. -/
  | openString
  /-- The character only occurs at the start of a two-character symbol, and is not part of one. -/
  | lonePart (c : Char)
  /-- No token starts with the character. -/
  | unrecognized (c : Char)
  /-- The character in front cannot be seen. -/
  | unseen
  deriving DecidableEq, Repr

/-- A lexeme: its kind, its text, and what follows. -/
structure Lexeme extends Split where
  kind : TokenKind
  deriving DecidableEq, Repr

/-- The symbol in front of a text as a lexeme. -/
def symbolLexeme? (cs : List Char) : Option Lexeme :=
  (Symbol.atFront? cs).map fun s =>
    ⟨⟨cs.take s.chars.length, cs.drop s.chars.length⟩, .symbol s⟩

/-- The longest lexeme in front of a text, which is the one whose first character is given apart. -/
def lexeme (c : Char) (cs : List Char) : Except LexFault Lexeme :=
  if isWordStart c then
    let word := stretch isWordPart (c :: cs)
    .ok ⟨word, kindOfWord word.taken⟩
  else if isDigit c then .ok ⟨numeral (c :: cs), .number⟩
  else if isQuote c then
    match closeString c cs with
    | some s => .ok ⟨s.prepend [c], .string⟩
    | none => .error .openString
  else
    match symbolLexeme? (c :: cs) with
    | some l => .ok l
    | none => .error (if Symbol.isLoneStart c then .lonePart c else .unrecognized c)

/-- A lexeme and what follows it make up the text. -/
theorem whole_lexeme {c : Char} {cs : List Char} {l : Lexeme} (h : lexeme c cs = .ok l) :
    l.whole = c :: cs := by
  unfold lexeme at h
  split at h
  · cases h; exact whole_stretch ..
  split at h
  · cases h; exact whole_numeral ..
  split at h
  · split at h
    · next s hs => cases h; simp [eq_of_closeString hs]
    · cases h
  split at h
  · next l' hl =>
      cases h
      obtain ⟨s, -, rfl⟩ := Option.map_eq_some_iff.1 hl
      exact List.take_append_drop ..
  · cases h

theorem stretch_cons {p : Char → Bool} {c : Char} (h : p c = true) (cs : List Char) :
    (stretch p (c :: cs)).taken ≠ [] := by
  simp [stretch, h]

/-- A lexeme is not empty. -/
theorem taken_lexeme_ne_nil {c : Char} {cs : List Char} {l : Lexeme}
    (h : lexeme c cs = .ok l) : l.taken ≠ [] := by
  unfold lexeme at h
  split at h
  · next hc =>
      cases h
      exact stretch_cons (by simp [isWordPart, hc]) cs
  split at h
  · next hc =>
      cases h
      have hne := stretch_cons hc cs
      simp only [numeral]
      split
      · split
        · simp [Split.prepend]
        · exact hne
      · exact hne
  split at h
  · split at h
    · cases h; simp [Split.prepend]
    · cases h
  split at h
  · next l' hl =>
      cases h
      obtain ⟨s, -, rfl⟩ := Option.map_eq_some_iff.1 hl
      cases s <;> simp [Symbol.chars]
  · cases h

end Sigil
