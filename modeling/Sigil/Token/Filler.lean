import Sigil.Position

/-!
# Filler

What may stand between two tokens: blanks, a backslash at the end of a line, a comment to the end
of the line, a comment between `/*` and `*/`. The functions here split a text into filler and what
follows it.

## Main results

* `whole_lineComment`, `eq_of_closeComment`, `eq_of_continuation?`, `eq_of_fillerUnit`: splitting a
  piece of filler off a text loses no character.
* `whole_skipFiller`: skipping the filler in front of a text loses no character.
-/

namespace Sigil

/-- The characters that separate tokens without further meaning: the blanks and line ends of
Unicode, the separator controls and the next-line control apart, and the byte order mark. -/
def isBlank (c : Char) : Bool :=
  let n := c.toNat
  (9 ≤ n && n ≤ 13) || n == 0x20 || n == 0xA0 || n == 0x1680 || (0x2000 ≤ n && n ≤ 0x200A) ||
    n == 0x2028 || n == 0x2029 || n == 0x202F || n == 0x205F || n == 0x3000 || n == 0xFEFF

/-- A stretch of text and what follows it. -/
structure Split where
  taken : List Char
  rest : List Char
  deriving DecidableEq, Repr

namespace Split

/-- The text that was split. -/
def whole (s : Split) : List Char :=
  s.taken ++ s.rest

/-- The split of a longer text, whose stretch starts with the added characters. -/
def prepend (cs : List Char) (s : Split) : Split :=
  ⟨cs ++ s.taken, s.rest⟩

/-- What is put in front of a split is in front of the whole. -/
@[simp] theorem whole_prepend (cs : List Char) (s : Split) :
    (s.prepend cs).whole = cs ++ s.whole :=
  List.append_assoc ..

end Split

/-! ### Comments and continued lines -/

/-- A comment to the end of the line. It stops before the first newline that no backslash hides; a
backslash hides the character behind it, and a carriage return together with the newline behind
that. -/
def lineComment : List Char → Split
  | [] => ⟨[], []⟩
  | '\n' :: cs => ⟨[], '\n' :: cs⟩
  | '\\' :: '\r' :: '\n' :: cs => (lineComment cs).prepend ['\\', '\r', '\n']
  | '\\' :: c :: cs => (lineComment cs).prepend ['\\', c]
  | c :: cs => (lineComment cs).prepend [c]

/-- A comment is split off without a loss. -/
@[simp] theorem whole_lineComment (cs : List Char) : (lineComment cs).whole = cs := by
  fun_induction lineComment cs <;> simp_all [Split.whole, Split.prepend]

/-- The end of an open comment: everything up to and including the first `*/`, if there is one. -/
def closeComment : List Char → Option Split
  | [] => none
  | '*' :: '/' :: cs => some ⟨['*', '/'], cs⟩
  | c :: cs => (closeComment cs).map (Split.prepend [c])

/-- A closed comment is split off without a loss. -/
theorem eq_of_closeComment {cs : List Char} {s : Split} (h : closeComment cs = some s) :
    s.whole = cs := by
  fun_induction closeComment cs generalizing s with
  | case1 => simp at h
  | case2 cs => cases h; rfl
  | case3 c cs _ ih =>
      obtain ⟨t, ht, rfl⟩ := Option.map_eq_some_iff.1 h
      simp [ih ht]

/-- The two or three characters that continue a line: any character (a backslash, where this is
asked), perhaps a carriage return, and a newline. -/
def continuation? : List Char → Option Split
  | c :: '\n' :: cs => some ⟨[c, '\n'], cs⟩
  | c :: '\r' :: '\n' :: cs => some ⟨[c, '\r', '\n'], cs⟩
  | _ => none

/-- A continuation is split off without a loss, and it is not empty. -/
theorem eq_of_continuation? {cs : List Char} {s : Split} (h : continuation? cs = some s) :
    s.whole = cs ∧ s.taken ≠ [] := by
  unfold continuation? at h
  split at h
  · cases h; exact ⟨rfl, by simp⟩
  · cases h; exact ⟨rfl, by simp⟩
  · simp at h

/-! ### All the filler in front of a text -/

/-- What is wrong with a piece of filler. -/
inductive FillerFault where
  /-- A backslash that is not at the end of a line. -/
  | strayBackslash
  /-- A comment that is opened and not closed. -/
  | openComment
  deriving DecidableEq, Repr

/-- The first piece of filler in front of a text: nothing if the text starts with something else, an
error if the piece is faulty. -/
def fillerUnit : List Char → Except FillerFault (Option Split)
  | '/' :: '/' :: cs => .ok (some ((lineComment cs).prepend ['/', '/']))
  | '/' :: '*' :: cs =>
    match closeComment cs with
    | some s => .ok (some (s.prepend ['/', '*']))
    | none => .error .openComment
  | '\\' :: cs =>
    match continuation? ('\\' :: cs) with
    | some s => .ok (some s)
    | none => .error .strayBackslash
  | c :: cs => .ok (if isBlank c then some ⟨[c], cs⟩ else none)
  | [] => .ok none

/-- A unit of filler is split off without a loss, and it is not empty. -/
theorem eq_of_fillerUnit {cs : List Char} {s : Split} (h : fillerUnit cs = .ok (some s)) :
    s.whole = cs ∧ s.taken ≠ [] := by
  unfold fillerUnit at h
  split at h
  · cases h; exact ⟨by simp, by simp [Split.prepend]⟩
  · split at h
    · next t ht => cases h; exact ⟨by simp [eq_of_closeComment ht], by simp [Split.prepend]⟩
    · cases h
  · split at h
    · next t ht => cases h; exact eq_of_continuation? ht
    · cases h
  · simp only [Except.ok.injEq, Option.ite_none_right_eq_some] at h
    obtain ⟨-, h⟩ := h
    cases h
    exact ⟨rfl, by simp⟩
  · simp at h

/-- Behind a piece of filler the text is shorter. -/
theorem length_rest_of_fillerUnit {cs : List Char} {s : Split}
    (h : fillerUnit cs = .ok (some s)) : s.rest.length < cs.length := by
  obtain ⟨rfl, hne⟩ := eq_of_fillerUnit h
  have := List.length_pos_iff.2 hne
  simp only [Split.whole, List.length_append]
  omega

/-- The filler in front of a text, what follows it, and what is wrong there if the filler could not
be skipped to its end. -/
structure Filler extends Split where
  fault : Option FillerFault
  deriving DecidableEq, Repr

/-- Skips the filler in front of a text, piece by piece. -/
def skipFiller (cs : List Char) : Filler :=
  match _h : fillerUnit cs with
  | .ok (some s) =>
    let more := skipFiller s.rest
    { more with taken := s.taken ++ more.taken }
  | .ok none => ⟨⟨[], cs⟩, none⟩
  | .error fault => ⟨⟨[], cs⟩, some fault⟩
termination_by cs.length
decreasing_by exact length_rest_of_fillerUnit ‹_›

/-- Behind a unit filler is skipped further. -/
theorem skipFiller_of_unit {cs : List Char} {s : Split} (h : fillerUnit cs = .ok (some s)) :
    skipFiller cs = { skipFiller s.rest with taken := s.taken ++ (skipFiller s.rest).taken } := by
  rw [skipFiller.eq_def]
  split <;> simp_all

/-- Where there is no unit the filler ends. -/
theorem skipFiller_of_none {cs : List Char} (h : fillerUnit cs = .ok none) :
    skipFiller cs = ⟨⟨[], cs⟩, none⟩ := by
  rw [skipFiller.eq_def]
  split <;> simp_all

/-- Where there is a fault the filler ends with it. -/
theorem skipFiller_of_error {cs : List Char} {fault : FillerFault}
    (h : fillerUnit cs = .error fault) : skipFiller cs = ⟨⟨[], cs⟩, some fault⟩ := by
  rw [skipFiller.eq_def]
  split <;> simp_all

/-- Skipping filler loses no character. -/
theorem whole_skipFiller (cs : List Char) : (skipFiller cs).whole = cs := by
  fun_induction skipFiller cs with
  | case1 cs s h more ih =>
      have hs := (eq_of_fillerUnit h).1
      simp only [Split.whole] at hs ih ⊢
      rw [List.append_assoc, ih, hs]
  | case2 => rfl
  | case3 => rfl

/-- Skipping filler never makes the text longer. -/
theorem length_rest_skipFiller (cs : List Char) : (skipFiller cs).rest.length ≤ cs.length := by
  have h := congrArg List.length (whole_skipFiller cs)
  simp only [Split.whole, List.length_append] at h
  omega

end Sigil
