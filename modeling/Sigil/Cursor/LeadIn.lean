import Sigil.Token.Filler

/-!
# Lead-ins

A cursor may be set before the start of its text. The last characters of the text then stand in
front of it once more: they are the lead-in, and the text itself follows. The characters of a
lead-in are read like any others, but none of them can be seen on its own before it is read, so a
blank or a newline there goes unnoticed. What can be seen is how the lead-in starts, as far as the
lead-in goes.

Each function here takes the lead-in and the text behind it. With an empty lead-in it is the
function of the same name on plain texts.

## Main results

* `LeadIn.whole_lineComment`, `LeadIn.eq_of_closeComment`: splitting a comment off a lead-in and the
  text behind it loses no character.
-/

namespace Sigil

namespace LeadIn

/-- A comment to the end of the line. No newline of the lead-in ends it. A backslash, once it is
read, hides the character behind it, and a carriage return together with a newline that can be
seen behind that. -/
def lineComment (text : List Char) : List Char → Split
  | [] => Sigil.lineComment text
  | ['\\'] => Sigil.lineComment ('\\' :: text)
  | ['\\', c] => Sigil.lineComment ('\\' :: c :: text)
  | '\\' :: c :: lead => (lineComment text lead).prepend ['\\', c]
  | c :: lead => (lineComment text lead).prepend [c]

/-- Without a lead the comment is read as if from the start. -/
@[simp] theorem lineComment_nil (text : List Char) :
    lineComment text [] = Sigil.lineComment text := by
  simp [lineComment]

/-- The lead is part of the comment. -/
@[simp] theorem whole_lineComment (text lead : List Char) :
    (lineComment text lead).whole = lead ++ text := by
  fun_induction lineComment text lead <;> simp_all

/-- The end of an open comment: everything up to and including the first `*/`, if there is one.
The two characters are not recognised where the lead-in ends between them. -/
def closeComment (text lead : List Char) : Option Split :=
  match Sigil.closeComment lead with
  | some s => some ⟨s.taken, s.rest ++ text⟩
  | none => (Sigil.closeComment text).map (Split.prepend lead)

/-- The lead is part of the comment that is closed. -/
theorem eq_of_closeComment {text lead : List Char} {s : Split}
    (h : closeComment text lead = some s) : s.whole = lead ++ text := by
  unfold closeComment at h
  split at h
  · next t ht =>
      cases h
      rw [← Sigil.eq_of_closeComment ht]
      simp [Split.whole]
  · obtain ⟨t, ht, rfl⟩ := Option.map_eq_some_iff.1 h
    simp [Sigil.eq_of_closeComment ht]

/-- Behind a comment there is no more than before. -/
theorem length_rest_of_closeComment {cs : List Char} {s : Split}
    (h : Sigil.closeComment cs = some s) : s.rest.length ≤ cs.length := by
  rw [← Sigil.eq_of_closeComment h]
  simp [Split.whole]

/-- Skips the filler in front of a lead-in and the text behind it. Only a comment counts as filler
as long as the lead-in lasts. -/
def skipFiller (text : List Char) : List Char → Filler
  | [] => Sigil.skipFiller text
  | '/' :: '/' :: lead =>
    let comment := (lineComment text lead).prepend ['/', '/']
    let more := Sigil.skipFiller comment.rest
    { more with taken := comment.taken ++ more.taken }
  | '/' :: '*' :: lead =>
    match _h : Sigil.closeComment lead with
    | some s =>
      let more := skipFiller text s.rest
      { more with taken := '/' :: '*' :: s.taken ++ more.taken }
    | none =>
      match Sigil.closeComment text with
      | some s =>
        let more := Sigil.skipFiller s.rest
        { more with taken := '/' :: '*' :: lead ++ s.taken ++ more.taken }
      | none => ⟨⟨[], '/' :: '*' :: lead ++ text⟩, some .openComment⟩
  | lead => ⟨⟨[], lead ++ text⟩, none⟩
termination_by lead => lead.length
decreasing_by
  exact Nat.lt_succ_of_le (Nat.le_succ_of_le (length_rest_of_closeComment ‹_›))

/-- Without a lead filler is skipped as if from the start. -/
@[simp] theorem skipFiller_nil (text : List Char) :
    skipFiller text [] = Sigil.skipFiller text := by
  simp [skipFiller]

end LeadIn

end Sigil
