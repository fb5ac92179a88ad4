import Sigil.Proofs.Token.Shift

/-!
# Places of a text

A place of a text has an offset, and the line and the column that belong to it: the line counts the
newlines in front, and the column the characters behind the last of them. Lines and columns are not
counted anew for each place. They are carried along with what is read, so they are right only if no
character is passed over without being counted.

Here this is shown for the token reader, from whose places all others are taken: wherever it gets
to, with a token or with a failure, its place and what it has in front of it belong to one text.

## Main definitions

* `Position.IsPlaceOf`: the line and the column are those of the offset.
* `Scan.EndsIn`: what is found is placed in the text, and so is what remains of it.

## Main results

* `Position.isPlaceOf_iff`: the places of a text are those behind the first characters of it.
* `Scan.filler_endsIn`, `Scan.word_endsIn`, `Scan.token_endsIn`: the steps of the token reader.
* `TokenStream.isPlaceOf_of_mem`, `TokenStream.isPlaceOf_of_failure`: the stream of a text.
-/

namespace Sigil

/-! ### Lines and columns -/

/-- The last line is a part of the text. -/
theorem lastLine_le_length (cs : List Char) : lastLine cs ≤ cs.length := by
  have hle : lastLine cs ≤ cs.reverse.length := (List.takeWhile_prefix _).length_le
  rwa [List.length_reverse] at hle

/-- The index behind the last newline of a stretch, or its start if there is none. -/
def lineStart (cs : List Char) : Nat :=
  cs.length - lastLine cs

/-- A stretch without a newline is taken as a whole when the last line is looked for. -/
theorem takeWhile_reverse {b : List Char} (hb : '\n' ∉ b) (cs : List Char) :
    (b.reverse ++ cs).takeWhile (· != '\n') = b.reverse ++ cs.takeWhile (· != '\n') := by
  refine List.takeWhile_append_of_pos fun c hc => ?_
  simpa using fun hnewline : c = '\n' => hb (hnewline ▸ List.mem_reverse.1 hc)

/-- Behind the last newline there is the last line. -/
theorem lastLine_append {b : List Char} (hb : '\n' ∉ b) (a : List Char) :
    lastLine (a ++ '\n' :: b) = b.length := by
  rw [lastLine, List.reverse_append, List.reverse_cons, List.append_assoc, takeWhile_reverse hb]
  simp

/-- The last line starts behind the last newline. -/
theorem lineStart_append {b : List Char} (hb : '\n' ∉ b) (a : List Char) :
    lineStart (a ++ '\n' :: b) = a.length + 1 := by
  rw [lineStart, lastLine_append hb, List.length_append, List.length_cons]
  omega

namespace Position

/-- The place is one of the text: its offset lies in the text, its line counts the newlines in front
of the offset, and its column the characters behind the last of them, both from one. -/
structure IsPlaceOf (text : List Char) (p : Position) : Prop where
  nonneg : 0 ≤ p.offset
  le_length : p.offset ≤ text.length
  line : p.line = 1 + ((text.take p.offset.toNat).count '\n' : Nat)
  col : p.col = p.offset - lineStart (text.take p.offset.toNat) + 1

/-- The places of a text are those behind the first characters of it. -/
theorem isPlaceOf_iff {text : List Char} {p : Position} :
    p.IsPlaceOf text ↔ ∃ before rest, text = before ++ rest ∧ p = start.after before := by
  constructor
  · rintro ⟨hnonneg, hle, hline, hcol⟩
    refine ⟨_, _, (List.take_append_drop p.offset.toNat text).symm, ?_⟩
    obtain ⟨offset, line, col⟩ := p
    have hlast := lastLine_le_length (text.take offset.toNat)
    simp only at hnonneg hle hline hcol
    simp only [lineStart, List.length_take] at hlast hcol
    rw [after_eq_shift]
    simp only [shift, start, hline, hcol, if_true, mk.injEq, List.length_take, true_and]
    omega
  · rintro ⟨before, rest, rfl, rfl⟩
    have hlast := lastLine_le_length before
    have htake : (before ++ rest).take (start.after before).offset.toNat = before := by
      simp [offset_after, start]
    constructor
    · rw [offset_after]
      exact Int.zero_add _ ▸ Int.natCast_nonneg _
    · rw [offset_after, List.length_append]
      simp only [start]
      omega
    · rw [htake, after_eq_shift]
      rfl
    · rw [htake, after_eq_shift, lineStart]
      simp only [shift, start, if_true]
      omega

/-- The start is a place of every text. -/
theorem start_isPlaceOf (text : List Char) : start.IsPlaceOf text :=
  isPlaceOf_iff.2 ⟨[], text, rfl, rfl⟩

end Position

/-! ### Rests of a text -/

/-- The text ends with what remains, and the place of what remains is the one in the text. -/
def Remaining.IsRestOf (text : List Char) (r : Remaining) : Prop :=
  ∃ before, text = before ++ r.chars ∧ r.position = Position.start.after before

namespace Remaining.IsRestOf

variable {text : List Char} {r : Remaining}

/-- Before the first token all of the text remains. -/
theorem ofText (text : String) : (Remaining.ofText text).IsRestOf text.toList :=
  ⟨[], rfl, rfl⟩

/-- What remains starts at a place of the text. -/
theorem isPlaceOf (h : r.IsRestOf text) : r.position.IsPlaceOf text := by
  obtain ⟨before, htext, hposition⟩ := h
  exact Position.isPlaceOf_iff.2 ⟨before, r.chars, htext, hposition⟩

/-- What is left behind a stretch of a rest is a rest. -/
theorem behind {s : Split} (h : r.IsRestOf text) (hs : s.whole = r.chars) :
    (Remaining.behind r.position s).IsRestOf text := by
  obtain ⟨before, rfl, hposition⟩ := h
  refine ⟨before ++ s.taken, ?_, ?_⟩
  · rw [← hs, Split.whole, ← List.append_assoc]
    rfl
  · rw [Position.after_append, ← hposition]
    rfl

/-- At the end nothing remains of it. -/
theorem toEnd (h : r.IsRestOf text) : r.toEnd.IsRestOf text :=
  h.behind (s := ⟨r.chars, []⟩) (List.append_nil _)

end Remaining.IsRestOf

/-! ### The token reader -/

namespace Scan

variable {α β : Type} {text : List Char} {P : α → Prop} {Q : β → Prop} {r : Remaining}

/-- A step of the token reader ends at a rest of the text. What it gives has the property `P`, and a
failure is placed in the text. -/
inductive EndsIn (text : List Char) (P : α → Prop) : EStateM.Result LexError Remaining α → Prop
  | ok {a : α} {r : Remaining} (ha : P a) (hr : r.IsRestOf text) : EndsIn text P (.ok a r)
  | error {e : LexError} {r : Remaining} (he : e.position.IsPlaceOf text)
      (hr : r.IsRestOf text) : EndsIn text P (.error e r)

/-- Filler is skipped up to a place of the text, and its faults are at places. -/
theorem filler_endsIn (h : r.IsRestOf text) :
    EndsIn text (fun _ => True) (Scan.filler r) := by
  have hleft := h.behind (whole_skipFiller r.chars)
  simp only [Scan.filler, Scan.pass]
  split
  · exact .ok trivial hleft
  · exact .error hleft.isPlaceOf hleft
  · exact .error hleft.isPlaceOf hleft.toEnd

/-- The token that is read stands where the reading started. -/
theorem word_endsIn (h : r.IsRestOf text) :
    EndsIn text (fun t => t.position.IsPlaceOf text) (Scan.word r) := by
  unfold Scan.word
  split
  · exact .ok h.isPlaceOf h
  · next c cs hchars =>
      split
      · next l hl => exact .ok h.isPlaceOf (h.behind (hchars ▸ whole_lexeme hl))
      · exact .error h.isPlaceOf h.toEnd
      · exact .error h.isPlaceOf h

/-- A token is at a place of the text, and so is what remains behind it. -/
theorem token_endsIn (h : r.IsRestOf text) :
    EndsIn text (fun t => t.position.IsPlaceOf text) (Scan.token r) := by
  have hfiller := filler_endsIn h
  simp only [Scan.token, bind, EStateM.bind]
  generalize Scan.filler r = result at hfiller
  cases hfiller with
  | ok _ hr => exact word_endsIn hr
  | error he hr => exact .error he hr

end Scan

/-! ### The stream of a text -/

namespace TokenStream

/-- All tokens that are read from a rest of a text are placed in the text, and so is a failure. -/
theorem ofRemaining_isPlaceOf {text : List Char} {r : Remaining} (h : r.IsRestOf text) :
    (∀ t ∈ (ofRemaining r).tokens, t.position.IsPlaceOf text) ∧
      ∀ e, (ofRemaining r).failure = some e → e.position.IsPlaceOf text := by
  induction hn : r.chars.length using Nat.strongRecOn generalizing r with
  | ind n ih =>
      subst hn
      have hend := Scan.token_endsIn h
      generalize htoken : Scan.token r = result at hend
      cases hend with
      | error he _ =>
          rw [ofRemaining_of_error htoken]
          exact ⟨by simp, fun e heq => Option.some.inj heq ▸ he⟩
      | @ok t left ht hleft =>
          by_cases hkind : t.kind = .endOfInput
          · rw [ofRemaining_of_end htoken hkind]
            exact ⟨by simpa using ht, by simp⟩
          · obtain ⟨htokens, hfailure⟩ := ih _ (length_rest_of_token htoken hkind) hleft rfl
            rw [ofRemaining_of_token htoken hkind]
            exact ⟨List.forall_mem_cons.2 ⟨ht, htokens⟩, hfailure⟩

/-- The tokens of a text are at places of it. -/
theorem isPlaceOf_of_mem {text : String} {t : Token} (h : t ∈ (ofText text).tokens) :
    t.position.IsPlaceOf text.toList :=
  (ofRemaining_isPlaceOf (.ofText text)).1 t h

/-- So is the fault, if there is one. -/
theorem isPlaceOf_of_failure {text : String} {e : LexError} (h : (ofText text).failure = some e) :
    e.position.IsPlaceOf text.toList :=
  (ofRemaining_isPlaceOf (.ofText text)).2 e h

end TokenStream

end Sigil
