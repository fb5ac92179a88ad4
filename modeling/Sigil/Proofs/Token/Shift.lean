import Mathlib.Data.List.Induction
import Sigil.Proofs.Token.Part

/-!
# Tokens further on in a text

What a text is cut into does not depend on where the text starts. Behind other text its tokens are
the same, and their places are shifted: offsets by the length of what stands in front, lines by the
newlines in it, and columns, on the first line only, by what stands in front on that line.

## Main definitions

* `Position.shift`: a place of a text, seen from the start of a longer text.

## Main results

* `Position.after_shift`: reading goes on alike at a place that is shifted.
* `TokenStream.ofRemaining_shift`: the stream of a text behind other text.
-/

namespace Sigil

/-! ### Places -/

/-- The number of characters behind the last newline. -/
def lastLine (cs : List Char) : Nat :=
  (cs.reverse.takeWhile (· != '\n')).length

namespace Position

/-- A place of a text, seen from the start of a longer text that has the characters `before` in
front of it. -/
def shift (before : List Char) (p : Position) : Position :=
  ⟨p.offset + before.length, p.line + before.count '\n',
    if p.line = 1 then p.col + lastLine before else p.col⟩

section

variable {p : Position} (before : List Char)

/-- The place behind some characters is the start of a text, shifted. -/
theorem after_eq_shift : start.after before = start.shift before := by
  induction before using List.reverseRecOn with
  | nil => rfl
  | append_singleton cs c ih =>
      rw [after_append, ih, after_cons, after_nil]
      by_cases hc : c = '\n'
      · subst hc
        simp [next, shift, start, lastLine, Int.add_assoc]
      · simp [next, shift, start, lastLine, hc, Int.add_assoc]

theorem line_le_next (p : Position) (c : Char) : p.line ≤ (p.next c).line := by
  unfold next
  split
  · simp only
    omega
  · exact Int.le_refl _

/-- Reading a character goes on alike at a shifted place. -/
theorem next_shift (hp : 1 ≤ p.line) (c : Char) :
    (p.shift before).next c = (p.next c).shift before := by
  by_cases hc : c = '\n'
  · have hline : p.line + 1 ≠ 1 := by omega
    simp only [next, shift, if_pos hc, if_neg hline, mk.injEq, and_true]
    omega
  · simp only [next, shift, if_neg hc, mk.injEq, true_and]
    refine ⟨by omega, ?_⟩
    split <;> omega

theorem line_le_after (p : Position) (cs : List Char) : p.line ≤ (p.after cs).line := by
  induction cs generalizing p with
  | nil => exact Int.le_refl _
  | cons c cs ih => exact Int.le_trans (p.line_le_next c) (ih (p.next c))

/-- Reading goes on alike at a shifted place. -/
theorem after_shift (hp : 1 ≤ p.line) (cs : List Char) :
    (p.shift before).after cs = (p.after cs).shift before := by
  induction cs generalizing p with
  | nil => rfl
  | cons c cs ih =>
      rw [after_cons, after_cons, next_shift before hp,
        ih (Int.le_trans hp (p.line_le_next c))]

end

end Position

/-! ### Tokens -/

/-- A token, seen from the start of a longer text. -/
def Token.shift (before : List Char) (t : Token) : Token :=
  { t with position := t.position.shift before }

def Piece.shift (before : List Char) (piece : Piece) : Piece :=
  { piece with token := piece.token.shift before }

def LexError.shift (before : List Char) (e : LexError) : LexError :=
  { e with position := e.position.shift before }

/-- What remains of a text, seen from the start of a longer text. -/
def Remaining.shift (before : List Char) (r : Remaining) : Remaining :=
  { r with position := r.position.shift before }

/-- The stream of a text that stands behind other text. -/
def TokenStream.shift (before : List Char) (s : TokenStream) : TokenStream :=
  ⟨s.tokens.map (Token.shift before), s.failure.map (LexError.shift before)⟩

section

variable {r left : Remaining} {pieces : List Piece} (before : List Char)

/-- A text is cut alike wherever it starts. -/
theorem Cuts.shift (h : Cuts r pieces left) (hr : 1 ≤ r.position.line) :
    Cuts (r.shift before) (pieces.map (Piece.shift before)) (left.shift before) := by
  induction h with
  | none => exact .none
  | @piece p gap rest t pieces left hgap hstart ht hposition h ih =>
      have hline : 1 ≤ t.position.line := by
        rw [hposition]
        exact Int.le_trans hr (p.line_le_after gap)
      have hfinish : (t.shift before).finish = t.finish.shift before :=
        Position.after_shift before hline _
      have htail := ih (Int.le_trans hline (t.position.line_le_after _))
      rw [Remaining.shift, ← hfinish] at htail
      refine .piece (t := t.shift before) hgap hstart ht ?_ htail
      rw [Position.after_shift before hr, ← hposition]
      rfl

namespace TokenStream

/-- The stream of a text that is cut up to its end. -/
theorem ofRemaining_of_ended {p : Position} {gap : List Char} (h : Cuts r pieces ⟨p, gap⟩)
    (hgap : IsFiller gap []) : ofRemaining r =
      ⟨pieces.map Piece.token ++ [.endAt (p.after gap)], none⟩ := by
  rw [ofRemaining_of_cuts h, ofRemaining_of_end (token_of_end hgap) rfl]

/-- The stream of a text that is cut up to a fault. -/
theorem ofRemaining_of_faulty {p : Position} {gap rest : List Char} {fault : LexFault}
    (h : Cuts r pieces ⟨p, gap ++ rest⟩) (hgap : IsFiller gap rest) (hfault : IsFaulty fault rest) :
    ofRemaining r = ⟨pieces.map Piece.token, some ⟨fault, p.after gap⟩⟩ := by
  obtain ⟨m, herror⟩ := token_of_isFaulty (p := p) hgap hfault
  rw [ofRemaining_of_cuts h, ofRemaining_of_error herror, List.append_nil]

/-- The stream of a text does not depend on where the text starts, but for the places. -/
theorem ofRemaining_shift (r : Remaining) (hr : 1 ≤ r.position.line) :
    ofRemaining (r.shift before) = (ofRemaining r).shift before := by
  obtain ⟨pieces, p, gap, rest, hcuts, hgap, hend⟩ := exists_cuts r
  have hshifted := hcuts.shift before hr
  have hplace : (p.shift before).after gap = (p.after gap).shift before := by
    refine Position.after_shift before ?_ gap
    rw [show p = r.position.after _ from hcuts.position_eq]
    exact Int.le_trans hr (Position.line_le_after ..)
  have htokens : (pieces.map (Piece.shift before)).map Piece.token =
      (pieces.map Piece.token).map (Token.shift before) := by
    rw [List.map_map, List.map_map]
    rfl
  rcases hend with rfl | ⟨fault, hfault⟩
  · rw [List.append_nil] at hcuts hshifted
    rw [ofRemaining_of_ended hcuts hgap, ofRemaining_of_ended hshifted hgap, htokens, hplace,
      TokenStream.shift, List.map_append]
    rfl
  · rw [ofRemaining_of_faulty hcuts hgap hfault, ofRemaining_of_faulty hshifted hgap hfault,
      htokens, hplace]
    rfl

end TokenStream

end

end Sigil
