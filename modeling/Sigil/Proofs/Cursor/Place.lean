import Sigil.Cursor
import Sigil.Proofs.Token.Place

/-!
# Places of a cursor

A cursor that starts in front of a text can be moved by single characters and by every step of the
token reader, in any order, and a step that fails leaves it where it got to. Wherever it is moved,
its line and its column are those of its offset: each step, whether it succeeds or fails, moves over
the next characters of the text and counts all of them.

## Main definitions

* `Cursor.Move`: the ways to move a cursor.
* `Cursor.run`: a number of moves, each going on from where the one before got to.

## Main results

* `Cursor.Move.endsIn`: what one move keeps.
* `Cursor.run_isIn`: what any number of moves keep.
-/

namespace Sigil

namespace Cursor

/-! ### Moves -/

/-- The ways to move a cursor: over a character, a token and the filler in front of it, a symbol if
there is one, filler, and a single piece of filler of a sort that is not looked at. -/
inductive Move where
  | next
  | token
  | symbol
  | filler
  | continuation
  | lineComment
  | blockComment
  deriving DecidableEq, Repr

/-- Moves a cursor. What is given back is the token that was read, if the move reads one. -/
def Move.step : Move → CursorStep (Option Token)
  | next => (fun _ => none) <$> Cursor.next
  | token => some <$> Cursor.token
  | symbol => Cursor.symbol?
  | filler => (fun _ => none) <$> Cursor.filler
  | continuation => (fun _ => none) <$> Cursor.continuation
  | lineComment => (fun _ => none) <$> Cursor.toLineEnd
  | blockComment => (fun _ => none) <$> Cursor.toCommentEnd

/-- Where a step leaves the cursor, whether it succeeds or fails. -/
def behind {α : Type} (step : CursorStep α) (c : Cursor) : Cursor :=
  match step c with
  | .ok _ c' => c'
  | .error _ c' => c'

/-- Where a number of moves leave the cursor. -/
def run (moves : List Move) (c : Cursor) : Cursor :=
  moves.foldl (fun c move => c.behind move.step) c

/-! ### Cursors in a text -/

/-- The cursor is set on the text, at one of its places. -/
structure IsIn (text : List Char) (c : Cursor) : Prop where
  text_eq : c.text = text
  place : c.position.IsPlaceOf text

variable {α β : Type} {text : List Char} {P : α → Prop} {Q : β → Prop} {c : Cursor}

/-- A cursor starts in its text. -/
theorem ofText_isIn (text : String) : (Cursor.ofText text).IsIn text.toList :=
  ⟨rfl, Position.start_isPlaceOf _⟩

namespace IsIn

/-- What follows a cursor in a text is a rest of the text. -/
theorem isRestOf (h : c.IsIn text) : c.remaining.IsRestOf text := by
  obtain ⟨before, rest, htext, hposition⟩ := Position.isPlaceOf_iff.1 h.place
  refine ⟨before, ?_, hposition⟩
  have hoffset : c.position.offset.toNat = before.length := by
    rw [hposition, Position.offset_after]
    simp only [Position.start]
    omega
  rw [remaining, ahead_of_nonneg h.place.nonneg, onward, hoffset, h.text_eq, htext,
    List.drop_left]

/-- A cursor at the place of a rest of its text is in the text. -/
theorem of_isRestOf {r : Remaining} (h : c.IsIn text) (hr : r.IsRestOf text) :
    IsIn text { c with position := r.position } :=
  ⟨h.text_eq, hr.isPlaceOf⟩

/-- Behind a stretch of what follows it, a cursor is still in its text. -/
theorem past {s : Split} (h : c.IsIn text) (hs : s.whole = c.ahead) :
    (c.past s.taken).IsIn text :=
  h.of_isRestOf (h.isRestOf.behind (s := s) hs)

/-- Behind some of the next characters, a cursor is still in its text. -/
theorem past_take (h : c.IsIn text) (n : Nat) : (c.past (c.ahead.take n)).IsIn text :=
  h.past (s := ⟨c.ahead.take n, c.ahead.drop n⟩) (List.take_append_drop n c.ahead)

end IsIn

/-! ### What a step keeps -/

/-- A step leaves the cursor in the text. What it gives has the property `P`, and if it fails
because no token can be read, the fault is placed in the text. -/
inductive EndsIn (text : List Char) (P : α → Prop) : EStateM.Result CursorFault Cursor α → Prop
  | ok {a : α} {c : Cursor} (ha : P a) (hc : c.IsIn text) : EndsIn text P (.ok a c)
  | error {fault : CursorFault} {c : Cursor}
      (hfault : ∀ e, fault = .lexical e → e.position.IsPlaceOf text) (hc : c.IsIn text) :
      EndsIn text P (.error fault c)

namespace EndsIn

/-- Two steps, one after the other, stay in the text if both do. -/
theorem bind {step : CursorStep α} {more : α → CursorStep β} (h : EndsIn text P (step c))
    (hmore : ∀ a c', P a → c'.IsIn text → EndsIn text Q (more a c')) :
    EndsIn text Q ((step >>= more) c) := by
  simp only [Bind.bind, EStateM.bind]
  generalize step c = result at h
  cases h with
  | ok ha hc => exact hmore _ _ ha hc
  | error hfault hc => exact .error hfault hc

/-- What is made of a result stays where it is. -/
theorem map {step : CursorStep α} {f : α → β} (h : EndsIn text P (step c))
    (hf : ∀ a, P a → Q (f a)) : EndsIn text Q ((f <$> step) c) := by
  rw [map_eq_pure_bind]
  exact h.bind fun a c' ha hc => .ok (hf a ha) hc

/-- A step of the token reader keeps for a cursor what it keeps for rests of a text. -/
theorem scan {step : Scan α} (hc : c.IsIn text) (h : Scan.EndsIn text P (step c.remaining)) :
    EndsIn text P (Cursor.scan step c) := by
  simp only [Cursor.scan]
  generalize step c.remaining = result at h
  cases h with
  | ok ha hr => exact .ok ha (hc.of_isRestOf hr)
  | error he hr =>
      refine .error (fun e heq => ?_) (hc.of_isRestOf hr)
      cases heq
      exact he

/-- The cursor behind a step, whether that fails or not. -/
theorem isIn_behind {step : CursorStep α} (h : EndsIn text P (step c)) :
    (c.behind step).IsIn text := by
  simp only [behind]
  generalize step c = result at h
  cases h with
  | ok _ hc => exact hc
  | error _ hc => exact hc

end EndsIn

/-- One character further is still in the text, or the end is not passed. -/
theorem next_endsIn (h : c.IsIn text) : EndsIn text (fun _ => True) (next c) := by
  simp only [next, reading, inReach_of_nonneg h.place.nonneg, if_true]
  split
  · exact .error (fun e heq => by cases heq) h
  · next ch rest hahead =>
      have hpast := h.past_take 1
      rw [hahead] at hpast
      exact .ok trivial hpast

/-- A symbol is at a place of the text. -/
theorem symbol?_endsIn (h : c.IsIn text) :
    EndsIn text (fun t => ∀ u, t = some u → u.position.IsPlaceOf text) (symbol? c) := by
  simp only [symbol?, isBefore_of_nonneg h.place.nonneg, Bool.false_eq_true, if_false]
  cases hl : symbolLexeme? c.onward with
  | none => exact .ok (fun u hu => by cases hu) h
  | some l =>
      obtain ⟨s, -, rfl⟩ := Option.map_eq_some_iff.1 hl
      refine .ok (fun u hu => ?_) ?_
      · cases hu
        exact h.place
      · have hpast := h.past_take s.chars.length
        rwa [ahead_of_nonneg h.place.nonneg] at hpast

/-- A continuation ends in the text. -/
theorem continuation_endsIn (h : c.IsIn text) :
    EndsIn text (fun _ => True) (continuation c) := by
  simp only [continuation]
  split
  · exact .ok trivial (h.past_take 2)
  split
  · exact .ok trivial (h.past_take 3)
  · refine .error (fun e heq => ?_) h
    cases heq
    exact h.place

/-- A line ends in the text. -/
theorem toLineEnd_endsIn (h : c.IsIn text) : EndsIn text (fun _ => True) (toLineEnd c) := by
  simp only [toLineEnd, reading, inReach_of_nonneg h.place.nonneg, if_true]
  refine .ok trivial (h.past ?_)
  rw [LeadIn.whole_lineComment]
  rfl

/-- A comment ends in the text, and so does one that is not closed. -/
theorem toCommentEnd_endsIn (h : c.IsIn text) :
    EndsIn text (fun _ => True) (toCommentEnd c) := by
  have hget : EndsIn text (fun start : Cursor => start.IsIn text) ((get : CursorStep Cursor) c) :=
    .ok h h
  refine hget.bind fun start c₁ hstart h₁ => (next_endsIn h₁).bind fun _ c₂ _ h₂ =>
    (next_endsIn h₂).bind fun _ c₃ _ h₃ => ?_
  split
  · next s hs => exact .ok trivial (h₃.past (LeadIn.eq_of_closeComment hs))
  · refine .error (fun e heq => ?_) (h₃.past (s := ⟨c₃.ahead, []⟩) (List.append_nil _))
    cases heq
    exact hstart.place

/-- A move leaves the cursor in the text. The token that is read, and the fault if none can be read,
are placed in the text. -/
theorem Move.endsIn (move : Move) (h : c.IsIn text) :
    EndsIn text (fun t => ∀ u, t = some u → u.position.IsPlaceOf text) (move.step c) := by
  have hnothing : ∀ u : Token, none = some u → u.position.IsPlaceOf text :=
    fun u hu => by cases hu
  have hnonneg := h.place.nonneg
  cases move with
  | next => exact (next_endsIn h).map fun _ _ => hnothing
  | token =>
      have htoken := EndsIn.scan h (Scan.token_endsIn h.isRestOf)
      rw [← token_of_nonneg hnonneg] at htoken
      exact htoken.map fun t ht u hu => Option.some.inj hu ▸ ht
  | symbol => exact symbol?_endsIn h
  | filler =>
      have hfiller := EndsIn.scan h (Scan.filler_endsIn h.isRestOf)
      rw [← filler_of_nonneg hnonneg] at hfiller
      exact hfiller.map fun _ _ => hnothing
  | continuation => exact (continuation_endsIn h).map fun _ _ => hnothing
  | lineComment => exact (toLineEnd_endsIn h).map fun _ _ => hnothing
  | blockComment => exact (toCommentEnd_endsIn h).map fun _ _ => hnothing

/-- Any number of moves leave the cursor in the text. -/
theorem run_isIn (moves : List Move) (h : c.IsIn text) : (c.run moves).IsIn text := by
  induction moves generalizing c with
  | nil => exact h
  | cons move moves ih => exact ih (move.endsIn h).isIn_behind

/-- The newline in the string counts, and behind the `$` that is no token the cursor goes on. -/
example : ((Cursor.ofText "'\n' $b").run [.token, .token, .next, .token]).position = ⟨6, 2, 5⟩ := by
  decide +kernel

end Cursor

end Sigil
