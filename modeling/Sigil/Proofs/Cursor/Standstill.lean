import Mathlib.Data.List.Basic
import Sigil.Cursor
import Sigil.Proofs.Token.Stream

/-!
# Where reading comes to a standstill

A cursor from which tokens are read one after the other comes to a standstill at the first failure
or at the first end of input, and what it gives from there on never changes. How it does so depends
on the failure. A stray backslash, a part of a symbol by itself and a character that starts no token
are left in front, and are found again by every later reading. A string or a comment that is not
closed is read to the end of the text, and every later reading gives the end of input.

Both rest on how much a reading has moved over when it stops. What is in front then is a rest of the
text without filler, so the next reading moves over nothing before it gets to the same place.

## Main definitions

* `LexFault.Stays`, `LexFault.IsOpen`: the two sorts of faults.
* `Cursor.readings`: what some readings of a token in a row give.

## Main results

* `Scan.token_ends`: what one reading of the token reader leaves in front.
* `Cursor.token_ends`: what one reading from a cursor does.
* `Cursor.readings_standstill`: any number of readings.
-/

namespace Sigil

/-! ### Faults -/

/-- The fault is a character that is left in front: a backslash that is not at the end of a line, a
part of a symbol by itself, or a character that starts no token. -/
inductive LexFault.Stays : LexFault → Prop
  | strayBackslash : Stays (.filler .strayBackslash)
  | lonePart (c : Char) : Stays (.lonePart c)
  | unrecognized (c : Char) : Stays (.unrecognized c)

/-- The fault is that the text ends within a comment or a string. -/
inductive LexFault.IsOpen : LexFault → Prop
  | comment : IsOpen (.filler .openComment)
  | string : IsOpen .openString

/-! ### The token reader -/

/-- Behind filler there is no more of it, and what is wrong there is found again. -/
theorem skipFiller_rest (cs : List Char) :
    skipFiller (skipFiller cs).rest = ⟨⟨[], (skipFiller cs).rest⟩, (skipFiller cs).fault⟩ := by
  fun_induction skipFiller cs with
  | case1 cs s h more ih => exact ih
  | case2 cs h => exact skipFiller_of_none h
  | case3 cs fault h => exact skipFiller_of_error h

namespace Remaining

variable {r r' r'' : Remaining}

/-- The second is what remains behind some of the characters of the first. -/
def LeadsTo (r r' : Remaining) : Prop :=
  ∃ s : Split, s.whole = r.chars ∧ r' = .behind r.position s

/-- A remaining text leads to itself. -/
theorem LeadsTo.refl (r : Remaining) : r.LeadsTo r :=
  ⟨⟨[], r.chars⟩, rfl, rfl⟩

/-- What is led to leads further. -/
theorem LeadsTo.trans (h : r.LeadsTo r') (h' : r'.LeadsTo r'') : r.LeadsTo r'' := by
  obtain ⟨s, hs, rfl⟩ := h
  obtain ⟨s', hs', rfl⟩ := h'
  refine ⟨⟨s.taken ++ s'.taken, s'.rest⟩, ?_, ?_⟩
  · have hrest : s'.taken ++ s'.rest = s.rest := hs'
    rw [← hs, Split.whole, Split.whole, List.append_assoc, hrest]
  · rw [behind, behind, behind, Position.after_append]

/-- Every remaining text leads to its end. -/
theorem leadsTo_toEnd (r : Remaining) : r.LeadsTo r.toEnd :=
  ⟨⟨r.chars, []⟩, List.append_nil _, rfl⟩

/-- The end is the same behind some of the characters. -/
theorem LeadsTo.toEnd_eq (h : r.LeadsTo r') : r'.toEnd = r.toEnd := by
  obtain ⟨s, hs, rfl⟩ := h
  rw [toEnd, toEnd, ← hs, Split.whole, Position.after_append]
  rfl

end Remaining

namespace Scan

variable {r left : Remaining}

/-- What one reading does: it gives a token, it finds the end of input or a fault, both of which it
finds again, or it reads an open comment or string to the end. -/
inductive Ends (r : Remaining) : EStateM.Result LexError Remaining Token → Prop
  | word {t : Token} {r' : Remaining} (ht : t.kind ≠ .endOfInput) (hr : r.LeadsTo r') :
      Ends r (.ok t r')
  | finished : Ends r (.ok (.endAt r.toEnd.position) r.toEnd)
  | stays {e : LexError} {r' : Remaining} (he : e.fault.Stays) (hr : r.LeadsTo r')
      (hagain : token r' = .error e r') : Ends r (.error e r')
  | isOpen {e : LexError} (he : e.fault.IsOpen) : Ends r (.error e r.toEnd)

/-- A reading that goes on behind some of the characters. -/
theorem Ends.behind {result : EStateM.Result LexError Remaining Token} (h : Ends left result)
    (hr : r.LeadsTo left) : Ends r result := by
  cases h with
  | word ht hleft => exact .word ht (hr.trans hleft)
  | finished =>
      rw [hr.toEnd_eq]
      exact .finished
  | stays he hleft hagain => exact .stays he (hr.trans hleft) hagain
  | isOpen he =>
      rw [hr.toEnd_eq]
      exact .isOpen he

/-- A token is a word where no filler is in front. -/
theorem token_of_skipFiller (h : skipFiller r.chars = ⟨⟨[], r.chars⟩, none⟩) :
    token r = word r := by
  simp only [token, bind, EStateM.bind, filler, pass, h]
  rfl

/-- At the end there is nothing but the end of input. -/
theorem token_toEnd (r : Remaining) : token r.toEnd = .ok (.endAt r.toEnd.position) r.toEnd :=
  token_of_skipFiller (skipFiller_of_none rfl)

/-- A word in front of which no filler stands comes to an end. -/
theorem word_ends (h : skipFiller r.chars = ⟨⟨[], r.chars⟩, none⟩) : Ends r (word r) := by
  have hagain := token_of_skipFiller h
  unfold word at hagain ⊢
  obtain ⟨p, cs⟩ := r
  rcases cs with _ | ⟨c, cs⟩
  · exact .finished
  have hsound := lexeme_sound c cs
  cases hl : lexeme c cs with
  | ok l =>
      rw [hl] at hsound
      have hbehind : (⟨p, c :: cs⟩ : Remaining).LeadsTo (.behind p l.toSplit) :=
        ⟨l.toSplit, whole_lexeme hl, rfl⟩
      have hkind : (Token.mk l.kind (String.ofList l.taken) p).kind ≠ .endOfInput :=
        hsound.isLexeme.kind_ne
      simpa only [hl] using .word hkind hbehind
  | error fault =>
      rw [hl] at hsound
      simp only [hl] at hagain ⊢
      cases hsound with
      | openString => exact .isOpen .string
      | lonePart => exact .stays (.lonePart c) (.refl _) hagain
      | unrecognized => exact .stays (.unrecognized c) (.refl _) hagain

/-- What one reading of the token reader leaves in front. -/
theorem token_ends (r : Remaining) : Ends r (token r) := by
  let left := Remaining.behind r.position (skipFiller r.chars).toSplit
  have hleft : r.LeadsTo left := ⟨_, whole_skipFiller r.chars, rfl⟩
  have hnone : skipFiller left.chars = ⟨⟨[], left.chars⟩, (skipFiller r.chars).fault⟩ :=
    skipFiller_rest r.chars
  simp only [token, bind, EStateM.bind, filler, pass]
  cases hfault : (skipFiller r.chars).fault with
  | none => exact (word_ends (hfault ▸ hnone)).behind hleft
  | some fault =>
      rw [hfault] at hnone
      cases fault with
      | openComment => exact (Ends.isOpen .comment).behind hleft
      | strayBackslash =>
          refine .stays .strayBackslash hleft ?_
          simp only [token, bind, EStateM.bind, filler, pass, hnone, left]
          rfl

end Scan

/-! ### Cursors -/

namespace Cursor

variable {c c' : Cursor} {n : Nat}

/-- The place behind all that follows a cursor. -/
def finish (c : Cursor) : Position :=
  c.position.after c.ahead

/-- From within a text, the end is that of the text. -/
theorem offset_finish (h : 0 ≤ c.position.offset) (hle : c.position.offset ≤ c.text.length) :
    c.finish.offset = c.text.length := by
  rw [finish, Position.offset_after, ahead_of_nonneg h, onward, List.length_drop]
  omega

/-- A cursor has what remains of the text in front of it where it is moved to. -/
theorem remaining_of_leadsTo {r : Remaining} (h : 0 ≤ c.position.offset)
    (hr : c.remaining.LeadsTo r) :
    0 ≤ r.position.offset ∧ remaining { c with position := r.position } = r := by
  obtain ⟨s, hs, rfl⟩ := hr
  have hs : s.whole = c.onward := by rw [← ahead_of_nonneg h]; exact hs
  have hnonneg : 0 ≤ (c.past s.taken).position.offset := by
    simp only [past, Position.offset_after]
    omega
  refine ⟨hnonneg, ?_⟩
  change (c.past s.taken).remaining = _
  rw [remaining, ahead_of_nonneg hnonneg, onward_past h hs]
  rfl

/-- What a reading from a cursor does: it gives a token and moves on, or it comes to a standstill,
where it gives the same again, or the end of input behind an open comment or string. -/
inductive Ends (c : Cursor) : EStateM.Result CursorFault Cursor Token → Prop
  | word {t : Token} {c' : Cursor} (ht : t.kind ≠ .endOfInput) (hc : 0 ≤ c'.position.offset)
      (hfinish : c'.finish = c.finish) : Ends c (.ok t c')
  | finished {c' : Cursor} (hagain : token c' = .ok (.endAt c.finish) c') :
      Ends c (.ok (.endAt c.finish) c')
  | stays {e : LexError} {c' : Cursor} (he : e.fault.Stays)
      (hagain : token c' = .error (.lexical e) c') : Ends c (.error (.lexical e) c')
  | isOpen {e : LexError} {c' : Cursor} (he : e.fault.IsOpen)
      (hagain : token c' = .ok (.endAt c.finish) c') : Ends c (.error (.lexical e) c')

/-- Where a cursor is moved to, a token is read as it is from what remains there. -/
theorem token_of_leadsTo {r : Remaining} (h : 0 ≤ c.position.offset)
    (hr : c.remaining.LeadsTo r) :
    token { c with position := r.position } =
      match Scan.token r with
      | .ok t r' => .ok t { c with position := r'.position }
      | .error e r' => .error (.lexical e) { c with position := r'.position } := by
  obtain ⟨hnonneg, hremaining⟩ := remaining_of_leadsTo h hr
  rw [token_of_nonneg hnonneg, scan, hremaining]
  cases Scan.token r <;> rfl

/-- Every reading from a place in the text does one of these. -/
theorem token_ends (h : 0 ≤ c.position.offset) : Ends c (token c) := by
  have hend : token { c with position := c.remaining.toEnd.position } =
      .ok (.endAt c.finish) { c with position := c.remaining.toEnd.position } := by
    rw [token_of_leadsTo h c.remaining.leadsTo_toEnd, Scan.token_toEnd]
    rfl
  rw [token_of_nonneg h, scan]
  have hscan := Scan.token_ends c.remaining
  generalize Scan.token c.remaining = result at hscan
  cases hscan with
  | @word t r ht hr =>
      obtain ⟨hnonneg, hremaining⟩ := remaining_of_leadsTo h hr
      refine .word ht hnonneg ?_
      have htoEnd := congrArg Remaining.position hr.toEnd_eq
      rw [← hremaining] at htoEnd
      exact htoEnd
  | finished => exact .finished hend
  | @stays e r he hr hagain =>
      refine .stays he ?_
      rw [token_of_leadsTo h hr, hagain]
  | isOpen he => exact .isOpen he hend

/-! ### Reading on -/

/-- What some readings of a token in a row give. Each goes on from where the one before got to,
failed or not. -/
def readings : Nat → Cursor → List (Except CursorFault Token)
  | 0, _ => []
  | n + 1, c =>
    match token c with
    | .ok t c' => .ok t :: readings n c'
    | .error fault c' => .error fault :: readings n c'

/-- Behind a token the next reading goes on. -/
theorem readings_cons_ok {t : Token} (h : token c = .ok t c') (n : Nat) :
    readings (n + 1) c = .ok t :: readings n c' := by
  rw [readings, h]

/-- Behind a fault too the next reading goes on. -/
theorem readings_cons_error {fault : CursorFault} (h : token c = .error fault c') (n : Nat) :
    readings (n + 1) c = .error fault :: readings n c' := by
  rw [readings, h]

/-- Where a reading gives a token and moves over nothing, every reading gives that token. -/
theorem readings_of_ok {t : Token} (h : token c = .ok t c) (n : Nat) :
    readings n c = List.replicate n (.ok t) := by
  induction n with
  | zero => rfl
  | succ n ih => rw [readings_cons_ok h, ih, List.replicate_succ]

/-- Where a reading fails and moves over nothing, every reading fails in the same way. -/
theorem readings_of_error {fault : CursorFault} (h : token c = .error fault c) (n : Nat) :
    readings n c = List.replicate n (.error fault) := by
  induction n with
  | zero => rfl
  | succ n ih => rw [readings_cons_error h, ih, List.replicate_succ]

/-- A standstill with the end of the text at `p`: what is given first there, and what is given
behind it. The end of input and a character that is no token are found again, at the same place.
Behind a comment or a string that is not closed there is the end of input. -/
inductive Standstill (p : Position) :
    Except CursorFault Token → Except CursorFault Token → Prop
  | finished : Standstill p (.ok (.endAt p)) (.ok (.endAt p))
  | stays {e : LexError} (he : e.fault.Stays) :
      Standstill p (.error (.lexical e)) (.error (.lexical e))
  | isOpen {e : LexError} (he : e.fault.IsOpen) :
      Standstill p (.error (.lexical e)) (.ok (.endAt p))

/-- Any number of readings from a place of a text give tokens, up to the first failure or the first
end of input. What is given behind that is always the same, and it is no token: the fault and its
place, if it is a character that is no token, and otherwise the end of input at the end of the
text. -/
theorem readings_standstill (c : Cursor) (h : 0 ≤ c.position.offset) (n : Nat) :
    (c.position.offset ≤ c.text.length → c.finish.offset = c.text.length) ∧
      ∃ ts : List Token, (∀ t ∈ ts, t.kind ≠ .endOfInput) ∧
        (readings n c = ts.map .ok ∨ ∃ first later m, Standstill c.finish first later ∧
          readings n c = ts.map .ok ++ first :: List.replicate m later) := by
  refine ⟨offset_finish h, ?_⟩
  induction n generalizing c with
  | zero => exact ⟨[], by simp, .inl rfl⟩
  | succ n ih =>
      have hends := token_ends h
      generalize hread : token c = result at hends
      cases hends with
      | @word t c' ht hc hfinish =>
          obtain ⟨ts, hts, hmore⟩ := ih c' hc
          rw [hfinish] at hmore
          refine ⟨t :: ts, List.forall_mem_cons.2 ⟨ht, hts⟩, ?_⟩
          rw [readings_cons_ok hread]
          rcases hmore with hmore | ⟨first, later, m, hstop, hmore⟩
          · exact .inl (by rw [hmore, List.map_cons])
          · exact .inr ⟨first, later, m, hstop, by rw [hmore, List.map_cons, List.cons_append]⟩
      | finished hagain =>
          refine ⟨[], by simp, .inr ⟨_, _, n, .finished, ?_⟩⟩
          rw [readings_cons_ok hread, readings_of_ok hagain, List.map_nil, List.nil_append]
      | stays he hagain =>
          refine ⟨[], by simp, .inr ⟨_, _, n, .stays he, ?_⟩⟩
          rw [readings_cons_error hread, readings_of_error hagain, List.map_nil, List.nil_append]
      | isOpen he hagain =>
          refine ⟨[], by simp, .inr ⟨_, _, n, .isOpen he, ?_⟩⟩
          rw [readings_cons_error hread, readings_of_ok hagain, List.map_nil, List.nil_append]

/-- A string that is not closed is read to the end of the text, and the name in it is not read. -/
theorem readings_standstill_string :
    0 ≤ (Cursor.ofText "a 'b").position.offset ∧
      readings 3 (.ofText "a 'b") = [.ok ⟨.identifier, "a", ⟨0, 1, 1⟩⟩,
        .error (.lexical ⟨.openString, ⟨2, 1, 3⟩⟩), .ok (.endAt ⟨4, 1, 5⟩)] ∧
      (Cursor.ofText "a 'b").finish.offset = 4 ∧
      ∃ (ts : List Token) (first later : _) (m : Nat),
        Standstill (Cursor.ofText "a 'b").finish first later ∧
        readings 3 (.ofText "a 'b") = ts.map .ok ++ first :: List.replicate m later := by
  have hstart : 0 ≤ (Cursor.ofText "a 'b").position.offset := by decide
  have hread : readings 3 (.ofText "a 'b") = [.ok ⟨.identifier, "a", ⟨0, 1, 1⟩⟩,
      .error (.lexical ⟨.openString, ⟨2, 1, 3⟩⟩), .ok (.endAt ⟨4, 1, 5⟩)] := by decide +kernel
  obtain ⟨hfinish, ts, -, hwords | ⟨first, later, m, hstop, hmore⟩⟩ :=
    readings_standstill (.ofText "a 'b") hstart 3
  · rw [hread] at hwords
    rcases ts with _ | ⟨t, _ | ⟨u, ts⟩⟩ <;> simp at hwords
  · exact ⟨hstart, hread, hfinish (by decide), ts, first, later, m, hstop, hmore⟩

end Cursor

end Sigil
