import Sigil.Proofs.Parser.Session

/-!
# Lexical failures in a session

A parser gets to the failure of its stream when it consumes the token in front of it. It reports the
failure then, and only then: the failure is taken from the stream, and what is left is a stream that
has come to its end. So a session has at most one reply that reports the failure. The last token of
the stream counts as consumed from there on and is still the current one, and the requests behind go
on as if the text had ended with it.

No rule moves in any other way than by consuming tokens, so what consuming one token keeps is kept
by every request.

## Main definitions

* `Parse.Keeps`: what a rule keeps as long as no lexical failure is reported.
* `Parser.State.Awaits`: the failure is ahead.
* `Parser.State.spent`: the state behind the failure.
* `Parser.Reported`: what is replied with the failure ahead.

## Main results

* `Parser.Call.keeps`: every request keeps what consuming a token keeps.
* `Parser.replies_of_failure`: the replies of a parser of a text with a lexical failure.
* `Parser.replies_forgetful`: a failure that is reported and then forgotten.
-/

namespace Sigil

open Parse

/-! ### What consuming a token keeps -/

namespace Parse

open Sigil.Parser

variable {I : State → Prop} {F : LexError → State → Prop} {s s' : State} {w : List Token}

/-- A run ends with the invariant `I`, or reports a lexical failure and ends as `F` says. -/
inductive EndsIn {α : Type} (I : State → Prop) (F : LexError → State → Prop) :
    EStateM.Result ParseFailure State α → Prop
  | ok {a : α} {s : State} (h : I s) : EndsIn I F (.ok a s)
  | grammatical {e : ParseError} {s : State} (h : I s) : EndsIn I F (.error (.grammatical e) s)
  | overflow {s : State} (h : I s) : EndsIn I F (.error .overflow s)
  | lexical {e : LexError} {s : State} (h : F e s) : EndsIn I F (.error (.lexical e) s)

/-- The rule keeps the invariant `I`, unless it reports a lexical failure and ends as `F` says. -/
def Keeps (I : State → Prop) (F : LexError → State → Prop) {α : Type} (p : Parse α) : Prop :=
  ∀ s, I s → EndsIn I F (p s)

namespace Keeps

variable {α β : Type} {p : Parse α}

theorem bind {f : α → Parse β} (hp : Keeps I F p) (hf : ∀ a, Keeps I F (f a)) :
    Keeps I F (p >>= f) := by
  intro s hs
  have hend := hp s hs
  generalize hrun : p s = result at hend
  cases hend with
  | ok h =>
      rw [bind_of_ok hrun]
      exact hf _ _ h
  | grammatical h =>
      rw [bind_of_error hrun]
      exact .grammatical h
  | overflow h =>
      rw [bind_of_error hrun]
      exact .overflow h
  | lexical h =>
      rw [bind_of_error hrun]
      exact .lexical h

/-- Consuming some tokens keeps what consuming one keeps. -/
theorem reads (hadvance : Keeps I F advance) (h : s.Reads w s') (hs : I s) : I s' := by
  induction w generalizing s with
  | nil =>
      obtain rfl := State.reads_nil.1 h
      exact hs
  | cons t w ih =>
      obtain ⟨m, ⟨-, -, hstep⟩, h⟩ := h
      have hend := hadvance s hs
      rw [hstep] at hend
      cases hend with
      | ok hm => exact ih h hm

/-- A rule that follows a language moves by consuming tokens. -/
theorem of_follows (hadvance : Keeps I F advance) {L : List Token → Prop} (h : p.Follows L) :
    Keeps I F p := by
  intro s hs
  cases h s with
  | succeeds hreads _ hlocal =>
      rw [hlocal.eq hreads]
      exact .ok (hadvance.reads hreads hs)
  | fails hreads _ _ hlocal =>
      rw [hlocal.eq hreads]
      exact .grammatical (hadvance.reads hreads hs)
  | overflows hreads _ hlocal =>
      rw [hlocal.eq hreads]
      exact .overflow (hadvance.reads hreads hs)
  | breaks hreads _ hbreak _ heq =>
      have hend := hadvance _ (hadvance.reads hreads hs)
      rw [hbreak] at hend
      rw [heq]
      cases hend with
      | lexical h => exact .lexical h

theorem stepwise (hadvance : Keeps I F advance) : Stepwise (Keeps I F) where
  follows := hadvance.of_follows
  advance := hadvance
  fail := fun _ _ h => .grammatical h
  bind := bind

end Keeps

end Parse

/-- The tokens in front of a lexical failure are not the end of input. -/
theorem TokenStream.kind_ne_of_failure {text : String} {e : LexError}
    (h : (ofText text).failure = some e) : ∀ t ∈ (ofText text).tokens, t.kind ≠ .endOfInput := by
  obtain ⟨pieces, gap, rest, hcut⟩ := exists_isCut text
  rcases hcut.ended with rfl | ⟨fault, hfault⟩
  · rw [hcut.ofText_of_end] at h
    cases h
  · rw [hcut.ofText_of_fault hfault]
    exact List.forall_mem_map.2 hcut.cuts.kind_ne

namespace Parser

open Sigil.Parse

variable {room : Nat} {e : LexError} {t : Token} {s : State} {text : String}

/-- Every request keeps what consuming a token keeps. -/
theorem Call.keeps (room : Nat) {I : State → Prop} {F : LexError → State → Prop}
    (h : Keeps I F Parse.advance) (call : Call) : Keeps I F (call.rule room) :=
  call.stepwise h.stepwise

/-! ### In front of a failure and behind it -/

namespace State

/-- The failure `e` is ahead, behind the token `t`, and there is no end of input in front of it. -/
structure Awaits (e : LexError) (t : Token) (s : State) : Prop where
  failure : s.supply.failure = some e
  last : s.supply.tokens.getLastD s.current = t
  kind_ne : ∀ u ∈ s.current :: s.supply.tokens, u.kind ≠ .endOfInput

theorem Awaits.current_ne (h : s.Awaits e t) : s.current.kind ≠ .endOfInput :=
  h.kind_ne s.current (List.mem_cons_self ..)

/-- The state behind a failure that was reported: the token `t`, the last one, counts as consumed
and is still the current one, and nothing is behind it. -/
def spent (t : Token) : State :=
  ⟨some t, t, ⟨[], none⟩⟩

/-- The state at the last token of a text, if the token counts as consumed already. -/
def endsWith (t : Token) : State :=
  ⟨some t, t, ⟨[.endAfter (some t)], none⟩⟩

/-- Behind a failure the text seems to end with the last token. -/
theorem spent_same (t : Token) : (spent t).Same (endsWith t) :=
  ⟨rfl, rfl, fun _ => (TokenStream.readable_of_added [] (some t)).symm⟩

end State

/-- The failure is reported when the last token in front of it is consumed, and is forgotten. -/
theorem advance_awaits (e : LexError) (t : Token) :
    Keeps (State.Awaits e t) (fun e' s => e' = e ∧ s = .spent t) Parse.advance := by
  rintro ⟨previous, current, ⟨tokens, failure⟩⟩ ⟨hfailure, hlast, hkind⟩
  have hne : current.kind ≠ .endOfInput := hkind current (by simp)
  simp only at hfailure hlast hkind
  subst hfailure
  cases tokens with
  | nil =>
      obtain rfl : current = t := hlast
      simp only [Parse.advance, hne, if_false, TokenStream.next]
      exact .lexical ⟨rfl, rfl⟩
  | cons u us =>
      simp only [Parse.advance, hne, if_false, TokenStream.next]
      refine .ok ⟨rfl, ?_, fun v hv => hkind v (List.mem_cons_of_mem _ hv)⟩
      rwa [List.getLastD_cons] at hlast

/-- Without a failure in the stream none is reported. -/
theorem advance_without_failure :
    Keeps (fun s => s.supply.failure = none) (fun _ _ => False) Parse.advance := by
  rintro ⟨previous, current, ⟨tokens, failure⟩⟩ h
  simp only at h
  subst h
  unfold Parse.advance
  split
  · exact .ok rfl
  · cases tokens <;> exact .ok rfl

/-! ### Sessions -/

/-- The lexical failure that a reply reports. -/
def Reply.reported (r : Reply) : Option LexError :=
  match r.answer with
  | .error (.lexical e) => some e
  | _ => none

/-- Without a failure in the stream no reply reports one. -/
theorem session_without_failure (calls : List Call) (h : s.supply.failure = none) :
    ∀ r ∈ session room calls s, r.reported = none := by
  induction calls generalizing s with
  | nil => simp [session]
  | cons call calls ih =>
      have hend := call.keeps room advance_without_failure s h
      rw [session]
      generalize call.rule room s = result at hend
      cases hend with
      | ok hm | grammatical hm | overflow hm => exact List.forall_mem_cons.2 ⟨rfl, ih hm⟩
      | lexical h => exact h.elim

/-- The reply is one from in front of a failure: it does not report the failure, and the current
token is not the end of input. -/
def Reply.IsBefore (r : Reply) : Prop :=
  r.reported = none ∧ r.current.kind ≠ .endOfInput

/-- What is replied to some requests with the failure `e` ahead, behind the token `t`. The failure
is not reported, or it is reported once, and the replies behind it are those of a parser of a text
that ends with `t`. -/
inductive Reported (room : Nat) (e : LexError) (t : Token) (s : State) : List Call → Prop
  | never {calls : List Call} (h : ∀ r ∈ session room calls s, r.IsBefore) :
      Reported room e t s calls
  | once {before : List Call} {call : Call} {rest : List Call}
      (hbefore : ∀ r ∈ session room before s, r.IsBefore)
      (heq : session room (before ++ call :: rest) s =
        session room before s ++
          ⟨.error (.lexical e), some t, t⟩ :: session room rest (.endsWith t))
      (hrest : ∀ r ∈ session room rest (.endsWith t), r.reported = none) :
      Reported room e t s (before ++ call :: rest)

/-- One more request in front. -/
theorem Reported.cons {r : Reply} {m : State} {call : Call} {calls : List Call} (hr : r.IsBefore)
    (hsession : ∀ calls, session room (call :: calls) s = r :: session room calls m)
    (h : Reported room e t m calls) : Reported room e t s (call :: calls) := by
  cases h with
  | never h =>
      refine .never ?_
      rw [hsession]
      exact List.forall_mem_cons.2 ⟨hr, h⟩
  | @once before failing rest hbefore heq hrest =>
      rw [← List.cons_append]
      refine .once ?_ ?_ hrest
      · rw [hsession]
        exact List.forall_mem_cons.2 ⟨hr, hbefore⟩
      · rw [List.cons_append, hsession, hsession, heq, List.cons_append]

theorem State.Awaits.reported (h : s.Awaits e t) (calls : List Call) :
    Reported room e t s calls := by
  induction calls generalizing s with
  | nil => exact .never (by simp [session])
  | cons call calls ih =>
      have hend := call.keeps room (advance_awaits e t) s h
      generalize hrun : call.rule room s = result at hend
      cases hend with
      | ok hm | grammatical hm | overflow hm =>
          exact (ih hm).cons ⟨rfl, hm.current_ne⟩ fun calls => by rw [session, hrun]
      | lexical hm =>
          -- The stream is used up, which is the same to the parser as an end of input.
          obtain ⟨rfl, rfl⟩ := hm
          rw [← List.nil_append (call :: calls)]
          refine .once (by simp [session]) ?_ (session_without_failure calls rfl)
          simp only [List.nil_append, session, hrun, session_congr calls (State.spent_same t)]
          rfl

end Parser

end Sigil
