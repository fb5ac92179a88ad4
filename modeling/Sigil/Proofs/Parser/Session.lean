import Sigil.Proofs.Parser.Earliest

/-!
# Sessions with a parser

A parser can be asked for a whole program, and just as well for any phrase, for the token to look
at, or to consume a token, in any order; each request goes on from where the one before got to, and
so does one behind a failure. What is seen of a parser in this way depends on its tokens only up to
the first end of input. An end of input is never consumed for good, so nothing behind it is taken,
and where there is none the parser makes one.

That no rule sees any further follows from the languages of the rules: a run is determined by the
tokens in front of the one where it ends, with one exception. A run that ends because no token can
be taken ends at the only place where this is so.

## Main definitions

* `TokenStream.readable`: the tokens that can be seen of a stream.
* `Parser.State.Same`: states that cannot be told apart.
* `Parser.Call`, `Parser.session`: the requests to a parser, and its replies to some of them.
* `Parse.Stepwise`: the properties of rules that rules put together have if their parts do.

## Main results

* `Parse.FollowsAt.endSame`: rules that follow a language tell no such states apart.
* `Parser.Call.stepwise`: every request has the properties that such rules and the steps have.
* `Parser.Call.indifferent`: no request tells states apart that cannot be told apart.
* `TokenStream.replies_congr`, `parse_congr`: neither does a session or parsing.
-/

namespace Sigil

open Parse

/-! ### What can be seen of a stream -/

namespace TokenStream

/-- The tokens and the failure behind the token `last`, up to the first end of input, which is added
where there is none. -/
def readableFrom (failure : Option LexError) : Option Token → List Token → TokenStream
  | last, [] => if failure.isSome then ⟨[], failure⟩ else ⟨[.endAfter last], none⟩
  | _, t :: ts =>
    if t.kind = .endOfInput then ⟨[t], none⟩
    else
      let more := readableFrom failure (some t) ts
      { more with tokens := t :: more.tokens }

/-- What can be seen of a stream behind the token `last`. -/
def readable (last : Option Token) (stream : TokenStream) : TokenStream :=
  readableFrom stream.failure last stream.tokens

variable {a b : TokenStream} {last : Option Token} {ts us : List Token} {e : Token}
  {failure failure' : Option LexError}

/-- Behind the last token there is an end of input. -/
theorem kind_endAfter (last : Option Token) : (Token.endAfter last).kind = .endOfInput := by
  cases last <;> rfl

/-- What can be seen of a stream is what can be taken first and what can be seen behind it. -/
theorem readable_eq (stream : TokenStream) (last : Option Token) :
    stream.readable last =
      match stream.next last with
      | (.ok t, rest) =>
        if t.kind = .endOfInput then ⟨[t], none⟩
        else { rest.readable (some t) with tokens := t :: (rest.readable (some t)).tokens }
      | (.error e, _) => ⟨[], some e⟩ := by
  obtain ⟨tokens, failure⟩ := stream
  rcases tokens with _ | ⟨t, ts⟩
  · rcases failure with _ | e
    · simp [readable, readableFrom, next, kind_endAfter]
    · rfl
  · rfl

/-- Nothing but an end of input is taken behind a failure. -/
theorem eq_of_next_error {e : LexError} (h : a.next last = (.error e, b)) : b = ⟨[], none⟩ := by
  obtain ⟨tokens, failure⟩ := a
  rcases tokens with _ | ⟨t, ts⟩
  · rcases failure with _ | e'
    · cases h
    · cases h
      rfl
  · cases h

/-- Streams of which the same can be seen go on with the same token, or fail for the same reason. -/
theorem next_of_readable_eq (h : a.readable last = b.readable last) :
    (∃ t a' b', a.next last = (.ok t, a') ∧ b.next last = (.ok t, b') ∧
        (t.kind ≠ .endOfInput → a'.readable (some t) = b'.readable (some t))) ∨
      ∃ e, a.next last = (.error e, ⟨[], none⟩) ∧ b.next last = (.error e, ⟨[], none⟩) := by
  rw [readable_eq a, readable_eq b] at h
  rcases ha : a.next last with ⟨e | t, a'⟩ <;> rcases hb : b.next last with ⟨e' | u, b'⟩ <;>
    rw [ha, hb] at h <;> dsimp only at h
  · obtain rfl := eq_of_next_error ha
    obtain rfl := eq_of_next_error hb
    obtain rfl : e = e' := by simpa using h
    exact .inr ⟨e, rfl, rfl⟩
  · split at h <;> simp at h
  · split at h <;> simp at h
  · obtain rfl : t = u := by split at h <;> split at h <;> simp_all
    refine .inl ⟨t, a', b', rfl, rfl, fun hkind => ?_⟩
    simp only [hkind, if_false] at h
    obtain ⟨htokens, hfailure⟩ := TokenStream.mk.inj h
    have hmore := (List.cons.inj htokens).2
    generalize a'.readable (some t) = x at hmore hfailure ⊢
    generalize b'.readable (some t) = y at hmore hfailure ⊢
    cases x
    cases y
    simp_all

/-- An end of input is added behind the last token. -/
theorem readable_of_added (ts : List Token) (last : Option Token) :
    readable last ⟨ts ++ [.endAfter (ts.getLast?.or last)], none⟩ = readable last ⟨ts, none⟩ := by
  induction ts generalizing last with
  | nil => simp [readable_eq, next, kind_endAfter]
  | cons t ts ih =>
      have hlast : (t :: ts).getLast?.or last = ts.getLast?.or (some t) := by
        rw [List.getLast?_cons]
        cases ts.getLast? <;> rfl
      rw [readable_eq, readable_eq ⟨t :: ts, none⟩, hlast]
      simp only [List.cons_append, next, ih (some t)]

/-- Nothing behind an end of input can be seen. -/
theorem readable_of_end (he : e.kind = .endOfInput) (last : Option Token) :
    readable last ⟨ts ++ e :: us, failure⟩ = readable last ⟨ts ++ [e], none⟩ := by
  induction ts generalizing last with
  | nil => simp [readable_eq, next, he]
  | cons t ts ih =>
      rw [readable_eq, readable_eq ⟨t :: ts ++ [e], none⟩]
      simp only [List.cons_append, next, ih (some t)]

end TokenStream

/-! ### States that cannot be told apart -/

namespace Parser.State

/-- The same can be seen from two states: the token consumed last, the current token and, if that is
not the end of input, the tokens behind it. -/
structure Same (s s' : State) : Prop where
  previous : s.previous = s'.previous
  current : s.current = s'.current
  supply : s.current.kind ≠ .endOfInput →
    s.supply.readable (some s.current) = s'.supply.readable (some s.current)

/-- A state is the same as itself. -/
theorem Same.refl (s : State) : s.Same s :=
  ⟨rfl, rfl, fun _ => rfl⟩

/-- Of two states that are the same it does not matter which comes first. -/
theorem Same.symm {s s' : State} (h : s.Same s') : s'.Same s := by
  obtain ⟨hprevious, hcurrent, hsupply⟩ := h
  exact ⟨hprevious.symm, hcurrent.symm, hcurrent ▸ fun hkind => (hsupply hkind).symm⟩

end Parser.State

namespace Parse

open Sigil.Parser

/-- Two runs end the same, with results or with failures, in states that cannot be told apart. -/
inductive EndSame {α : Type} :
    EStateM.Result ParseFailure State α → EStateM.Result ParseFailure State α → Prop
  | ok {a : α} {s s' : State} (hs : s.Same s') : EndSame (.ok a s) (.ok a s')
  | error {e : ParseFailure} {s s' : State} (hs : s.Same s') : EndSame (.error e s) (.error e s')

/-- The rule tells no states apart from which the same can be seen. -/
def Indifferent {α : Type} (p : Parse α) : Prop :=
  ∀ s s' : State, s.Same s' → EndSame (p s) (p s')

variable {α β : Type} {p : Parse α} {s s' m m' n n' : State} {v w : List Token}

/-! ### Steps -/

/-- Two rules one after the other do not look at the token in front if neither does. -/
theorem Indifferent.bind {f : α → Parse β} (h : p.Indifferent) (hf : ∀ a, (f a).Indifferent) :
    (p >>= f).Indifferent := by
  intro s s' hs
  have hend := h s s' hs
  generalize hp : p s = x, hq : p s' = y at hend
  cases hend with
  | ok hm =>
      rw [bind_of_ok hp, bind_of_ok hq]
      exact hf _ _ _ hm
  | error hm =>
      rw [bind_of_error hp, bind_of_error hq]
      exact .error hm

/-- An error is about the current token. -/
theorem fail_indifferent (fault : ParseFault) : (fail fault : Parse α).Indifferent := by
  intro s s' hs
  rw [fail, fail, hs.current]
  exact .error hs

/-- The token in front is left behind. -/
theorem advance_indifferent : advance.Indifferent := by
  intro s s' hs
  by_cases hend : s.current.kind = .endOfInput
  · simp only [advance, ← hs.current, hend, if_true]
    exact .ok ⟨rfl, rfl, fun hkind => absurd hend hkind⟩
  · simp only [advance, ← hs.current, hend, if_false]
    rcases TokenStream.next_of_readable_eq (hs.supply hend) with
      ⟨t, a, b, ha, hb, hab⟩ | ⟨e, ha, hb⟩
    · rw [ha, hb]
      exact .ok ⟨rfl, rfl, hab⟩
    · rw [ha, hb]
      exact .error (.refl _)

end Parse

/-! ### Runs -/

namespace Parser.State

open Sigil.Parse

variable {s s' m m' n n' : State} {v w : List Token} {t : Token}

/-- From a state that cannot be told apart from another one the same token is consumed. -/
theorem Same.steps (hs : s.Same s') (h : s.Steps t m) : ∃ m', s'.Steps t m' ∧ m.Same m' := by
  obtain ⟨rfl, hkind, hadvance⟩ := h
  have hend := advance_indifferent s s' hs
  generalize hq : advance s' = y at hend
  rw [hadvance] at hend
  cases hend with
  | @ok _ _ m' hm => exact ⟨m', ⟨hs.current.symm, hkind, hq⟩, hm⟩

/-- From states that cannot be told apart the same runs lead to such states. -/
theorem Same.reads (hs : s.Same s') (h : s.Reads w m) : ∃ m', s'.Reads w m' ∧ m.Same m' := by
  induction w generalizing s s' with
  | nil =>
      obtain rfl := reads_nil.1 h
      exact ⟨s', rfl, hs⟩
  | cons t w ih =>
      obtain ⟨n, ht, h⟩ := h
      obtain ⟨n', ht', hn⟩ := hs.steps ht
      obtain ⟨m', h', hm⟩ := ih hn h
      exact ⟨m', .cons ht' h', hm⟩

/-- There is at most one place in front of a state where no token can be taken. -/
theorem Reads.unique_stuck {e e' : ParseFailure} (hv : s.Reads v m) (hw : s.Reads w m')
    (h : advance m = .error e n) (h' : advance m' = .error e' n') : m = m' := by
  induction v generalizing s w with
  | nil =>
      obtain rfl := reads_nil.1 hv
      rcases w with _ | ⟨t, w⟩
      · exact (reads_nil.1 hw).symm
      · obtain ⟨_, ⟨-, -, hadvance⟩, -⟩ := hw
        rw [h] at hadvance
        cases hadvance
  | cons t v ih =>
      obtain ⟨k, ht, hv⟩ := hv
      rcases w with _ | ⟨u, w⟩
      · obtain rfl := reads_nil.1 hw
        obtain ⟨-, -, hadvance⟩ := ht
        rw [h'] at hadvance
        cases hadvance
      · obtain ⟨k', hu, hw⟩ := hw
        obtain rfl : t = u := ht.1.symm.trans hu.1
        obtain rfl := ht.unique hu
        exact ih hv hw

end Parser.State

namespace Parse

open Sigil.Parser

variable {α : Type} {p : Parse α} {s s' : State} {S T : α → List Token → Prop}
  {L : List Token → Prop}

/-- A rule that follows a language ends the same from states that cannot be told apart. -/
theorem FollowsAt.endSame (h : FollowsAt S p s) (h' : FollowsAt T p s') (hs : s.Same s') :
    EndSame (p s) (p s') := by
  cases h with
  | succeeds hreads _ hlocal =>
      obtain ⟨m', hreads', hm⟩ := hs.reads hreads
      rw [hlocal.eq hreads, hlocal s' m' hreads' hs.previous.symm hm.current.symm]
      exact .ok hm
  | fails hreads _ _ hlocal | overflows hreads _ hlocal =>
      obtain ⟨m', hreads', hm⟩ := hs.reads hreads
      rw [hlocal.eq hreads, hlocal s' m' hreads' hs.previous.symm hm.current.symm]
      exact .error hm
  | @breaks w m n e hreads hkind hadvance _ heq =>
      -- A run from `s'` that ended otherwise would have been the one from `s`.
      obtain ⟨m', hreads', hm⟩ := hs.reads hreads
      have hend := advance_indifferent m m' hm
      generalize hq : Parse.advance m' = y at hend
      rw [hadvance] at hend
      cases hend with
      | @error _ _ n' hn =>
          cases h' with
          | succeeds hv _ hlocal =>
              obtain ⟨k, hv', hk⟩ := hs.symm.reads hv
              rw [hlocal s k hv' hs.previous hk.current.symm] at heq
              cases heq
          | fails hv _ _ hlocal | overflows hv _ hlocal =>
              obtain ⟨k, hv', hk⟩ := hs.symm.reads hv
              rw [hlocal s k hv' hs.previous hk.current.symm] at heq
              cases heq
          | breaks hv _ hadvance' _ heq' =>
              obtain rfl := hv.unique_stuck hreads' hadvance' hq
              rw [hq] at hadvance'
              cases hadvance'
              rw [heq, heq']
              exact .error hn

/-- Whatever follows a language does not look at the token in front. -/
theorem Follows.indifferent (h : p.Follows L) : p.Indifferent :=
  fun s s' hs => (h s).endSame (h s') hs

end Parse

/-! ### Requests -/

namespace Parser

/-- A request to a parser: for a whole program, for a phrase, from what is parsed already if there
is something, or to take a single step. -/
inductive Call where
  | program
  | routine (routine : Routine)
  | absent
  | current
  | advance
  | check (kinds : List TokenKind)
  | accept (kinds : List TokenKind)
  | expect (kinds : List TokenKind)
  deriving DecidableEq

/-- What a request gives. -/
inductive Answer where
  | node (t : Node)
  | token (t : Option Token)
  | truth (b : Bool)
  deriving DecidableEq

/-- The rule or the step that is asked for, with room for `room` calls. An overflow of a routine is
not reported by anyone, so it is an answer of its own. -/
def Call.rule (room : Nat) : Call → Parse Answer
  | program => .node <$> Parser.program room
  | routine r => .node <$> run room r
  | absent => .node <$> Parse.absent
  | current => (.token ∘ some) <$> Parse.current
  | advance => (.token ∘ some) <$> Parse.advance
  | check kinds => .truth <$> Parse.check kinds
  | accept kinds => .token <$> Parse.accept kinds
  | expect kinds => (.token ∘ some) <$> Parse.expect kinds

/-- What is seen of a parser behind a request: what it gave or why it failed, and the tokens around
the place where it got to. -/
structure Reply where
  answer : Except ParseFailure Answer
  previous : Option Token
  current : Token

/-- The replies to some requests. Each goes on from where the one before got to, failed or not. -/
def session (room : Nat) : List Call → State → List Reply
  | [], _ => []
  | call :: calls, s =>
    match call.rule room s with
    | .ok answer m => ⟨.ok answer, m.previous, m.current⟩ :: session room calls m
    | .error e m => ⟨.error e, m.previous, m.current⟩ :: session room calls m

/-- The replies of a parser of a stream, if it has a first token. -/
def replies (room : Nat) (calls : List Call) (stream : TokenStream) :
    Except LexError (List Reply) :=
  (State.start stream).map (session room calls)

end Parser

/-! ### Properties of all requests -/

namespace Parse

open Sigil.Parser

/-- A property of rules that every rule has which follows a language, that the steps have, and that
is kept when rules are put together. -/
structure Stepwise (P : ∀ {α : Type}, Parse α → Prop) : Prop where
  follows : ∀ {α : Type} {p : Parse α} {L : List Token → Prop}, p.Follows L → P p
  advance : P Parse.advance
  fail : ∀ {α : Type} (fault : ParseFault), P (Parse.fail fault : Parse α)
  bind : ∀ {α β : Type} {p : Parse α} {f : α → Parse β}, P p → (∀ a, P (f a)) → P (p >>= f)

namespace Stepwise

variable {P : ∀ {α : Type}, Parse α → Prop} (h : Stepwise P) {α β : Type} {p : Parse α}

include h

/-- A rule that gives something and does nothing. -/
theorem still {a : State → α} (hp : ∀ s, p s = .ok (a s) s)
    (ha : ∀ s t, t.previous = s.previous → t.current = s.current → a t = a s) : P p :=
  h.follows (L := fun w => w = []) fun s =>
    .still (fun t hprevious hcurrent => by rw [hp, ha s t hprevious hcurrent]) rfl

/-- A result has the property. -/
theorem pure (a : α) : P (Pure.pure a : Parse α) :=
  h.still (a := fun _ => a) (fun _ => rfl) fun _ _ _ _ => rfl

/-- What is made of a result has the property of the rule for it. -/
theorem map (hp : P p) (f : α → β) : P (f <$> p) := by
  rw [map_eq_pure_bind]
  exact h.bind hp fun a => h.pure (f a)

/-- To look at the current token has the property. -/
theorem current : P Parse.current :=
  h.still (a := State.current) (fun _ => rfl) fun _ _ _ hcurrent => hcurrent

/-- To build the node of what is left out has the property. -/
theorem absent : P Parse.absent :=
  h.still (fun _ => rfl) fun _ _ _ hcurrent => by rw [hcurrent]

/-- To check the current token has the property. -/
theorem check (kinds : List TokenKind) : P (Parse.check kinds) :=
  h.still (fun _ => rfl) fun _ _ _ hcurrent => by rw [hcurrent]

/-- To take a token that may be there has the property. -/
theorem accept (kinds : List TokenKind) : P (Parse.accept kinds) := by
  refine h.bind (h.check kinds) fun found => ?_
  cases found with
  | true => exact h.map h.advance some
  | false => exact h.pure none

/-- To take a token that has to be there has the property. -/
theorem expect (kinds : List TokenKind) : P (Parse.expect kinds) := by
  refine h.bind (h.accept kinds) fun r => ?_
  cases r with
  | some t => exact h.pure t
  | none => exact h.fail _

/-- The parser of programs has the property, since it is put together from such rules. -/
theorem program (room : Nat) : P (Parser.program room) :=
  h.follows (program_follows room)

end Stepwise

end Parse

namespace Parser

variable {room : Nat} {a b : TokenStream} {s s' : State}

/-- What holds stepwise holds of every request. -/
theorem Call.stepwise {P : ∀ {α : Type}, Parse α → Prop} (h : Stepwise P) (call : Call) :
    P (call.rule room) := by
  cases call with
  | program => exact h.map (h.program room) _
  | routine r => exact h.map (h.follows (run_follows room r)) _
  | absent => exact h.map h.absent _
  | current => exact h.map h.current _
  | advance => exact h.map h.advance _
  | check kinds => exact h.map (h.check kinds) _
  | accept kinds => exact h.map (h.accept kinds) _
  | expect kinds => exact h.map (h.expect kinds) _

/-! ### What requests depend on -/

/-- Not to look at the token in front is such a property. -/
theorem indifferent_stepwise : Stepwise Indifferent where
  follows := Follows.indifferent
  advance := advance_indifferent
  fail := fail_indifferent
  bind := Indifferent.bind

/-- No request tells states apart from which the same can be seen. -/
theorem Call.indifferent (room : Nat) (call : Call) : (call.rule room).Indifferent :=
  call.stepwise indifferent_stepwise

/-- Calls are answered in the same way from states that are the same. -/
theorem session_congr (calls : List Call) (hs : s.Same s') :
    session room calls s = session room calls s' := by
  induction calls generalizing s s' with
  | nil => rfl
  | cons call calls ih =>
      have hend := call.indifferent room s s' hs
      rw [session, session]
      generalize call.rule room s = x, call.rule room s' = y at hend
      cases hend with
      | ok hm => simp only [hm.previous, hm.current, ih hm]
      | error hm => simp only [hm.previous, hm.current, ih hm]

/-- Parsers start in states that cannot be told apart if the same can be seen of their streams. -/
theorem State.start_same (h : a.readable none = b.readable none) :
    (∃ s s', start a = .ok s ∧ start b = .ok s' ∧ s.Same s') ∨
      ∃ e, start a = .error e ∧ start b = .error e := by
  rcases TokenStream.next_of_readable_eq h with ⟨t, a', b', ha, hb, hab⟩ | ⟨e, ha, hb⟩
  · exact .inl ⟨⟨none, t, a'⟩, ⟨none, t, b'⟩, by rw [start, ha], by rw [start, hb], rfl, rfl, hab⟩
  · exact .inr ⟨e, by rw [start, ha], by rw [start, hb]⟩

/-- The replies of a parser depend on what can be seen of its stream. -/
theorem replies_congr (calls : List Call) (h : a.readable none = b.readable none) :
    replies room calls a = replies room calls b := by
  rcases State.start_same h with ⟨s, s', ha, hb, hs⟩ | ⟨e, ha, hb⟩
  · rw [replies, replies, ha, hb, Except.map, Except.map, session_congr calls hs]
  · rw [replies, replies, ha, hb]

end Parser

/-- What is parsed depends on what can be seen of the stream. -/
theorem parse_congr {room : Nat} {a b : TokenStream} (h : a.readable none = b.readable none) :
    parse room a = parse room b := by
  rcases Parser.State.start_same h with ⟨s, s', ha, hb, hs⟩ | ⟨e, ha, hb⟩
  · have hend := Parser.indifferent_stepwise.program room s s' hs
    rw [parse_of_start ha, parse_of_start hb]
    generalize Parser.program room s = x, Parser.program room s' = y at hend
    cases hend with
    | ok _ => rfl
    | error _ => rfl
  · rw [parse, parse, ha, hb]

end Sigil
