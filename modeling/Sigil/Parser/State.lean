import Sigil.Parser.Failure
import Sigil.Tree.Basic

/-!
# The state of a parser

A parser looks at one token, the current one, remembers the token that it consumed last, and takes
further tokens from a stream. At the end of the stream it goes on with an end of input behind the
last token; a failure that ends the stream is reported once, when the parser gets there.

## Main results

* `Parse.pending_advance`: consuming a token other than the end of input leaves fewer tokens.
* `Parse.expect_of_not_contains`: a token of another kind than expected stays where it is.
-/

namespace Sigil

namespace TokenStream

/-- Takes the next token behind the one given, and what remains of the stream. A failure is taken
from the stream when it is reported. -/
def next (last : Option Token) : TokenStream → Except LexError Token × TokenStream
  | ⟨t :: ts, failure⟩ => (.ok t, ⟨ts, failure⟩)
  | ⟨[], some e⟩ => (.error e, ⟨[], none⟩)
  | ⟨[], none⟩ => (.ok (.endAfter last), ⟨[], none⟩)

/-- The number of times that something other than an added end of input can be taken. -/
def pending (s : TokenStream) : Nat :=
  s.tokens.length + if s.failure.isSome then 1 else 0

end TokenStream

namespace Parser

/-- The state of a parser: the token consumed last, the token to look at, and the tokens behind. -/
structure State where
  previous : Option Token
  current : Token
  supply : TokenStream
  deriving DecidableEq, Repr

/-- A bound on the number of tokens that can still be consumed. -/
def State.pending (s : State) : Nat :=
  s.supply.pending + if s.current.kind = .endOfInput then 0 else 1

/-- The state in front of a stream of tokens. -/
def State.start (supply : TokenStream) : Except LexError State :=
  match supply.next none with
  | (.ok t, rest) => .ok ⟨none, t, rest⟩
  | (.error e, _) => .error e

end Parser

/-- A rule of a parser. A failure leaves the parser where it got to. -/
abbrev Parse := EStateM ParseFailure Parser.State

namespace Parse

open Sigil.Parser

/-! ### Tokens -/

/-- The token to look at. -/
def current : Parse Token := fun s => .ok s.current s

/-- Consumes the current token, unless it is the end of input, which stays current. Whatever comes
next, the token is then the one consumed last. -/
def advance : Parse Token := fun s =>
  if s.current.kind = .endOfInput then .ok s.current { s with previous := some s.current }
  else
    match s.supply.next (some s.current) with
    | (.ok t, rest) => .ok s.current ⟨some s.current, t, rest⟩
    | (.error e, rest) => .error (.lexical e) ⟨some s.current, s.current, rest⟩

/-- The current token is of one of the kinds. -/
def check (kinds : List TokenKind) : Parse Bool := fun s =>
  .ok (kinds.contains s.current.kind) s

/-- Consumes the current token if it is of one of the kinds. -/
def accept (kinds : List TokenKind) : Parse (Option Token) := do
  if ← check kinds then some <$> advance else return none

/-- Fails at the current token. -/
def fail {α : Type} (fault : ParseFault) : Parse α := fun s =>
  .error (.grammatical ⟨fault, s.current⟩) s

/-- Fails because the stack has no room for another call. -/
def overflow {α : Type} : Parse α := fun s => .error .overflow s

/-- Reports a stack that ran out as a fault at the token the parser got to. -/
def reportingOverflow {α : Type} (p : Parse α) : Parse α := fun s =>
  match p s with
  | .error .overflow s' => .error (.grammatical ⟨.nestedTooDeeply, s'.current⟩) s'
  | r => r

/-- Consumes the current token, which has to be of one of the kinds. -/
def expect (kinds : List TokenKind) : Parse Token := do
  match ← accept kinds with
  | some t => return t
  | none => fail (.unexpected (kinds.map .token))

theorem accept_of_contains {kinds : List TokenKind} {s : State}
    (h : kinds.contains s.current.kind = true) : accept kinds s = (some <$> advance) s := by
  simp only [accept, check, bind, EStateM.bind, h, if_true]

theorem accept_of_not_contains {kinds : List TokenKind} {s : State}
    (h : kinds.contains s.current.kind = false) : accept kinds s = .ok none s := by
  simp only [accept, check, bind, EStateM.bind, h]
  rfl

theorem expect_of_contains {kinds : List TokenKind} {s : State}
    (h : kinds.contains s.current.kind = true) : expect kinds s = advance s := by
  simp only [expect, bind, EStateM.bind, accept_of_contains h, Functor.map, EStateM.map]
  cases advance s <;> rfl

/-- A token of another kind than expected stays where it is. -/
theorem expect_of_not_contains {kinds : List TokenKind} {s : State}
    (h : kinds.contains s.current.kind = false) :
    expect kinds s = .error (.grammatical ⟨.unexpected (kinds.map .token), s.current⟩) s := by
  simp only [expect, bind, EStateM.bind, accept_of_not_contains h]
  rfl

/-! ### Nodes -/

/-- A node that starts at a place and ends with the token consumed last. -/
def finish (kind : NodeKind) (start : Position) (value : Value Node) (children : List Node) :
    Parse Node := fun s =>
  let stop := match s.previous with
    | some t => t.stop
    | none => start.offset
  .ok ⟨kind, value, children, ⟨start, stop⟩⟩ s

/-- The mark of a slice bound that is left out, in front of the current token. -/
def absent : Parse Node := fun s =>
  .ok ⟨.absent, .none, [], ⟨s.current.position, s.current.position.offset⟩⟩ s

/-! ### Repetition -/

variable {α : Type}

/-- Repeats a step as long as it gives something, and collects what it gives. A step that gives
something without consuming a token ends the repetition. -/
def collect (step : Parse (Option α)) : Parse (List α) := fun s =>
  match step s with
  | .error e s' => .error e s'
  | .ok none s' => .ok [] s'
  | .ok (some a) s' =>
    if s'.pending < s.pending then
      match collect step s' with
      | .error e s'' => .error e s''
      | .ok as s'' => .ok (a :: as) s''
    else .ok [a] s'
termination_by s => s.pending

/-- Repeats a step on what it gave the last time, as long as it gives something. A step that gives
something without consuming a token ends the repetition. -/
def iterate (step : α → Parse (Option α)) (a : α) : Parse α := fun s =>
  match step a s with
  | .error e s' => .error e s'
  | .ok none s' => .ok a s'
  | .ok (some b) s' => if s'.pending < s.pending then iterate step b s' else .ok b s'
termination_by s => s.pending

/-- Consuming a token other than the end of input leaves fewer tokens. -/
theorem pending_advance {s s' : State} {t : Token} (h : advance s = .ok t s')
    (ht : s.current.kind ≠ .endOfInput) : s'.pending < s.pending := by
  simp only [advance, ht, if_false] at h
  obtain ⟨previous, current, ⟨tokens, failure⟩⟩ := s
  cases tokens with
  | cons u us =>
      simp only [TokenStream.next] at h
      cases h
      have hu : (if u.kind = .endOfInput then 0 else 1) ≤ 1 := by split <;> decide
      simp only [State.pending, TokenStream.pending, List.length_cons, ht, if_false]
      omega
  | nil =>
      cases failure with
      | some e => simp [TokenStream.next] at h
      | none =>
          simp only [TokenStream.next] at h
          cases h
          simp only [State.pending, TokenStream.pending, ht, if_false]
          simp [Token.endAfter, Token.endAt]

end Parse

end Sigil
