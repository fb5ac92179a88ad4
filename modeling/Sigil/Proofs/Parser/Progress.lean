import Sigil.Proofs.Grammar.Complete
import Sigil.Proofs.Parser.Reported
import Sigil.Proofs.Parser.Unlimited

/-!
# Progress

A parser may be given any list of tokens: kinds that no text has, an end of input in the middle, or
none. Whatever it is asked for, it ends with a node or with a fault at the current token, unless the
stack runs out, and at every time the tokens that it has consumed, the current one and those that it
has not taken yet are the list, in its order; an end of input is added only where the list has come
to its end.

That it ends has two reasons. Behind an operand, an item or a statement that is not parsed already
at least one token is consumed, so every pass of a repetition leaves fewer tokens, and no repetition
is ever broken off. And a routine calls a looser one only behind a token, so with eight frames for
each token the stack does not run out.

## Main definitions

* `Routine.Consumes`: the routines for phrases that are not empty.
* `Parser.Ends`: how a rule ends that is asked for behind some tokens.
* `Parser.Passes`: the passes of all the repetitions that routines are made of.

## Main results

* `Parser.run_ends`, `Parser.program_ends`: every routine ends, and consumes a token if nothing is
  parsed already.
* `Parser.run_settled`, `Parser.program_settled`: eight frames for each token will do.
* `Parser.Passes.pending_lt`: every pass leaves fewer tokens.
* `Parser.progress`: all this, for every list of tokens and whatever has been consumed of it.
-/

namespace Sigil

open Parse

namespace Parse

open Sigil.Parser

variable {α : Type} {p : Parse α} {L : List Token → Prop} {s m : State} {a : α}

/-- Where a rule that follows a language succeeds, it has read a list of the language. -/
theorem Follows.reads (hp : p.Follows L) (h : p s = .ok a m) : ∃ v, s.Reads v m ∧ L v := by
  cases hp s with
  | succeeds hreads hv hlocal =>
      rw [hlocal.eq hreads] at h
      cases h
      exact ⟨_, hreads, hv⟩
  | fails hreads _ _ hlocal | overflows hreads _ hlocal =>
      rw [hlocal.eq hreads] at h
      cases h
  | breaks _ _ _ _ heq =>
      rw [heq] at h
      cases h

/-- A rule that follows a language leaves no more tokens than there are. -/
theorem Follows.pending_le (hp : p.Follows L) (h : p s = .ok a m) : m.pending ≤ s.pending := by
  obtain ⟨v, hreads, -⟩ := hp.reads h
  have hle := hreads.pending_le
  omega

/-- A rule whose language has no empty list leaves fewer tokens. -/
theorem Follows.pending_lt (hp : p.Follows L) (hL : ¬L []) (h : p s = .ok a m) :
    m.pending < s.pending := by
  obtain ⟨v, hreads, hv⟩ := hp.reads h
  refine hreads.pending_lt ?_
  rintro rfl
  exact hL hv

end Parse

/-! ### Repetitions -/

namespace Parser

variable {call : Routine → Parse Node}

/-- A pass of a repetition leads from `s` to `m`: a statement of a program or a block, an argument,
an element or an entry behind a comma, an operator in front of an operand, a suffix, or a binary
operator with its right operand. -/
inductive Passes (call : Routine → Parse Node) (s m : State) : Prop
  | statement {stop : List TokenKind} {t : Node}
      (h : (do if ← check stop then return none else some <$> call .statement) s = .ok (some t) m)
  | item {k : Series} {t : Node} (h : k.step call s = .ok (some t) m)
  | operator {o : Token × NodeKind} (h : prefixOperator s = .ok (some o) m)
  | suffix {object t : Node} (h : suffix? call object s = .ok (some t) m)
  | operation {least : Int} {left t : Node} (h : operation? call least left s = .ok (some t) m)

/-- An item of a series leaves no more tokens than there are. -/
theorem series_rule_pending_le (hcall : CallsFollow call) (k : Series) {t : Node} {s m : State}
    (h : k.rule call s = .ok t m) : m.pending ≤ s.pending := by
  cases k with
  | arguments => exact hcall.expression.pending_le h
  | elements => exact hcall.expression.pending_le h
  | entries => exact (mapEntry_follows hcall).pending_le h

/-- An item of a repetition stands behind a comma. -/
theorem series_step_pending_lt (hcall : CallsFollow call) {k : Series} {t : Node} {s m : State}
    (h : k.step call s = .ok (some t) m) : m.pending < s.pending := by
  rw [Series.step, bind_eq_ok] at h
  obtain ⟨comma, m₁, hcomma, h⟩ := h
  rcases accept_eq_ok (by decide) hcomma with ⟨o, rfl, -, ho⟩ | ⟨rfl, rfl, -⟩
  · have hitem : ∃ u, k.rule call m₁ = .ok u m := by
      dsimp only at h
      split at h
      · obtain ⟨u, hu, -⟩ := map_eq_ok.1 h
        exact ⟨u, hu⟩
      · obtain ⟨closed, m₂, hclosed, h⟩ := bind_eq_ok.1 h
        obtain ⟨-, rfl⟩ := check_eq_ok.1 hclosed
        cases closed with
        | true => cases (pure_eq_ok.1 h).1
        | false =>
            obtain ⟨u, hu, -⟩ := map_eq_ok.1 h
            exact ⟨u, hu⟩
    obtain ⟨u, hu⟩ := hitem
    exact Nat.lt_of_le_of_lt (series_rule_pending_le hcall k hu) ho.pending_lt
  · cases (pure_eq_ok.1 h).1

/-- Every pass of a repetition leaves fewer tokens, so none is broken off. -/
theorem Passes.pending_lt {room : Nat} {s m : State} (h : Passes (run room) s m) :
    m.pending < s.pending := by
  have hcall := run_follows room
  cases h with
  | statement h =>
      obtain ⟨closed, m₁, hclosed, h⟩ := bind_eq_ok.1 h
      obtain ⟨-, rfl⟩ := check_eq_ok.1 hclosed
      cases closed with
      | true => cases (pure_eq_ok.1 h).1
      | false =>
          obtain ⟨u, hu, -⟩ := map_eq_ok.1 h
          exact hcall.statement.pending_lt (fun hnil => hnil.ne_nil rfl) hu
  | item h => exact series_step_pending_lt hcall h
  | operator h => exact (prefixOperator_follows s).pending_lt h
  | suffix h => exact (suffix?_follows hcall _ s).pending_lt h
  | operation h => exact (operation?_follows hcall (Int.le_refl _) _ s).pending_lt h

/-- Every sequence of passes comes to an end. -/
theorem passes_wellFounded (room : Nat) : WellFounded fun m s => Passes (run room) s m :=
  Subrelation.wf Passes.pending_lt (measure State.pending).wf

end Parser

/-! ### Routines -/

/-- The routine is one for a phrase that is not empty: not for what stands behind an operand or a
bound that is parsed already, and not for a bound. -/
def Routine.Consumes : Routine → Prop
  | expression (some _) | binary _ (some _) | suffixed (some _) | slice _ _ | sliceBound => False
  | statement | block | expression none | binary _ none | unary | operand | suffixed none
  | subscript _ | primary | array | map => True

/-- The language of such a routine has no empty list. -/
theorem Routine.Consumes.not_language_nil {routine : Routine} (h : routine.Consumes) :
    ¬routine.language [] := by
  have hexpression {l : Int} : ¬IsExpression l [] := fun h => h.ne_nil rfl
  have hstatement : ¬IsStatement [] := fun h => h.ne_nil rfl
  rcases routine with _ | _ | (_ | a) | ⟨least, _ | a⟩ | _ | _ | (_ | a) | _ | _ | _ | _ | _ | _
  case statement | block => exact hstatement
  case subscript => exact fun h => h.1 rfl
  case expression.some | binary.some | suffixed.some | slice | sliceBound => exact h.elim
  all_goals exact hexpression

namespace Parser

variable {ts v w : List Token} {s m : State} {room : Nat} {routine : Routine}

/-- How a rule ends that is asked for behind the tokens `w` of the list `ts`: with a node, with a
fault at the current token, or because the stack runs out, behind further tokens of the list, none
of which is an end of input. If the rule consumes, a node is not given for nothing. -/
inductive Ends (ts w : List Token) (consumes : Prop) :
    EStateM.Result ParseFailure State Node → Prop
  | node {t : Node} {m : State} {v : List Token} (hbehind : m.IsBehind ⟨ts, none⟩ (w ++ v))
      (hv : ∀ o ∈ v, o.kind ≠ .endOfInput) (hne : consumes → v ≠ []) : Ends ts w consumes (.ok t m)
  | fault {fault : ParseFault} {m : State} {v : List Token}
      (hbehind : m.IsBehind ⟨ts, none⟩ (w ++ v)) (hv : ∀ o ∈ v, o.kind ≠ .endOfInput) :
      Ends ts w consumes (.error (.grammatical ⟨fault, m.current⟩) m)
  | overflow {m : State} {v : List Token} (hbehind : m.IsBehind ⟨ts, none⟩ (w ++ v))
      (hv : ∀ o ∈ v, o.kind ≠ .endOfInput) : Ends ts w consumes (.error .overflow m)

/-- A rule that follows a language ends in one of these ways, wherever in the list it is asked
for. -/
theorem ends_of_follows {p : Parse Node} {L : List Token → Prop} {consumes : Prop}
    (hp : p.Follows L) (hL : consumes → ¬L []) (h : s.IsBehind ⟨ts, none⟩ w) :
    Ends ts w consumes (p s) := by
  cases hp s with
  | succeeds hreads hv hlocal =>
      rw [hlocal.eq hreads]
      refine .node (h.reads hreads) hreads.kind_ne fun hconsumes => ?_
      rintro rfl
      exact hL hconsumes hv
  | fails hreads _ _ hlocal =>
      rw [hlocal.eq hreads]
      exact .fault (h.reads hreads) hreads.kind_ne
  | overflows hreads _ hlocal =>
      rw [hlocal.eq hreads]
      exact .overflow (h.reads hreads) hreads.kind_ne
  | breaks hreads hkind hadvance _ _ =>
      -- A list of tokens has no failure behind it.
      cases (h.reads hreads).eq_of_advance_error hkind hadvance

theorem run_ends (room : Nat) (routine : Routine) (h : s.IsBehind ⟨ts, none⟩ w) :
    Ends ts w routine.Consumes (run room routine s) :=
  ends_of_follows (run_follows room routine) Routine.Consumes.not_language_nil h

theorem program_ends (room : Nat) (h : s.IsBehind ⟨ts, none⟩ w) :
    Ends ts w False (program room s) :=
  ends_of_follows (program_follows room) False.elim h

/-- With enough frames for the tokens that are left a routine does not overflow, and more frames
change nothing. -/
theorem run_settled (hroom : 8 * s.pending + routine.rank < room) :
    ¬(run room routine).Overflows s ∧
      ∀ more, run (room + more) routine s = run room routine s := by
  have hoverflow := run_not_overflows hroom
  exact ⟨hoverflow, fun more => run_eq_of_not_overflows (Nat.le_add_right room more) hoverflow⟩

/-- With enough frames for the tokens that are left no program is refused because it nests too
deeply, and more frames change nothing. -/
theorem program_settled (hroom : 8 * s.pending + 7 < room) :
    (∀ t m, program room s ≠ .error (.grammatical ⟨.nestedTooDeeply, t⟩) m) ∧
      ∀ more, program (room + more) s = program room s := by
  have hendures := program_endures room s (by omega)
  have hoverflow := hendures.not_overflows
  have hmore (more : Nat) : program (room + more) s = programWith (run room) s := by
    have hcalls := run_approximates (Nat.le_add_right room more)
    have heq := (programWith_approximates hcalls s).resolve_right hoverflow
    rw [program_eq, reportingOverflow_of_not_overflows, heq]
    rintro ⟨m, h⟩
    exact hoverflow ⟨m, heq.trans h⟩
  have hsame : program room s = programWith (run room) s := hmore 0
  refine ⟨fun t m h => hendures.1 _ m (hsame.symm.trans h) rfl, fun more => ?_⟩
  rw [hmore, hsame]

/-- The parser is behind the tokens `w` of the list `ts` and some more, none of which is an end of
input. -/
def State.IsFurther (ts w : List Token) (s : State) : Prop :=
  ∃ v, (∀ o ∈ v, o.kind ≠ .endOfInput) ∧ s.IsBehind ⟨ts, none⟩ (w ++ v)

/-- Consuming a token keeps to the list. An end of input stays current. -/
theorem advance_isFurther (ts w : List Token) :
    Keeps (State.IsFurther ts w) (fun _ _ => False) Parse.advance := by
  rintro s ⟨v, hv, hbehind⟩
  by_cases hkind : s.current.kind = .endOfInput
  · rw [Parse.advance, if_pos hkind]
    exact .ok ⟨v, hv, hbehind⟩
  cases hadvance : Parse.advance s with
  | ok t m =>
      have hstep := (advance_eq_ok hkind).1 hadvance
      refine .ok ⟨v ++ [t], ?_, ?_⟩
      · exact List.forall_mem_append.2 ⟨hv, by simpa using hstep.2.1⟩
      · rw [← List.append_assoc]
        exact hbehind.step hstep
  | error e m =>
      cases e with
      | lexical e => cases hbehind.eq_of_advance_error hkind hadvance
      | grammatical | overflow =>
          rw [Parse.advance, if_neg hkind] at hadvance
          split at hadvance <;> cases hadvance

/-- A parser of a list of tokens starts in front of the list. Whatever it is asked for behind some
tokens of the list, with any room on the stack, it ends behind as many or more, with an answer, a
fault or an overflow. A routine consumes no end of input, and if it gives a node that is not started
with an operand that was parsed before, it has consumed a token. With eight frames for each token
that is left nothing overflows, and more frames change nothing; the rule for programs never
overflows, and then does not report an overflow either. Every repetition comes to an end because
each of its passes leaves fewer tokens. -/
theorem progress (ts : List Token) :
    (∃ s, State.start ⟨ts, none⟩ = .ok s ∧ s.IsBehind ⟨ts, none⟩ []) ∧
    (∀ w s, s.IsBehind ⟨ts, none⟩ w → ∀ (room : Nat) (call : Call),
      EndsIn (State.IsFurther ts w) (fun _ _ => False) (call.rule room s)) ∧
    (∀ w s, s.IsBehind ⟨ts, none⟩ w → ∀ (room : Nat) (routine : Routine),
      Ends ts w routine.Consumes (run room routine s) ∧
      (8 * s.pending + routine.rank < room → ¬(run room routine).Overflows s ∧
        ∀ more, run (room + more) routine s = run room routine s)) ∧
    (∀ w s, s.IsBehind ⟨ts, none⟩ w → ∀ room : Nat,
      Ends ts w False (program room s) ∧ ¬(program room).Overflows s ∧
      (8 * s.pending + 7 < room →
        (∀ t m, program room s ≠ .error (.grammatical ⟨.nestedTooDeeply, t⟩) m) ∧
        ∀ more, program (room + more) s = program room s)) ∧
    ∀ room, (∀ s m, Passes (run room) s m → m.pending < s.pending) ∧
      WellFounded fun m s => Passes (run room) s m := by
  have hstart : ∃ s, State.start ⟨ts, none⟩ = .ok s := by
    cases ts <;> exact ⟨_, rfl⟩
  obtain ⟨s, hs⟩ := hstart
  refine ⟨⟨s, hs, State.isBehind_of_start hs⟩, fun w s h room call => ?_, fun w s h room routine =>
    ⟨run_ends room routine h, run_settled⟩, fun w s h room => ⟨program_ends room h, ?_,
    program_settled⟩, fun room => ⟨fun _ _ => Passes.pending_lt, passes_wellFounded room⟩⟩
  · exact call.keeps room (advance_isFurther ts w) s ⟨[], nofun, by rwa [List.append_nil]⟩
  · rintro ⟨m, hoverflow⟩
    exact program_ne_overflow room s m hoverflow

/-- A statement of which the end of input comes too early, in front of a token of a kind that no
text has. -/
theorem progress_cut :
    let ts : List Token := [⟨.symbol .lparen, "(", .start⟩, ⟨.identifier, "a", .start⟩,
      ⟨.endOfInput, "", .start⟩, ⟨.other "ODD", "", .start⟩]
    ∃ s, State.start ⟨ts, none⟩ = .ok s ∧ s.pending ≤ 4 ∧
      Ends ts [] True (run 40 .statement s) ∧ ¬(run 40 .statement).Overflows s ∧
      ∀ more, run (40 + more) .statement s = run 40 .statement s := by
  intro ts
  obtain ⟨⟨s, hs, hbehind⟩, -, hroutine, -⟩ := progress ts
  obtain ⟨hends, hsettled⟩ := hroutine [] s hbehind 40 .statement
  have hpending : s.pending ≤ 4 := by
    cases hs
    decide
  have hroom : 8 * s.pending + Routine.statement.rank < 40 := by
    rw [Routine.rank]
    omega
  exact ⟨s, hs, hpending, hends, hsettled hroom⟩

end Parser

end Sigil
