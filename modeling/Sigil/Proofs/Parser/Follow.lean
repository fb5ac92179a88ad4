import Sigil.Proofs.Parser.Run

/-!
# Rules that follow a language

A rule follows a language if it never consumes a token that no list of the language has there. A run
of such a rule ends in one of four ways. It succeeds behind a list of the language; it fails at a
token behind tokens that can be completed to one, and truly says what may stand there instead; it
overflows behind such tokens; or it cannot take the token behind the current one, and the current
one is right. The run depends on nothing but the tokens up to the current one.

The language may depend on the result. It is passed on from rule to rule as what is left of it
behind the tokens that are consumed already, so it is the same statement for a whole rule and for
the rest of one.

## Main definitions

* `Parse.FollowsAt`: from a state a rule follows a language.
* `Repeats`: the language of a step of a repetition.

## Main results

* `Parse.FollowsAt.bind`: a rule and what goes on behind it.
* `Parse.FollowsAt.collect`, `Parse.FollowsAt.iterate`: repetitions.
-/

namespace Sigil

/-- The token is what the expectation asks for. Where an expression is expected a name may stand. -/
def Expectation.Allows (t : Token) : Expectation → Prop
  | token kind => t.kind = kind
  | expression => t.kind = .identifier

/-- What a fault names as possible in place of the token. -/
def ParseFault.alternatives : ParseFault → List Expectation
  | unexpected expected => expected
  | nestedTooDeeply => []

variable {α β : Type}

/-- The tokens can be completed to a list of the language. -/
def Begins (S : α → List Token → Prop) (w : List Token) : Prop :=
  ∃ a v, S a (w ++ v)

/-- Tokens that begin a phrase behind others begin it with them. -/
theorem Begins.behind {S : α → List Token → Prop} {v w : List Token}
    (h : Begins (fun a x => S a (v ++ x)) w) : Begins S (v ++ w) := by
  obtain ⟨a, x, h⟩ := h
  exact ⟨a, x, by rwa [List.append_assoc]⟩

namespace Parser.State

variable {s s' t t' : State} {w : List Token}

/-- The tokens of a run and the token behind them determine the current token. -/
theorem Reads.current_congr (h : s.Reads w s') (h' : t.Reads w t')
    (hcurrent : t'.current = s'.current) : t.current = s.current := by
  rw [h.current_eq, h'.current_eq, hcurrent]

/-- The tokens of a run and the token in front of them determine the token consumed last. -/
theorem Reads.previous_congr (h : s.Reads w s') (h' : t.Reads w t')
    (hprevious : t.previous = s.previous) : t'.previous = s'.previous := by
  by_cases hw : w = []
  · subst hw
    rw [reads_nil.1 h, reads_nil.1 h', hprevious]
  · rw [h.previous_eq hw, h'.previous_eq hw]

end Parser.State

namespace Parse

open Sigil.Parser

variable {S : α → List Token → Prop} {T : β → List Token → Prop} {L : List Token → Prop}
  {p : Parse α} {f : α → Parse β} {s m s' s'' : State} {a : α} {v w : List Token}
  {kinds : List TokenKind}

/-- Wherever the tokens `w` are ahead between the same tokens as at `s`, the rule ends behind them
as it does at `s`. -/
def Locally (p : Parse α) (s : State) (w : List Token) (s' : State)
    (r : State → EStateM.Result ParseFailure State α) : Prop :=
  ∀ t t', t.Reads w t' → t.previous = s.previous → t'.current = s'.current → p t = r t'

/-- A rule that depends only on the tokens that it reads does the same wherever they are read. -/
theorem Locally.eq {r : State → EStateM.Result ParseFailure State α} (h : p.Locally s w s' r)
    (hreads : s.Reads w s') : p s = r s' :=
  h s s' hreads rfl rfl

/-- Two rules one after the other depend on the tokens that they read. -/
theorem Locally.bind {r : State → EStateM.Result ParseFailure State β}
    (h : p.Locally s v m (.ok a)) (hv : s.Reads v m) (h' : (f a).Locally m w s' r)
    (hw : m.Reads w s') : (p >>= f).Locally s (v ++ w) s' r := by
  intro t t' ht hprevious hcurrent
  obtain ⟨u, htv, htw⟩ := State.reads_append.1 ht
  rw [bind_of_ok (h t u htv hprevious (hw.current_congr htw hcurrent))]
  exact h' u t' htw (hv.previous_congr htv hprevious) hcurrent

/-- A rule that fails depends on the tokens that it has read. -/
theorem Locally.bind_error {e : ParseFailure} (h : p.Locally s w s' (.error e)) :
    (p >>= f).Locally s w s' (.error e) :=
  fun t t' ht hprevious hcurrent => bind_of_error (h t t' ht hprevious hcurrent)

/-- From `s` the rule follows the language `S`. -/
inductive FollowsAt (S : α → List Token → Prop) (p : Parse α) (s : State) : Prop
  | succeeds {w : List Token} {s' : State} {a : α} (hreads : s.Reads w s') (hw : S a w)
      (hlocal : p.Locally s w s' (.ok a))
  | fails {w : List Token} {s' : State} {fault : ParseFault} (hreads : s.Reads w s')
      (hw : Begins S w)
      (htrue : ∀ x ∈ fault.alternatives, ∀ t, x.Allows t → Begins S (w ++ [t]))
      (hlocal : p.Locally s w s' (.error (.grammatical ⟨fault, s'.current⟩)))
  | overflows {w : List Token} {s' : State} (hreads : s.Reads w s') (hw : Begins S w)
      (hlocal : p.Locally s w s' (.error .overflow))
  | breaks {w : List Token} {m s' : State} {e : LexError} (hreads : s.Reads w m)
      (hkind : m.current.kind ≠ .endOfInput) (hadvance : advance m = .error (.lexical e) s')
      (hw : Begins S (w ++ [m.current])) (heq : p s = .error (.lexical e) s')

/-- A token of one of the kinds, or nothing. -/
def Optional (kinds : List TokenKind) : Option Token → List Token → Prop
  | none, w => w = []
  | some t, w => t.kind ∈ kinds ∧ w = [t]

/-- The language of a step of a repetition that follows `L`: its last step consumes a list of `L`,
and every other step consumes something that goes on to lists of `L`. -/
def Repeats (L : List Token → Prop) : Option α → List Token → Prop
  | none, w => L w
  | some _, w => w ≠ [] ∧ ∀ v, L v → L (w ++ v)

/-- A step of a repetition may be the last one. -/
theorem Repeats.begins {r : Option α} (h : Repeats L r w) (hL : L []) (b : β) :
    Begins (fun (_ : β) => L) w := by
  refine ⟨b, [], ?_⟩
  cases r with
  | none => rwa [List.append_nil]
  | some a => exact h.2 [] hL

/-- From every state the rule follows the language `L`, whatever it gives. -/
def Follows (L : List Token → Prop) (p : Parse α) : Prop :=
  ∀ s, FollowsAt (fun _ => L) p s

namespace FollowsAt

/-- A language that a rule follows has a list. -/
theorem nonempty (h : FollowsAt S p s) : Begins S [] := by
  cases h with
  | @succeeds w _ a _ hw => exact ⟨a, w, hw⟩
  | @fails w _ _ _ hw | @overflows w _ _ hw =>
      obtain ⟨a, v, hw⟩ := hw
      exact ⟨a, w ++ v, hw⟩
  | @breaks w m _ _ _ _ _ hw =>
      obtain ⟨a, v, hw⟩ := hw
      exact ⟨a, w ++ [m.current] ++ v, hw⟩

/-- A larger language is followed as well. -/
theorem mono {S' : α → List Token → Prop} (h : FollowsAt S p s) (hS : ∀ a w, S a w → S' a w) :
    FollowsAt S' p s := by
  have hbegins {w : List Token} : Begins S w → Begins S' w := fun ⟨a, v, h⟩ => ⟨a, v, hS a _ h⟩
  cases h with
  | succeeds hreads hw hlocal => exact .succeeds hreads (hS _ _ hw) hlocal
  | fails hreads hw htrue hlocal =>
      exact .fails hreads (hbegins hw) (fun x hx t ht => hbegins (htrue x hx t ht)) hlocal
  | overflows hreads hw hlocal => exact .overflows hreads (hbegins hw) hlocal
  | breaks hreads hkind hadvance hw heq => exact .breaks hreads hkind hadvance (hbegins hw) heq

/-- What goes on behind a rule follows what is left of the language. It need do so only where the
rule gets to, if every list of the rule can be completed. -/
theorem bind_of_run (hp : FollowsAt S p s) (hS : ∀ a w, S a w → Begins T w)
    (hf : ∀ a w m, S a w → p s = .ok a m → s.Reads w m →
      FollowsAt (fun b v => T b (w ++ v)) (f a) m) : FollowsAt T (p >>= f) s := by
  have hbegins {w : List Token} (h : Begins S w) : Begins T w := by
    obtain ⟨a, v, h⟩ := h
    obtain ⟨b, x, h⟩ := hS a _ h
    exact ⟨b, v ++ x, by rwa [← List.append_assoc]⟩
  cases hp with
  | @succeeds w m a hreads hw hlocal =>
      have hok := hlocal.eq hreads
      cases hf a w m hw hok hreads with
      | succeeds hreads' hw' hlocal' =>
          exact .succeeds (hreads.append hreads') hw' (hlocal.bind hreads hlocal' hreads')
      | fails hreads' hw' htrue hlocal' =>
          refine .fails (hreads.append hreads') hw'.behind (fun x hx t ht => ?_)
            (hlocal.bind hreads hlocal' hreads')
          rw [List.append_assoc]
          exact (htrue x hx t ht).behind
      | overflows hreads' hw' hlocal' =>
          exact .overflows (hreads.append hreads') hw'.behind
            (hlocal.bind hreads hlocal' hreads')
      | breaks hreads' hkind hadvance hw' heq =>
          refine .breaks (hreads.append hreads') hkind hadvance ?_ ((bind_of_ok hok).trans heq)
          rw [List.append_assoc]
          exact hw'.behind
  | fails hreads hw htrue hlocal =>
      exact .fails hreads (hbegins hw) (fun x hx t ht => hbegins (htrue x hx t ht))
        hlocal.bind_error
  | overflows hreads hw hlocal => exact .overflows hreads (hbegins hw) hlocal.bind_error
  | breaks hreads hkind hadvance hw heq =>
      exact .breaks hreads hkind hadvance (hbegins hw) (bind_of_error heq)

/-- What goes on behind a rule follows what is left of the language. -/
theorem bind (hp : FollowsAt S p s)
    (hf : ∀ a w m, S a w → FollowsAt (fun b v => T b (w ++ v)) (f a) m) :
    FollowsAt T (p >>= f) s := by
  refine hp.bind_of_run (fun a w ha => ?_) fun a w m ha _ _ => hf a w m ha
  have hrest := (hf a w s ha).nonempty.behind
  rwa [List.append_nil] at hrest

/-! ### Steps that consume nothing -/

/-- A step that only looks at the tokens around it. -/
theorem still (h : ∀ t, t.previous = s.previous → t.current = s.current → p t = .ok a t)
    (ha : S a []) : FollowsAt S p s := by
  refine .succeeds (State.reads_nil.2 rfl) ha fun t t' ht hprevious hcurrent => ?_
  obtain rfl := State.reads_nil.1 ht
  exact h t' hprevious hcurrent

/-- A result without tokens has to be in the language without any. -/
theorem pure (ha : S a []) : FollowsAt S (Pure.pure a) s :=
  still (fun _ _ _ => rfl) ha

/-- A node takes no token. -/
theorem finish {S : Node → List Token → Prop} {kind : NodeKind} {start : Position}
    {value : Value Node} {children : List Node} (h : ∀ t, S t []) :
    FollowsAt S (Parse.finish kind start value children) s :=
  still (fun t hprevious _ => by rw [Parse.finish, hprevious]) (h _)

/-- The node of what is left out takes no token. -/
theorem absent {S : Node → List Token → Prop} (h : ∀ t, S t []) :
    FollowsAt S Parse.absent s :=
  still (fun t _ hcurrent => by rw [Parse.absent, hcurrent]) (h _)

/-- What goes on behind a step that consumes nothing does so in the same place. -/
theorem still_bind (h : ∀ t, t.previous = s.previous → t.current = s.current → p t = .ok a t)
    (hf : FollowsAt T (f a) s) : FollowsAt T (p >>= f) s := by
  have hp : FollowsAt (fun b w => b = a ∧ w = []) p s := still h ⟨rfl, rfl⟩
  refine hp.bind_of_run (fun b w hb => hb.2 ▸ hf.nonempty) ?_
  rintro b w m ⟨rfl, rfl⟩ - hm
  obtain rfl := State.reads_nil.1 hm
  exact hf

/-- To look at the current token takes none. -/
theorem current_bind {f : Token → Parse β} (h : FollowsAt T (f s.current) s) :
    FollowsAt T (current >>= f) s :=
  still_bind (fun t _ hcurrent => by rw [current, hcurrent]) h

/-- A check takes no token. What follows may depend on the answer. -/
theorem check_bind {f : Bool → Parse β} (htrue : s.current.kind ∈ kinds → FollowsAt T (f true) s)
    (hfalse : s.current.kind ∉ kinds → FollowsAt T (f false) s) :
    FollowsAt T (check kinds >>= f) s := by
  refine still_bind (a := kinds.contains s.current.kind)
    (fun t _ hcurrent => by rw [check, hcurrent]) ?_
  by_cases hmem : s.current.kind ∈ kinds
  · rw [List.contains_iff_mem.2 hmem]
    exact htrue hmem
  · rw [Bool.eq_false_iff.2 (mt List.contains_iff_mem.1 hmem)]
    exact hfalse hmem

/-- What follows a node is all that takes tokens. -/
theorem finish_bind {kind : NodeKind} {start : Position} {value : Value Node}
    {children : List Node} {f : Node → Parse β} (h : ∀ t, FollowsAt T (f t) s) :
    FollowsAt T (Parse.finish kind start value children >>= f) s :=
  still_bind (fun t hprevious _ => by rw [Parse.finish, hprevious]) (h _)

/-- What follows the node of what is left out is all that takes tokens. -/
theorem absent_bind {f : Node → Parse β} (h : ∀ t, FollowsAt T (f t) s) :
    FollowsAt T (Parse.absent >>= f) s :=
  still_bind (fun t _ hcurrent => by rw [Parse.absent, hcurrent]) (h _)

/-! ### Steps that consume a token -/

/-- What is made of a result takes no token. -/
theorem map {g : α → β} (h : FollowsAt (fun a w => T (g a) w) p s) : FollowsAt T (g <$> p) s := by
  rw [map_eq_pure_bind]
  exact h.bind fun a w m ha => .pure (by rwa [List.append_nil])

/-- A failure has to be a true one: the tokens may begin a phrase, and so they may with any token
that was expected in the place of the one found. -/
theorem fail {fault : ParseFault} (h : Begins S [])
    (htrue : ∀ x ∈ fault.alternatives, ∀ t, x.Allows t → Begins S [t]) :
    FollowsAt S (Parse.fail fault) s := by
  refine .fails (w := []) rfl h htrue fun t t' ht _ hcurrent => ?_
  rw [State.reads_nil.1 ht] at hcurrent ⊢
  rw [Parse.fail, hcurrent]

/-- A token is consumed, whatever it is. -/
theorem advance (h : s.current.kind ≠ .endOfInput) :
    FollowsAt (fun t w => t = s.current ∧ w = [t]) Parse.advance s := by
  cases hadvance : Parse.advance s with
  | ok t m =>
      have hstep := (advance_eq_ok h).1 hadvance
      refine .succeeds hstep.reads ⟨hstep.1.symm, rfl⟩ fun u u' hu _ _ => ?_
      exact (State.reads_singleton.1 hu).2.2
  | error e m =>
      obtain ⟨e, rfl⟩ : ∃ e', e = .lexical e' := by
        simp only [Parse.advance, h, if_false] at hadvance
        split at hadvance <;> cases hadvance
        exact ⟨_, rfl⟩
      exact .breaks (w := []) rfl h hadvance ⟨_, [], rfl, rfl⟩ hadvance

/-- A token of one of the kinds is consumed, or none is. -/
theorem accept (hkinds : .endOfInput ∉ kinds) :
    FollowsAt (Optional kinds) (Parse.accept kinds) s := by
  refine check_bind (fun hmem => map ?_) fun _ => .pure rfl
  refine (advance fun hend => hkinds (hend ▸ hmem)).mono ?_
  rintro t w ⟨rfl, rfl⟩
  exact ⟨hmem, rfl⟩

/-- A token of one of the kinds is consumed. All of them could have stood there. -/
theorem expect (hkinds : .endOfInput ∉ kinds) (hne : kinds ≠ []) :
    FollowsAt (fun t w => t.kind ∈ kinds ∧ w = [t]) (Parse.expect kinds) s := by
  refine (accept hkinds).bind fun r w m hr => ?_
  cases r with
  | some t =>
      obtain ⟨ht, rfl⟩ := hr
      exact .pure ⟨ht, rfl⟩
  | none =>
      obtain rfl : w = [] := hr
      obtain ⟨kind, hkind⟩ := List.exists_mem_of_ne_nil kinds hne
      refine .fail ⟨⟨kind, "", .start⟩, [_], hkind, rfl⟩ fun x hx t ht => ?_
      obtain ⟨kind, hkind, rfl⟩ := List.mem_map.1 hx
      obtain rfl : t.kind = kind := ht
      exact ⟨t, [], hkind, rfl⟩

/-- A token of a single kind, and what goes on behind it. -/
theorem expect_bind {kind : TokenKind} {f : Token → Parse β} (hkind : kind ≠ .endOfInput)
    (hf : ∀ t m, t.kind = kind → FollowsAt (fun b v => T b (t :: v)) (f t) m) :
    FollowsAt T (Parse.expect [kind] >>= f) s := by
  refine (expect (by simpa using hkind.symm) (by simp)).bind ?_
  rintro t w m ⟨ht, rfl⟩
  exact hf t m (List.mem_singleton.1 ht)

/-- What follows a token, with the token in front. -/
theorem advance_bind {f : Token → Parse β} (h : s.current.kind ≠ .endOfInput)
    (hf : ∀ m, FollowsAt (fun b v => T b (s.current :: v)) (f s.current) m) :
    FollowsAt T (Parse.advance >>= f) s := by
  refine (advance h).bind ?_
  rintro t w m ⟨rfl, rfl⟩
  exact hf m

/-- A token of a single kind if there is one, and what goes on behind it or in its place. -/
theorem accept_bind {kind : TokenKind} {f : Option Token → Parse β} (hkind : kind ≠ .endOfInput)
    (hnone : ∀ m, FollowsAt T (f none) m)
    (hsome : ∀ t m, t.kind = kind → FollowsAt (fun b v => T b (t :: v)) (f (some t)) m) :
    FollowsAt T (Parse.accept [kind] >>= f) s := by
  refine (accept (by simpa using hkind.symm)).bind fun r w m hr => ?_
  cases r with
  | none =>
      obtain rfl : w = [] := hr
      exact hnone m
  | some t =>
      obtain ⟨ht, rfl⟩ := hr
      exact hsome t m (List.mem_singleton.1 ht)

/-! ### Repetitions -/

/-- A step that gives something consumes a token. -/
theorem pending_lt {step : Parse (Option α)} (h : FollowsAt (Repeats L) step s)
    (hstep : step s = .ok (some a) m) : m.pending < s.pending := by
  cases h with
  | succeeds hreads hw hlocal =>
      rw [hlocal.eq hreads] at hstep
      cases hstep
      exact hreads.pending_lt hw.1
  | fails hreads _ _ hlocal | overflows hreads _ hlocal =>
      rw [hlocal.eq hreads] at hstep
      cases hstep
  | breaks _ _ _ _ heq =>
      rw [heq] at hstep
      cases hstep

/-- A collection follows a language that each of its steps may be put in front of. -/
theorem collect {step : Parse (Option α)} (h : ∀ s, FollowsAt (Repeats L) step s) (hL : L [])
    (s : State) : FollowsAt (fun _ => L) (Parse.collect step) s := by
  have hlt (s m : State) (a : α) (hstep : step s = .ok (some a) m) : m.pending < s.pending :=
    (h s).pending_lt hstep
  induction hn : s.pending using Nat.strongRecOn generalizing s with
  | ind n ih =>
      subst hn
      rw [collect_eq hlt]
      refine (h s).bind_of_run (fun r w hr => hr.begins hL []) fun r w m hr hstep _ => ?_
      cases r with
      | none =>
          refine .pure ?_
          rw [List.append_nil]
          exact hr
      | some a =>
          refine map ((ih m.pending (hlt s m a hstep) m rfl).mono fun as v hv => ?_)
          exact hr.2 v hv

/-- A repetition follows a language that each of its steps may be put in front of. -/
theorem iterate {step : α → Parse (Option α)} (h : ∀ a s, FollowsAt (Repeats L) (step a) s)
    (hL : L []) (a : α) (s : State) : FollowsAt (fun _ => L) (Parse.iterate step a) s := by
  have hlt (s m : State) (a b : α) (hstep : step a s = .ok (some b) m) : m.pending < s.pending :=
    (h a s).pending_lt hstep
  induction hn : s.pending using Nat.strongRecOn generalizing s a with
  | ind n ih =>
      subst hn
      rw [iterate_eq hlt]
      refine (h a s).bind_of_run (fun r w hr => hr.begins hL a) fun r w m hr hstep _ => ?_
      cases r with
      | none =>
          refine .pure ?_
          rw [List.append_nil]
          exact hr
      | some b => exact (ih m.pending (hlt s m a b hstep) b m rfl).mono fun _ v hv => hr.2 v hv

end FollowsAt

/-- An overflow comes before any token is consumed. -/
theorem Follows.overflow (hw : L w) : (Parse.overflow : Parse Node).Follows L := by
  refine fun s => .overflows (w := []) rfl ⟨default, w, hw⟩ fun t t' ht _ _ => ?_
  rw [State.reads_nil.1 ht]
  rfl

/-- A reported overflow is a fault that says nothing about what may stand in place of a token. -/
theorem FollowsAt.reportingOverflow (h : FollowsAt S p s) :
    FollowsAt S (Parse.reportingOverflow p) s := by
  have hlocally {w : List Token} {s' : State}
      {r r' : State → EStateM.Result ParseFailure State α} (h : p.Locally s w s' r)
      (hr : ∀ t t', t'.current = s'.current → p t = r t' → Parse.reportingOverflow p t = r' t') :
      (Parse.reportingOverflow p).Locally s w s' r' :=
    fun t t' ht hprevious hcurrent => hr t t' hcurrent (h t t' ht hprevious hcurrent)
  cases h with
  | succeeds hreads hw hlocal =>
      exact .succeeds hreads hw (hlocally hlocal fun t t' _ heq => by
        simp only [Parse.reportingOverflow, heq])
  | fails hreads hw htrue hlocal =>
      exact .fails hreads hw htrue (hlocally hlocal fun t t' _ heq => by
        simp only [Parse.reportingOverflow, heq])
  | @overflows w s' hreads hw hlocal =>
      have hreported : ∀ t t' : State, t'.current = s'.current → p t = .error .overflow t' →
          p.reportingOverflow t = .error (.grammatical ⟨.nestedTooDeeply, s'.current⟩) t' := by
        intro t t' hcurrent heq
        simp only [Parse.reportingOverflow, heq, hcurrent]
      refine .fails hreads hw ?_ (hlocally hlocal hreported)
      exact fun _ hx => absurd hx List.not_mem_nil
  | breaks hreads hkind hadvance hw heq =>
      exact .breaks hreads hkind hadvance hw (by simp only [Parse.reportingOverflow, heq])

/-- A rule that reports overflows does not overflow. -/
theorem reportingOverflow_ne_overflow (p : Parse α) (s s' : State) :
    Parse.reportingOverflow p s ≠ .error .overflow s' := by
  rw [Parse.reportingOverflow]
  split
  · exact nofun
  · next hne => exact fun h => hne s' h

end Parse

end Sigil
