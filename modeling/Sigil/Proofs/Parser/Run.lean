import Sigil.Parser.State

/-!
# Runs of a parser

A rule that succeeds has consumed a stretch of tokens, one by one. `State.Reads s w s'` says that
consuming the tokens `w` leads from `s` to `s'`; none of them is the end of input, which is never
consumed for good. The steps that rules are made of are described in these words, in both
directions: what a success consumed, and what a stretch ahead makes of a step.

## Main results

* `State.Reads.unique_end`: from a state there is one run up to an end of input.
* `State.Reads.pending_lt`: a run that consumes a token leaves fewer.
* `Parse.accept_eq_ok`, `Parse.expect_eq_ok`: what a success of the two steps consumed.
* `Parse.collect_of_some`, `Parse.iterate_of_some`: a repetition by its first step.
* `Parse.collect_induct`, `Parse.iterate_induct`: what a repetition did, by induction on its steps.
-/

namespace Sigil

/-- The offset behind the last of some tokens. -/
def lastStop (w : List Token) : Int :=
  (w.getLast?.map Token.stop).getD 0

/-- The end of the last token. -/
theorem lastStop_concat (w : List Token) (o : Token) : lastStop (w ++ [o]) = o.stop := by
  simp [lastStop]

/-- What stands in front does not change where tokens end. -/
theorem lastStop_append {w : List Token} (hw : w ≠ []) (v : List Token) :
    lastStop (v ++ w) = lastStop w := by
  simp [lastStop, List.getLast?_append, List.getLast?_eq_some_getLast hw]

namespace Parser

/-- Consuming the token `t`, which is the current one and not the end of input, leads from `s` to
`s'`. -/
def State.Steps (s : State) (t : Token) (s' : State) : Prop :=
  s.current = t ∧ t.kind ≠ .endOfInput ∧ Parse.advance s = .ok t s'

/-- Consuming the tokens `w` one by one leads from `s` to `s'`. -/
def State.Reads : State → List Token → State → Prop
  | s, [], s' => s' = s
  | s, t :: w, s' => ∃ m, s.Steps t m ∧ m.Reads w s'

namespace State

variable {s m s' : State} {t : Token} {v w : List Token}

/-- To read nothing is to stay. -/
@[simp] theorem reads_nil : s.Reads [] s' ↔ s' = s := Iff.rfl

/-- To read tokens is to step over the first one and to read the others. -/
theorem reads_cons : s.Reads (t :: w) s' ↔ ∃ m, s.Steps t m ∧ m.Reads w s' := Iff.rfl

/-- To read two lists of tokens one after the other. -/
theorem reads_append : s.Reads (v ++ w) s' ↔ ∃ m, s.Reads v m ∧ m.Reads w s' := by
  induction v generalizing s with
  | nil => simp
  | cons t v ih =>
      simp only [List.cons_append, reads_cons, ih]
      constructor
      · rintro ⟨m, hstep, m', hv, hw⟩
        exact ⟨m', ⟨m, hstep, hv⟩, hw⟩
      · rintro ⟨m', ⟨m, hstep, hv⟩, hw⟩
        exact ⟨m, hstep, m', hv, hw⟩

/-- To read one token is to step over it. -/
@[simp] theorem reads_singleton : s.Reads [t] s' ↔ s.Steps t s' := by
  simp [reads_cons]

/-- Some tokens and then others. -/
theorem Reads.append (hv : s.Reads v m) (hw : m.Reads w s') : s.Reads (v ++ w) s' :=
  reads_append.2 ⟨m, hv, hw⟩

/-- A token and then others. -/
theorem Reads.cons (ht : s.Steps t m) (hw : m.Reads w s') : s.Reads (t :: w) s' :=
  ⟨m, ht, hw⟩

/-- A single step as a run. -/
theorem Steps.reads (h : s.Steps t s') : s.Reads [t] s' :=
  reads_singleton.2 h

/-- The token consumed determines the state behind it. -/
theorem Steps.unique {a b : State} (ha : s.Steps t a) (hb : s.Steps t b) : a = b := by
  obtain ⟨-, -, ha⟩ := ha
  obtain ⟨-, -, hb⟩ := hb
  rw [ha] at hb
  cases hb
  rfl

/-- From a state there is one run up to an end of input. -/
theorem Reads.unique_end {a b : State} (ha : s.Reads v a) (hb : s.Reads w b)
    (hend : a.current.kind = .endOfInput) (hend' : b.current.kind = .endOfInput) :
    v = w ∧ a = b := by
  induction v generalizing s w with
  | nil =>
      obtain rfl := reads_nil.1 ha
      cases w with
      | nil => exact ⟨rfl, (reads_nil.1 hb).symm⟩
      | cons u w =>
          obtain ⟨m, ⟨rfl, hkind, -⟩, -⟩ := hb
          exact absurd hend hkind
  | cons t v ih =>
      obtain ⟨m, ht, ha⟩ := ha
      cases w with
      | nil =>
          obtain rfl := reads_nil.1 hb
          obtain ⟨rfl, hkind, -⟩ := ht
          exact absurd hend' hkind
      | cons u w =>
          obtain ⟨m', hu, hb⟩ := hb
          obtain rfl : t = u := ht.1.symm.trans hu.1
          obtain rfl := ht.unique hu
          obtain ⟨rfl, rfl⟩ := ih ha hb
          exact ⟨rfl, rfl⟩

/-- The current token of a state in front of a run is the first one of the run. -/
theorem Reads.current_eq (h : s.Reads w s') : s.current = w.headD s'.current := by
  cases w with
  | nil => rw [reads_nil.1 h]; rfl
  | cons t w =>
      obtain ⟨m, ⟨hcurrent, -, -⟩, -⟩ := h
      exact hcurrent

/-- The token consumed last is remembered. -/
theorem Steps.previous_eq (h : s.Steps t s') : s'.previous = some t := by
  obtain ⟨rfl, hkind, h⟩ := h
  simp only [Parse.advance, hkind, if_false] at h
  split at h <;> cases h
  rfl

/-- The last token of a run is remembered. -/
theorem Reads.previous_eq (h : s.Reads w s') (hw : w ≠ []) : s'.previous = w.getLast? := by
  induction w generalizing s with
  | nil => exact absurd rfl hw
  | cons t w ih =>
      obtain ⟨m, ht, h⟩ := h
      cases w with
      | nil =>
          obtain rfl := reads_nil.1 h
          exact ht.previous_eq
      | cons u w => simpa using ih h (by simp)

/-- A step leaves fewer tokens. -/
theorem Steps.pending_lt (h : s.Steps t s') : s'.pending < s.pending := by
  obtain ⟨rfl, hkind, h⟩ := h
  exact Parse.pending_advance h hkind

/-- Each token that is read is one less. -/
theorem Reads.pending_le (h : s.Reads w s') : s'.pending + w.length ≤ s.pending := by
  induction w generalizing s with
  | nil => simp [reads_nil.1 h]
  | cons t w ih =>
      obtain ⟨m, ht, h⟩ := h
      have hlt := ht.pending_lt
      have hle := ih h
      rw [List.length_cons]
      omega

/-- A run that consumes a token leaves fewer. -/
theorem Reads.pending_lt (h : s.Reads w s') (hw : w ≠ []) : s'.pending < s.pending := by
  have hle := h.pending_le
  have hpos := List.length_pos_iff.2 hw
  omega

end State

end Parser

namespace Parse

open Sigil.Parser

variable {α β : Type} {s m s' : State} {t : Token} {kinds : List TokenKind}

/-! ### Sequencing -/

/-- Two rules one after the other succeed if both do. -/
theorem bind_eq_ok {p : Parse α} {f : α → Parse β} {b : β} :
    (p >>= f) s = .ok b s' ↔ ∃ a m, p s = .ok a m ∧ f a m = .ok b s' := by
  simp only [bind, EStateM.bind]
  cases p s with
  | ok a m => simp [and_assoc]
  | error e m => simp

/-- Behind a rule that succeeds the other one goes on. -/
theorem bind_of_ok {p : Parse α} {f : α → Parse β} {a : α} (h : p s = .ok a m) :
    (p >>= f) s = f a m := by
  simp only [bind, EStateM.bind, h]

/-- A rule that fails ends the whole. -/
theorem bind_of_error {p : Parse α} {f : α → Parse β} {e : ParseFailure}
    (h : p s = .error e m) : (p >>= f) s = .error e m := by
  simp only [bind, EStateM.bind, h]

/-- What is made of a result. -/
theorem map_eq_ok {p : Parse α} {f : α → β} {b : β} :
    (f <$> p) s = .ok b s' ↔ ∃ a, p s = .ok a s' ∧ f a = b := by
  simp only [Functor.map, EStateM.map]
  cases p s with
  | ok a m =>
      constructor
      · intro h
        cases h
        exact ⟨a, rfl, rfl⟩
      · rintro ⟨a, h, rfl⟩
        cases h
        rfl
  | error e m => simp

/-- What is made of a result, from left to right. -/
theorem map_of_ok {p : Parse α} {f : α → β} {a : α} (h : p s = .ok a m) :
    (f <$> p) s = .ok (f a) m := by
  simp only [Functor.map, EStateM.map, h]

/-- There is no result to make anything of. -/
theorem map_of_error {p : Parse α} {f : α → β} {e : ParseFailure} (h : p s = .error e m) :
    (f <$> p) s = .error e m := by
  simp only [Functor.map, EStateM.map, h]

/-- A result without a rule leaves the state. -/
theorem pure_eq_ok {a b : α} : (pure a : Parse α) s = .ok b s' ↔ a = b ∧ s = s' := by
  change EStateM.Result.ok a s = .ok b s' ↔ _
  simp

/-- To look at the current token leaves the state. -/
theorem current_eq_ok : current s = .ok t s' ↔ s.current = t ∧ s = s' := by
  simp [current]

/-- To check its kind leaves the state. -/
theorem check_eq_ok {b : Bool} :
    check kinds s = .ok b s' ↔ kinds.contains s.current.kind = b ∧ s = s' := by
  simp [check]

/-! ### Consuming tokens -/

/-- What a success of `advance` did in front of a token other than the end of input. -/
theorem advance_eq_ok (hkind : s.current.kind ≠ .endOfInput) :
    advance s = .ok t s' ↔ s.Steps t s' := by
  constructor
  · intro h
    have ht : s.current = t := by
      simp only [advance, hkind, if_false] at h
      split at h <;> cases h
      rfl
    exact ⟨ht, ht ▸ hkind, h⟩
  · rintro ⟨-, -, h⟩
    exact h

/-- A token of one of the kinds is taken. -/
theorem accept_of_steps (h : s.Steps t s') (ht : t.kind ∈ kinds) :
    accept kinds s = .ok (some t) s' := by
  obtain ⟨rfl, -, h⟩ := h
  rw [accept_of_contains (by simpa using ht), map_of_ok h]

/-- A token of another kind is left. -/
theorem accept_of_not_mem (h : s.current.kind ∉ kinds) : accept kinds s = .ok none s :=
  accept_of_not_contains (by simpa using h)

/-- A success of `accept` consumed a token of one of the kinds, or found none and did nothing. -/
theorem accept_eq_ok {r : Option Token} (hkinds : .endOfInput ∉ kinds)
    (h : accept kinds s = .ok r s') :
    (∃ t, r = some t ∧ t.kind ∈ kinds ∧ s.Steps t s') ∨
      (r = none ∧ s' = s ∧ s.current.kind ∉ kinds) := by
  by_cases hmem : s.current.kind ∈ kinds
  · rw [accept_of_contains (by simpa using hmem)] at h
    obtain ⟨t, hadvance, rfl⟩ := map_eq_ok.1 h
    have hstep := (advance_eq_ok (fun hend => hkinds (hend ▸ hmem))).1 hadvance
    exact .inl ⟨t, rfl, hstep.1 ▸ hmem, hstep⟩
  · rw [accept_of_not_mem hmem] at h
    cases h
    exact .inr ⟨rfl, rfl, hmem⟩

/-- A token that is expected is taken. -/
theorem expect_of_steps (h : s.Steps t s') (ht : t.kind ∈ kinds) :
    expect kinds s = .ok t s' := by
  obtain ⟨rfl, -, h⟩ := h
  rw [expect_of_contains (by simpa using ht), h]

/-- A success of `expect` consumed a token of one of the kinds. -/
theorem expect_eq_ok (hkinds : .endOfInput ∉ kinds) (h : expect kinds s = .ok t s') :
    t.kind ∈ kinds ∧ s.Steps t s' := by
  by_cases hmem : s.current.kind ∈ kinds
  · rw [expect_of_contains (by simpa using hmem)] at h
    have hstep := (advance_eq_ok (fun hend => hkinds (hend ▸ hmem))).1 h
    exact ⟨hstep.1 ▸ hmem, hstep⟩
  · rw [expect_of_not_contains (by simpa using hmem)] at h
    cases h

/-- A success of `expect` for a single kind. -/
theorem expect_one_eq_ok {kind : TokenKind} (hkind : kind ≠ .endOfInput)
    (h : expect [kind] s = .ok t s') : t.kind = kind ∧ s.Steps t s' := by
  obtain ⟨ht, hstep⟩ := expect_eq_ok (by simpa using hkind.symm) h
  exact ⟨by simpa using ht, hstep⟩

/-! ### Nodes -/

variable {kind : NodeKind} {start : Position} {value : Value Node} {children : List Node}

/-- A node ends with the last token of the run behind which it is finished. -/
theorem finish_of_reads {w : List Token} (h : s.Reads w s') (hw : w ≠ []) :
    finish kind start value children s' =
      .ok ⟨kind, value, children, ⟨start, lastStop w⟩⟩ s' := by
  have hprevious := h.previous_eq hw
  rw [List.getLast?_eq_some_getLast hw] at hprevious
  simp only [finish, hprevious, lastStop, List.getLast?_eq_some_getLast hw]
  rfl

/-- A node ends where the token does that was taken last. -/
theorem finish_of_steps (h : s.Steps t s') :
    finish kind start value children s' = .ok ⟨kind, value, children, ⟨start, t.stop⟩⟩ s' :=
  finish_of_reads h.reads (by simp)

/-! ### Repetition -/

/-- A collection goes on behind a step that gave something and consumed a token. -/
theorem collect_of_some {step : Parse (Option α)} {a : α} (h : step s = .ok (some a) m)
    (hlt : m.pending < s.pending) : collect step s = (List.cons a <$> collect step) m := by
  rw [collect, h]
  simp only [hlt, if_true, Functor.map, EStateM.map]
  cases collect step m <;> rfl

/-- A collection ends with the first step that gives nothing. -/
theorem collect_of_none {step : Parse (Option α)} (h : step s = .ok none m) :
    collect step s = .ok [] m := by
  rw [collect, h]

/-- A collection whose steps all consume a token is its first step and a collection behind it. -/
theorem collect_eq {step : Parse (Option α)}
    (hlt : ∀ s m a, step s = .ok (some a) m → m.pending < s.pending) :
    collect step = (do
      match ← step with
      | none => return []
      | some a => List.cons a <$> collect step) := by
  funext s
  cases h : step s with
  | error e m => rw [bind_of_error h, collect, h]
  | ok r m =>
      rw [bind_of_ok h]
      cases r with
      | none => rw [collect_of_none h]; rfl
      | some a => exact collect_of_some h (hlt s m a h)

/-- What a collection gives is built up from its end, where the step gave nothing. -/
theorem collect_induct {step : Parse (Option α)} {Q : State → List α → State → Prop}
    (hlt : ∀ s a m, step s = .ok (some a) m → m.pending < s.pending)
    (hnil : ∀ s s', step s = .ok none s' → Q s [] s')
    (hcons : ∀ s a m as s', step s = .ok (some a) m → Q m as s' → Q s (a :: as) s')
    {as : List α} (h : collect step s = .ok as s') : Q s as s' := by
  induction hp : s.pending using Nat.strongRecOn generalizing s as with
  | ind p ih =>
      subst hp
      cases hstep : step s with
      | error e m =>
          rw [collect, hstep] at h
          cases h
      | ok r m =>
          cases r with
          | none =>
              rw [collect_of_none hstep] at h
              cases h
              exact hnil _ _ hstep
          | some a =>
              have hm := hlt s a m hstep
              rw [collect_of_some hstep hm] at h
              obtain ⟨bs, hbs, rfl⟩ := map_eq_ok.1 h
              exact hcons s a m bs s' hstep (ih m.pending hm hbs rfl)

/-- A repetition goes on behind a step that gave something and consumed a token. -/
theorem iterate_of_some {step : α → Parse (Option α)} {a b : α} (h : step a s = .ok (some b) m)
    (hlt : m.pending < s.pending) : iterate step a s = iterate step b m := by
  rw [iterate, h]
  simp only [hlt, if_true]

/-- From `s` a repetition on `a` gets to `s'` with `b`, where it goes on. -/
inductive Iterates (step : α → Parse (Option α)) (a : α) (s : State) : α → State → Prop
  | here : Iterates step a s a s
  | step {b c : α} {m s' : State} (h : Iterates step a s b m) (hstep : step b m = .ok (some c) s')
      (hlt : s'.pending < m.pending) : Iterates step a s c s'

/-- What a repetition has to do behind its first steps is what it has to do from there. -/
theorem Iterates.iterate_eq {step : α → Parse (Option α)} {a b : α} (h : Iterates step a s b m) :
    iterate step a s = iterate step b m := by
  induction h with
  | here => rfl
  | step _ hstep hlt ih => exact ih.trans (iterate_of_some hstep hlt)

/-- A repetition ends with the first step that gives nothing. -/
theorem iterate_of_none {step : α → Parse (Option α)} {a : α} (h : step a s = .ok none m) :
    iterate step a s = .ok a m := by
  rw [iterate, h]

/-- A repetition whose steps all consume a token is its first step and a repetition behind it. -/
theorem iterate_eq {step : α → Parse (Option α)}
    (hlt : ∀ s m a b, step a s = .ok (some b) m → m.pending < s.pending) (a : α) :
    iterate step a = (do
      match ← step a with
      | none => return a
      | some b => iterate step b) := by
  funext s
  cases h : step a s with
  | error e m => rw [bind_of_error h, iterate, h]
  | ok r m =>
      rw [bind_of_ok h]
      cases r with
      | none => rw [iterate_of_none h]; rfl
      | some b => exact iterate_of_some h (hlt s m a b h)

/-- What every step of a repetition keeps holds where the repetition ends. -/
theorem iterate_induct {step : α → Parse (Option α)} {P : α → State → Prop}
    (hstep : ∀ a s b m, P a s → step a s = .ok (some b) m → P b m ∧ m.pending < s.pending)
    {a b : α} (ha : P a s) (h : iterate step a s = .ok b s') :
    ∃ m, P b m ∧ step b m = .ok none s' := by
  induction hp : s.pending using Nat.strongRecOn generalizing s a with
  | ind p ih =>
      subst hp
      cases hr : step a s with
      | error e m =>
          rw [iterate, hr] at h
          cases h
      | ok r m =>
          cases r with
          | none =>
              rw [iterate_of_none hr] at h
              cases h
              exact ⟨s, ha, hr⟩
          | some c =>
              obtain ⟨hc, hm⟩ := hstep a s c m ha hr
              rw [iterate_of_some hr hm] at h
              exact ih m.pending hm hc h rfl

end Parse

end Sigil
