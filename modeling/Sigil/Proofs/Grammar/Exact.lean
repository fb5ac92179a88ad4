import Sigil.Proofs.Grammar.Complete
import Sigil.Proofs.Grammar.Sound
import Sigil.Proofs.Parser.Limit

/-!
# The parser and the grammar

The parser accepts the programs of the grammar, and gives the tree of the grammar for each. The
grammar has no bound on nesting and the stack of the parser has, so there is one exception: a
program that nests too deeply for the stack is refused. On a large enough stack it is not.

## Main results

* `Grammatical.unique`: the tokens of a program determine its tree.
* `parse_exact`: what the parser accepts, and what it refuses.
-/

namespace Sigil

variable {ts : List Token} {e : Token} {p q : Node} {n k room : Nat}

theorem ProgramOf.mono (h : ProgramOf n ts e p) (hn : n ≤ k) : ProgramOf k ts e p := by
  obtain ⟨statements, h, rfl⟩ := h
  exact ⟨statements, h.mono_plain (Nat.sub_le_sub_right hn 1), rfl⟩

/-! ### Lists of tokens as streams -/

/-- The tokens in front of another one are all consumed, unless the end of input is among them. -/
theorem Parser.State.reads_of_tokens (hts : ∀ t ∈ ts, t.kind ≠ .endOfInput)
    (previous : Option Token) (us : List Token) (failure : Option LexError) :
    ∃ t us' previous', ts ++ e :: us = t :: us' ∧
      (⟨previous, t, ⟨us', failure⟩⟩ : State).Reads ts ⟨previous', e, ⟨us, failure⟩⟩ := by
  induction ts generalizing previous with
  | nil => exact ⟨e, us, previous, rfl, rfl⟩
  | cons t ts ih =>
      obtain ⟨ht, hts⟩ := List.forall_mem_cons.1 hts
      obtain ⟨u, us', previous', heq, hreads⟩ := ih hts (some t)
      refine ⟨t, u :: us', previous', by rw [List.cons_append, heq], .cons ⟨rfl, ht, ?_⟩ hreads⟩
      simp [Parse.advance, ht, TokenStream.next]

/-- The parser starts in front of the first token. -/
theorem Parser.State.start_of_tokens (hts : ∀ t ∈ ts, t.kind ≠ .endOfInput) (us : List Token)
    (failure : Option LexError) :
    ∃ s s', State.start ⟨ts ++ e :: us, failure⟩ = .ok s ∧ s.Reads ts s' ∧ s'.current = e := by
  obtain ⟨t, us', previous', heq, hreads⟩ := reads_of_tokens (e := e) hts none us failure
  exact ⟨_, _, by rw [heq]; rfl, hreads, rfl⟩

/-! ### Trees of the grammar -/

/-- The tokens of a program determine its tree. -/
theorem Grammatical.unique (hts : ∀ t ∈ ts, t.kind ≠ .endOfInput) (he : e.kind = .endOfInput)
    (hp : Grammatical ts e p) (hq : Grammatical ts e q) : p = q := by
  obtain ⟨n, hp⟩ := hp
  obtain ⟨k, hq⟩ := hq
  obtain ⟨s, s', -, hreads, rfl⟩ := Parser.State.start_of_tokens (e := e) hts [] none
  have hp : ProgramOf (n + k) ts s'.current p := hp.mono (by omega)
  have hq : ProgramOf (n + k) ts s'.current q := hq.mono (by omega)
  have hp := Parser.programWith_complete hp hreads he
  have hq := Parser.programWith_complete hq hreads he
  rw [hp] at hq
  cases hq
  rfl

/-! ### Parsing -/

/-- What the parser makes of a list of tokens is what its rule for programs makes of it. -/
theorem parse_of_start {tokens : TokenStream} {s : Parser.State}
    (h : Parser.State.start tokens = .ok s) :
    parse room tokens =
      match Parser.program room s with
      | .ok program _ => .ok program
      | .error failure _ => .error failure := by
  cases hprogram : Parser.program room s <;> simp only [parse, h, hprogram]

/-- A parser never gets to the end of a stream that ends with a failure. -/
theorem Parser.State.kind_ne_of_failure {w us : List Token} {t : Token} {previous : Option Token}
    {failure : LexError} {s' : State} (hts : ∀ u ∈ t :: us, u.kind ≠ .endOfInput)
    (h : (⟨previous, t, ⟨us, some failure⟩⟩ : State).Reads w s') :
    s'.current.kind ≠ .endOfInput := by
  induction w generalizing previous t us with
  | nil =>
      obtain rfl := reads_nil.1 h
      exact hts t (by simp)
  | cons u w ih =>
      obtain ⟨m, ⟨rfl, ht, hadvance⟩, h⟩ := reads_cons.1 h
      cases us with
      | nil => simp [Parse.advance, ht, TokenStream.next] at hadvance
      | cons v us =>
          simp only [Parse.advance, ht, if_false, TokenStream.next] at hadvance
          cases hadvance
          exact ih (List.forall_mem_cons.1 hts).2 h

/-- A stream that ends with a failure is no program. -/
theorem parse_of_failure {failure : LexError} (hts : ∀ t ∈ ts, t.kind ≠ .endOfInput) :
    parse room ⟨ts, some failure⟩ ≠ .ok p := by
  intro h
  cases ts with
  | nil => cases h
  | cons t us =>
      rw [parse_of_start (s := ⟨none, t, ⟨us, some failure⟩⟩) rfl] at h
      cases hprogram : Parser.program room ⟨none, t, ⟨us, some failure⟩⟩ with
      | error e m => simp [hprogram] at h
      | ok q m =>
          obtain ⟨w, hw, -, hend⟩ := Parser.program_sound hprogram
          exact Parser.State.kind_ne_of_failure hts hw hend

/-- The parser accepts the programs of the grammar for which there is room. -/
theorem parse_eq_ok (hts : ∀ t ∈ ts, t.kind ≠ .endOfInput) (he : e.kind = .endOfInput) :
    parse room ⟨ts ++ [e], none⟩ = .ok p ↔ ProgramOf room ts e p := by
  obtain ⟨s, s', hstart, hreads, rfl⟩ := Parser.State.start_of_tokens (e := e) hts [] none
  rw [parse_of_start hstart]
  constructor
  · intro h
    cases hprogram : Parser.program room s with
    | error failure m => simp [hprogram] at h
    | ok p' m =>
        obtain rfl : p' = p := by simpa [hprogram] using h
        obtain ⟨w, hw, hp, hend⟩ := Parser.program_sound hprogram
        obtain ⟨rfl, rfl⟩ := hw.unique_end hreads hend he
        exact hp
  · intro h
    have hprogram : Parser.program room s = .ok p s' := by
      rw [Parser.program_eq, Parser.reportingOverflow_eq_ok]
      exact Parser.programWith_complete h hreads he
    rw [hprogram]

/-- A program of the grammar is parsed, or refused because it nests too deeply. -/
theorem parse_of_grammatical (room : Nat) (hts : ∀ t ∈ ts, t.kind ≠ .endOfInput)
    (he : e.kind = .endOfInput) (h : Grammatical ts e p) :
    parse room ⟨ts ++ [e], none⟩ = .ok p ∨
      ∃ t, parse room ⟨ts ++ [e], none⟩ = .error (.grammatical ⟨.nestedTooDeeply, t⟩) := by
  obtain ⟨n, h⟩ := h
  obtain ⟨s, s', hstart, hreads, rfl⟩ := Parser.State.start_of_tokens (e := e) hts [] none
  have hmono : ProgramOf (room + n) ts s'.current p := h.mono (by omega)
  have hparsed := Parser.programWith_complete hmono hreads he
  have happroximates := Parser.programWith_approximates
    (Parser.run_approximates (Nat.le_add_right room n)) s
  rw [parse_of_start hstart, Parser.program_eq]
  obtain heq | ⟨m, hoverflow⟩ := happroximates
  · rw [Parser.reportingOverflow_eq_ok.2 (heq.trans hparsed)]
    exact .inl rfl
  · rw [Parser.reportingOverflow_of_overflow hoverflow]
    exact .inr ⟨_, rfl⟩

/-- The parser accepts exactly the programs of the grammar, gives the only tree that the grammar has
for each, and makes one exception: it refuses programs that nest deeper than the stack has room for.
For every program some room is enough, and more is as well. -/
theorem parse_exact (room : Nat) (ts : List Token) (e : Token)
    (hts : ∀ t ∈ ts, t.kind ≠ .endOfInput) (he : e.kind = .endOfInput) :
    (∀ p, parse room ⟨ts ++ [e], none⟩ = .ok p → Grammatical ts e p) ∧
      (∀ p, Grammatical ts e p → parse room ⟨ts ++ [e], none⟩ = .ok p ∨
        ∃ t, parse room ⟨ts ++ [e], none⟩ = .error (.grammatical ⟨.nestedTooDeeply, t⟩)) ∧
      (∀ p q, Grammatical ts e p → Grammatical ts e q → p = q) ∧
      (∀ p, ProgramOf room ts e p ↔ parse room ⟨ts ++ [e], none⟩ = .ok p) ∧
      ∀ p, Grammatical ts e p →
        ∃ enough, ∀ room, enough ≤ room → parse room ⟨ts ++ [e], none⟩ = .ok p :=
  ⟨fun _ h => ⟨room, (parse_eq_ok hts he).1 h⟩,
    fun _ => parse_of_grammatical room hts he,
    fun _ _ => Grammatical.unique hts he,
    fun _ => (parse_eq_ok hts he).symm,
    fun _ ⟨enough, h⟩ => ⟨enough, fun _ hroom => (parse_eq_ok hts he).2 (h.mono hroom)⟩⟩

/-- A minus sign behind an expression carries it on: `a - b` is one statement. -/
theorem parse_difference :
    parse 900
      ⟨[⟨.identifier, "a", ⟨0, 1, 1⟩⟩, ⟨.symbol .minus, "-", ⟨2, 1, 3⟩⟩,
        ⟨.identifier, "b", ⟨4, 1, 5⟩⟩] ++ [⟨.endOfInput, "", ⟨5, 1, 6⟩⟩], none⟩ =
      .ok ⟨.program, .none,
        [⟨.additive, .text "-",
          [⟨.identifier, .text "a", [], ⟨⟨0, 1, 1⟩, 1⟩⟩,
            ⟨.identifier, .text "b", [], ⟨⟨4, 1, 5⟩, 5⟩⟩],
          ⟨⟨0, 1, 1⟩, 5⟩⟩],
        ⟨⟨0, 1, 1⟩, 5⟩⟩ := by
  refine ((parse_exact 900 _ _ (by decide) rfl).2.2.2.1 _).1 ⟨_, ?_, rfl⟩
  refine .moreStatements (v := [_, _, _]) (w := []) (.bare ?_ ⟨by decide, rfl⟩) .noStatement
  refine .looser (k := Level.additive) ?_ (by decide)
  exact .operation (v := [_]) (w := [_]) (.looser (.literal (by decide) rfl) (by decide)) rfl
    (.looser (.literal (by decide) rfl) (by decide))

end Sigil
