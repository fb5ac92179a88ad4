import Sigil.Proofs.Grammar.Exact
import Sigil.Proofs.Parser.Languages
import Sigil.Proofs.Token.Stream

/-!
# The first error

A parser reports the first token that does not fit: the tokens in front of it start some program,
and together with it they start none. What it names as expected would have fitted, and the report
depends on nothing behind the token. A text that cannot be cut into tokens is no exception. The
failure to cut it is reported only if all tokens in front of it fit, although the parser takes each
token before it has decided on the one before.

## Main definitions

* `Viable`: the tokens start a program.

## Main results

* `parse_earliest`: what is reported about a token that does not fit.
* `parseText_in_order`: which of two errors in a text is reported.
-/

namespace Sigil

open Parse

/-- The tokens are the first ones of a program, the end of input included. -/
def Viable (w : List Token) : Prop :=
  ∃ ts e p, e.kind = .endOfInput ∧ Grammatical ts e p ∧ w <+: ts ++ [e]

section

variable {stream : TokenStream} {s m s' : Parser.State} {v w : List Token} {t : Token}

/-- What a program may start with, its own beginnings may. -/
theorem Viable.mono (h : Viable w) (hv : v <+: w) : Viable v := by
  obtain ⟨ts, e, p, he, hp, hw⟩ := h
  exact ⟨ts, e, p, he, hp, hv.trans hw⟩

/-- Tokens that can be completed to statements start a program. -/
theorem Begins.viable {α : Type} (h : Begins (fun _ : α => IsStatements) w) : Viable w := by
  obtain ⟨-, v, n, ts, h⟩ := h
  exact ⟨w ++ v, .endAt .start, _, rfl, ⟨n + 1, ts, h _ (endsStatement_of_endOfInput rfl), rfl⟩,
    by simp⟩

/-! ### Runs on a stream -/

/-- No end of input is read. -/
theorem Parser.State.Reads.kind_ne (h : s.Reads w s') : ∀ t ∈ w, t.kind ≠ .endOfInput := by
  induction w generalizing s with
  | nil => simp
  | cons t w ih =>
      obtain ⟨m, ht, h⟩ := h
      exact List.forall_mem_cons.2 ⟨ht.2.1, ih h⟩

/-- In front of the first token there is none. -/
theorem Parser.State.previous_of_start (h : State.start stream = .ok s) : s.previous = none := by
  unfold State.start at h
  split at h <;> cases h
  rfl

/-- If there is no first token, then there is nothing but a failure to cut the text. -/
theorem Parser.State.eq_of_start_error {e : LexError} (h : State.start stream = .error e) :
    stream = ⟨[], some e⟩ := by
  obtain ⟨tokens, failure⟩ := stream
  cases tokens with
  | cons t ts => cases h
  | nil =>
      cases failure <;> cases h
      rfl

/-- The parser has consumed the first tokens `w` of the stream. It looks at the next one, or at the
end of input that is added behind the last one. -/
def Parser.State.IsBehind (stream : TokenStream) (w : List Token) (s : State) : Prop :=
  stream = ⟨w ++ s.current :: s.supply.tokens, s.supply.failure⟩ ∨
    (stream = ⟨w, none⟩ ∧ s.current = .endAfter w.getLast? ∧ s.supply = ⟨[], none⟩)

/-- At the start nothing has been read. -/
theorem Parser.State.isBehind_of_start (h : State.start stream = .ok s) : s.IsBehind stream [] := by
  obtain ⟨tokens, failure⟩ := stream
  cases tokens with
  | cons t ts =>
      cases h
      exact .inl rfl
  | nil =>
      cases failure with
      | some e => cases h
      | none =>
          cases h
          exact .inr ⟨rfl, rfl, rfl⟩

/-- A step is behind one token more. -/
theorem Parser.State.IsBehind.step (h : s.IsBehind stream v) (ht : s.Steps t m) :
    m.IsBehind stream (v ++ [t]) := by
  obtain ⟨previous, current, tokens, failure⟩ := s
  obtain ⟨rfl, hkind, hadvance⟩ := ht
  rcases h with rfl | ⟨-, hcurrent, -⟩
  · simp only [advance, hkind, if_false] at hadvance
    cases tokens with
    | cons u us =>
        cases hadvance
        exact .inl (by simp)
    | nil =>
        cases failure with
        | some e => cases hadvance
        | none =>
            cases hadvance
            exact .inr ⟨rfl, by rw [List.getLast?_concat], rfl⟩
  · exact absurd (congrArg Token.kind hcurrent) (by cases v.getLast? <;> exact hkind)

/-- What has been read is behind. -/
theorem Parser.State.IsBehind.reads (h : s.IsBehind stream v) (hw : s.Reads w s') :
    s'.IsBehind stream (v ++ w) := by
  induction w generalizing s v with
  | nil =>
      rw [State.reads_nil.1 hw, List.append_nil]
      exact h
  | cons t w ih =>
      obtain ⟨m, ht, hw⟩ := hw
      have hall := ih (h.step ht) hw
      rwa [List.append_assoc] at hall

/-- Where the parser cannot take the next token, there is a failure to cut the text behind the
current one. -/
theorem Parser.State.IsBehind.eq_of_advance_error {e : LexError} (h : s.IsBehind stream w)
    (hkind : s.current.kind ≠ .endOfInput) (hadvance : advance s = .error (.lexical e) s') :
    stream = ⟨w ++ [s.current], some e⟩ := by
  obtain ⟨previous, current, tokens, failure⟩ := s
  rcases h with rfl | ⟨-, -, hsupply⟩
  · simp only [advance, hkind, if_false] at hadvance
    rcases tokens with _ | ⟨t, ts⟩
    · cases failure with
      | none => cases hadvance
      | some e' =>
          cases hadvance
          rfl
    · cases hadvance
  · cases hsupply
    simp [advance, hkind, TokenStream.next] at hadvance

end

/-! ### What is reported -/

/-- The token `t` is found in the stream behind the tokens `w`. Behind the last token of a stream
without a failure there is an end of input. -/
def TokenStream.Finds (stream : TokenStream) (w : List Token) (t : Token) : Prop :=
  (∃ ts, stream.tokens = w ++ t :: ts) ∨ (stream = ⟨w, none⟩ ∧ t = .endAfter w.getLast?)

/-- On a stack with room for `room` calls a fault is reported at the token `t` behind the tokens
`w`, whatever comes behind it. The tokens start a program, and so they do with what the report names
in place of `t`. -/
structure Reports (room : Nat) (fault : ParseFault) (w : List Token) (t : Token) : Prop where
  viable : Viable w
  alternatives : ∀ x ∈ fault.alternatives, ∀ u, x.Allows u → Viable (w ++ [u])
  parse_eq : ∀ ts failure,
    parse room ⟨w ++ t :: ts, failure⟩ = .error (.grammatical ⟨fault, t⟩)

variable {room : Nat}

/-- Unless it is an overflow, a fault is reported at the first token that does not fit. -/
theorem Reports.not_viable {expected : List Expectation} {w : List Token} {t : Token}
    (h : Reports room (.unexpected expected) w t) : ¬ Viable (w ++ [t]) := by
  rintro ⟨ts, e, p, he, ⟨n, statements, hd, rfl⟩, us, hus⟩
  have hfailed := h.parse_eq us none
  rw [List.append_assoc] at hus
  change parse room ⟨w ++ ([t] ++ us), none⟩ = _ at hfailed
  rw [hus] at hfailed
  obtain hok | ⟨u, hrefused⟩ :=
    parse_of_grammatical room hd.kind_ne he ⟨n, statements, hd, rfl⟩
  · rw [hok] at hfailed
    cases hfailed
  · rw [hrefused] at hfailed
    cases hfailed

/-- What the rule for programs does with the tokens `w` up to the current one is what the parser
does with every stream that starts with them. -/
theorem parse_of_locally {s s' : Parser.State} {w : List Token} {failure : ParseFailure}
    (hprevious : s.previous = none) (hreads : s.Reads w s')
    (h : (Parser.program room).Locally s w s' (.error failure)) (ts : List Token)
    (fault : Option LexError) : parse room ⟨w ++ s'.current :: ts, fault⟩ = .error failure := by
  obtain ⟨u, u', hstart, hu, hcurrent⟩ :=
    Parser.State.start_of_tokens (e := s'.current) hreads.kind_ne ts fault
  have hprogram := h u u' hu (by rw [Parser.State.previous_of_start hstart, hprevious]) hcurrent
  rw [parse_of_start hstart, hprogram]

/-- A stream is a program, or it cannot be cut further behind tokens that start one, or a fault is
reported at one of its tokens. -/
theorem parse_cases (room : Nat) (stream : TokenStream) :
    (∃ p, parse room stream = .ok p) ∨
      (∃ w e, stream = ⟨w, some e⟩ ∧ Viable w ∧ parse room stream = .error (.lexical e)) ∨
      ∃ fault w t, stream.Finds w t ∧ Reports room fault w t ∧
        parse room stream = .error (.grammatical ⟨fault, t⟩) := by
  cases hstart : Parser.State.start stream with
  | error e =>
      obtain rfl := Parser.State.eq_of_start_error hstart
      exact .inr (.inl ⟨[], e, rfl, Begins.viable ⟨(), [], IsStatements.nil⟩, rfl⟩)
  | ok s =>
      have hprevious := Parser.State.previous_of_start hstart
      have hbehind := Parser.State.isBehind_of_start hstart
      rw [parse_of_start hstart]
      cases Parser.program_follows room s with
      | succeeds hreads _ hlocal =>
          rw [hlocal.eq hreads]
          exact .inl ⟨_, rfl⟩
      | @fails w s' fault hreads hw htrue hlocal =>
          refine .inr (.inr ⟨fault, w, s'.current, ?_,
            ⟨hw.viable, fun x hx t ht => (htrue x hx t ht).viable,
              parse_of_locally hprevious hreads hlocal⟩, ?_⟩)
          · rcases hbehind.reads hreads with rfl | ⟨rfl, hcurrent, -⟩
            · exact .inl ⟨_, rfl⟩
            · exact .inr ⟨rfl, hcurrent⟩
          · rw [hlocal.eq hreads]
      | overflows hreads _ hlocal =>
          exact absurd (hlocal.eq hreads) (Parser.program_ne_overflow room _ _)
      | @breaks w m s' e hreads hkind hadvance hw heq =>
          have hstream := (hbehind.reads hreads).eq_of_advance_error hkind hadvance
          exact .inr (.inl ⟨w ++ [m.current], e, hstream, hw.viable, by rw [heq]⟩)

/-- A failure to cut the text that is reported is the one of the stream. -/
theorem failure_of_parse {stream : TokenStream} {e : LexError}
    (h : parse room stream = .error (.lexical e)) : stream.failure = some e := by
  rcases parse_cases room stream with ⟨p, hp⟩ | ⟨w, e', rfl, -, hlexical⟩ | ⟨fault, w, t, -, -, heq⟩
  · rw [hp] at h
    cases h
  · rw [hlexical] at h
    cases h
    rfl
  · rw [heq] at h
    cases h

/-- Whenever a token does not fit, the tokens in front of it start a program and with it they do
not. The report is the same whatever comes behind the token. Each alternative that it names would
have fitted. -/
theorem parse_earliest (room : Nat) (stream : TokenStream) (expected : List Expectation)
    (found : Token) (h : parse room stream = .error (.grammatical ⟨.unexpected expected, found⟩)) :
    ∃ w, stream.Finds w found ∧ Viable w ∧ ¬ Viable (w ++ [found]) ∧
      (∀ ts failure, parse room ⟨w ++ found :: ts, failure⟩ =
        .error (.grammatical ⟨.unexpected expected, found⟩)) ∧
      ∀ x ∈ expected, ∀ t, x.Allows t → Viable (w ++ [t]) := by
  rcases parse_cases room stream with ⟨p, hp⟩ | ⟨w, e, -, -, hlexical⟩ |
    ⟨fault, w, t, hfinds, hw, heq⟩
  · rw [h] at hp
    cases hp
  · rw [h] at hlexical
    cases hlexical
  · rw [h] at heq
    cases heq
    exact ⟨w, hfinds, hw.viable, hw.not_viable, hw.parse_eq, hw.alternatives⟩

/-- In `a => 1` the number is reported, where a name is expected. -/
theorem parse_earliest_flow :
    parse 900
      ⟨[⟨.identifier, "a", ⟨0, 1, 1⟩⟩, ⟨.symbol .flow, "=>", ⟨2, 1, 3⟩⟩,
        ⟨.number, "1", ⟨5, 1, 6⟩⟩, ⟨.endOfInput, "", ⟨6, 1, 7⟩⟩], none⟩ =
      .error (.grammatical ⟨.unexpected [.token .identifier], ⟨.number, "1", ⟨5, 1, 6⟩⟩⟩) ∧
    ∃ w, Viable w ∧ ¬ Viable (w ++ [⟨.number, "1", ⟨5, 1, 6⟩⟩]) ∧
      ∀ t : Token, t.kind = .identifier → Viable (w ++ [t]) := by
  refine ⟨by cbv, ?_⟩
  obtain ⟨w, -, hw, hnot, -, halternatives⟩ := parse_earliest 900
    ⟨[⟨.identifier, "a", ⟨0, 1, 1⟩⟩, ⟨.symbol .flow, "=>", ⟨2, 1, 3⟩⟩,
      ⟨.number, "1", ⟨5, 1, 6⟩⟩, ⟨.endOfInput, "", ⟨6, 1, 7⟩⟩], none⟩
    [.token .identifier] ⟨.number, "1", ⟨5, 1, 6⟩⟩ (by cbv)
  exact ⟨w, hw, hnot, halternatives (.token .identifier) (by simp)⟩

/-! ### Failures to cut a text -/

/-- There is no end of input in front of a failure to cut a text. -/
theorem kind_ne_of_ofText {text : String} {ts : List Token} {e : LexError}
    (h : TokenStream.ofText text = ⟨ts, some e⟩) : ∀ t ∈ ts, t.kind ≠ .endOfInput := by
  obtain ⟨pieces, gap, rest, hcut⟩ := exists_isCut text
  rcases hcut.ended with rfl | ⟨fault, hfault⟩
  · rw [hcut.ofText_of_end] at h
    cases h
  · rw [hcut.ofText_of_fault hfault] at h
    cases h
    exact List.forall_mem_map.2 fun piece hpiece => (hcut.cuts.isLexeme piece hpiece).kind_ne

/-- A text with a fault is no program. -/
theorem parseText_ne_ok {text : String} {ts : List Token} {e : LexError}
    (h : TokenStream.ofText text = ⟨ts, some e⟩) (p : Node) : parseText room text ≠ .ok p := by
  rw [parseText, h]
  exact parse_of_failure (kind_ne_of_ofText h)

/-- A text without a fault has no lexical error. -/
theorem parseText_ne_lexical {text : String} {ts : List Token}
    (h : TokenStream.ofText text = ⟨ts, none⟩) (e : LexError) :
    parseText room text ≠ .error (.lexical e) := by
  intro hlexical
  rw [parseText, h] at hlexical
  rcases parse_cases room ⟨ts, none⟩ with ⟨p, hp⟩ | ⟨w, e', heq, -, -⟩ | ⟨fault, w, t, -, -, heq⟩
  · rw [hp] at hlexical
    cases hlexical
  · cases heq
  · rw [heq] at hlexical
    cases hlexical

/-- Of a failure to cut a text and a token that does not fit, the one that comes first in the text
is reported: the failure if all tokens in front of it start a program, and otherwise the first token
up to which they do not. A program that is nested too deeply may be refused at an earlier token. A
text that is cut to its end is never reported as one that cannot be cut. -/
theorem parseText_in_order (room : Nat) (text : String) :
    (∀ ts e, TokenStream.ofText text = ⟨ts, some e⟩ →
      (∀ p, parseText room text ≠ .ok p) ∧
      ((∃ w t us, ts = w ++ t :: us ∧ Viable w ∧
          parseText room text = .error (.grammatical ⟨.nestedTooDeeply, t⟩)) ∨
        (Viable ts → parseText room text = .error (.lexical e)) ∧
        (¬ Viable ts → ∃ w t us expected, ts = w ++ t :: us ∧ Viable w ∧ ¬ Viable (w ++ [t]) ∧
          parseText room text = .error (.grammatical ⟨.unexpected expected, t⟩)))) ∧
    ∀ ts, TokenStream.ofText text = ⟨ts, none⟩ →
      ∀ e, parseText room text ≠ .error (.lexical e) := by
  refine ⟨fun ts e htext => ⟨parseText_ne_ok htext, ?_⟩, fun ts => parseText_ne_lexical⟩
  rcases parse_cases room (.ofText text) with ⟨p, hp⟩ | ⟨w, e', heq, hw, hlexical⟩ |
    ⟨fault, w, t, hfinds, hw, heq⟩
  · exact absurd hp (parseText_ne_ok htext p)
  · rw [htext] at heq
    cases heq
    exact .inr ⟨fun _ => hlexical, fun hnot => absurd hw hnot⟩
  · rw [htext] at hfinds
    rcases hfinds with ⟨us, rfl⟩ | ⟨hstream, -⟩
    · cases fault with
      | nestedTooDeeply => exact .inl ⟨w, t, us, rfl, hw.viable, heq⟩
      | unexpected expected =>
          have hprefix : w ++ [t] <+: w ++ t :: us := ⟨us, by simp⟩
          exact .inr ⟨fun hviable => absurd (hviable.mono hprefix) hw.not_viable,
            fun _ => ⟨w, t, us, expected, rfl, hw.viable, hw.not_viable, heq⟩⟩
    · cases hstream

/-- A failure to cut the text comes behind the parenthesis, so the parenthesis is reported. -/
example :
    parse 900
      ⟨[⟨.identifier, "a", ⟨0, 1, 1⟩⟩, ⟨.symbol .rparen, ")", ⟨2, 1, 3⟩⟩],
        some ⟨.lonePart '$', ⟨4, 1, 5⟩⟩⟩ =
      .error (.grammatical ⟨.unexpected [.expression], ⟨.symbol .rparen, ")", ⟨2, 1, 3⟩⟩⟩) := by
  cbv

end Sigil
