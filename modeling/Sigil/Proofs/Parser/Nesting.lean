import Sigil.Proofs.Grammar.Exact
import Sigil.Proofs.Parser.Overflow
import Sigil.Proofs.Parser.Session

/-!
# Programs that are nested too deeply

Whether a program is refused because of its nesting is a matter of the levels that its tokens open,
and of nothing else: neither the length of a chain of operators or suffixes nor the number of
statements or items counts, and a level that is closed again counts no more. Each level takes one
frame of the stack at least and twelve at most. So what opens as many levels as there are frames is
refused, and what opens less than a twelfth of them, with a few to spare, is parsed.

Where the stack runs out the parser stops. What stands behind makes no difference then, whether it
could be parsed, or even be cut into tokens, or not.

How many frames there are is up to the interpreter and its caller. By default an interpreter allows
a thousand calls within each other, of which the caller has taken some and some are kept for calls
on single tokens; what is left is between the bounds of `UsualRoom`, from the frames for 55 levels
up to 1500.

## Main definitions

* `UsualRoom`: the room that is left on a stack with the usual limit.

## Main results

* `Derives.nestsWithin`: statements nest within the frames that they take.
* `parse_of_nestsWithin`: programs with twelve frames for each level are parsed.
* `parse_of_opens`: what opens as many levels as there are frames is refused.
* `parse_nesting`: the limit counts levels of nesting only.
-/

namespace Sigil

variable {k n room : Nat} {u w us : List Token} {x e : Token} {b c : Category}
  {s s' : Parser.State} {p : Node} {failure : Option LexError}

/-! ### Nesting and frames -/

/-- Statements nest within the frames that they take: if they led further in, no parser with that
many frames could consume them. -/
theorem Derives.nestsWithin {ts : List Node} (h : Derives (.plain n) w e (.statements ts))
    (he : e.kind = .endOfInput) : NestsWithin n w := by
  rintro k v ⟨rest, rfl⟩ ⟨next, c, hleads⟩
  refine Nat.le_of_not_lt fun hlt => ?_
  obtain ⟨s, s', -, hreads, hend⟩ := Parser.State.start_of_tokens (e := e) h.kind_ne [] none
  obtain ⟨m, hv, -⟩ := Parser.State.reads_append.1 hreads
  obtain ⟨u, x, rest', l, c', rfl, hleads, hl, hlevel, hstart⟩ := hleads.reaches hlt
  obtain ⟨m', hu, m'', hx, -⟩ := Parser.State.reads_append.1 hv
  have hparsed := h.parsed (n + 1) rfl [.endOfInput] s s' hreads hend (by simp [he]) (by decide)
  obtain ⟨m, hoverflow⟩ := hleads.overflows hlevel hstart (Room.plain_le_resumed hl) hu hx.1
    (n + 1) rfl [.endOfInput] (by decide)
  cases hparsed.symm.trans hoverflow

/-! ### The limit -/

/-- Programs for whose levels there are twelve frames each, and those for the last level, are
parsed. -/
theorem parse_of_nestsWithin (h : Grammatical w e p) (he : e.kind = .endOfInput)
    (hnests : NestsWithin n w) (hroom : 12 * (n + 1) + 12 ≤ room) :
    parse room ⟨w ++ e :: us, failure⟩ = .ok p := by
  obtain ⟨enough, ts, h, rfl⟩ := h
  rw [parse_congr (TokenStream.readable_of_end he none)]
  exact (parse_eq_ok h.kind_ne he).2 ⟨ts, hnests.derives h (by omega), rfl⟩

/-- The end of input may be left out. -/
theorem parse_of_nestsWithin_added (h : Grammatical w (.endAfter w.getLast?) p)
    (hnests : NestsWithin n w) (hroom : 12 * (n + 1) + 12 ≤ room) :
    parse room ⟨w, none⟩ = .ok p := by
  have hadded := TokenStream.readable_of_added w none
  rw [Option.or_none] at hadded
  rw [← parse_congr hadded]
  exact parse_of_nestsWithin h (TokenStream.kind_endAfter _) hnests hroom

/-- What opens as many levels as there are frames is refused, whatever stands behind. -/
theorem parse_of_opens (h : Opens k w) (hk : 0 < k) (hroom : room ≤ k) :
    ∃ t, parse room ⟨w ++ us, failure⟩ = .error (.grammatical ⟨.nestedTooDeeply, t⟩) := by
  obtain ⟨next, c, h⟩ := h
  obtain ⟨u, x, rest, l, e, rfl, hleads, hl, hlevel, hstart⟩ := h.reaches (Nat.pred_lt_of_lt hk)
  obtain ⟨s, s', hs, hreads, hx⟩ :=
    Parser.State.start_of_tokens (e := x) hleads.kind_ne (rest ++ us) failure
  have hframes : Room.plain (room - 1) ≤ .resumed l :=
    Room.plain_le_resumed (Nat.le_trans (Nat.sub_le_sub_right hroom 1) hl)
  have hstatements := hleads.overflows hlevel hstart hframes hreads hx room rfl [.endOfInput]
    (by decide)
  have hprogram : (Parser.programWith (Parser.run room)).Overflows s := hstatements.bind _
  obtain ⟨m, hprogram⟩ := hprogram
  refine ⟨m.current, ?_⟩
  rw [List.append_assoc, List.cons_append, parse_of_start hs, Parser.program_eq,
    Parser.reportingOverflow_of_overflow hprogram]

/-! ### Runs of operators and of parentheses -/

/-- A run of operators in front of a literal takes no more frames than the literal. -/
theorem exists_derives_of_run {kind leaf : NodeKind} {o : Token}
    (ho : Parser.prefixed? o.kind = some kind) (hx : Parser.literal? x.kind = some leaf)
    (hn : 5 < n) (length : Nat) (next : Token) :
    ∃ t, Derives (.plain n) (List.replicate length o ++ [x]) next
      (.expression Level.unary t) := by
  induction length with
  | zero =>
      have hprimary : 0 < n - 5 := by omega
      exact ⟨_, .looser (.literal hprimary hx) (by decide)⟩
  | succ length ih =>
      obtain ⟨t, ht⟩ := ih
      exact ⟨_, .prefixed ho ht⟩

/-- Parentheses open a level each. -/
theorem opens_replicate {o : Token} (ho : o.kind = .symbol .lparen) (n : Nat) :
    Opens n (List.replicate n o) := by
  have hleads : Leads n (List.replicate n o) o (.expression Level.conditional)
      (.expression Level.conditional) := by
    induction n with
    | zero => exact .here
    | succ n ih => exact .inside (.looser (by decide)) (.inside (.group ho) ih)
  exact ⟨o, _, .inside .firstStatement (.inside .bare hleads)⟩

/-! ### Nesting only -/

/-- The room that is left on a stack with the usual limit of a thousand calls. The caller of the
parser may be deep in calls itself, and the limit may be raised by half. -/
structure UsualRoom (room : Nat) : Prop where
  /-- There are the frames for 55 levels. -/
  le_room : 684 ≤ room
  room_le : room ≤ 1500

/-- The limit counts levels of nesting and nothing else. On a stack with the usual room a program
whose tokens never open more than 55 levels is parsed, however long it and its parts are, with an
end of input or without one. Tokens that open 1500 levels are refused, whatever stands behind them
and whether the stream ends with a failure or not. -/
theorem parse_nesting (room : Nat) (husual : UsualRoom room) :
    (∀ w e p, Grammatical w e p → NestsWithin 55 w →
      (e.kind = .endOfInput → ∀ us failure, parse room ⟨w ++ e :: us, failure⟩ = .ok p) ∧
        (e = .endAfter w.getLast? → parse room ⟨w, none⟩ = .ok p)) ∧
    ∀ k w, Opens k w → 1500 ≤ k → ∀ us failure,
      ∃ error, parse room ⟨w ++ us, failure⟩ = .error (.grammatical error) ∧
        error.reason = "expression nested too deeply" ∧ error.expected = ["expression"] := by
  refine ⟨fun w e p h hnests => ⟨fun he us failure => ?_, fun he => ?_⟩,
    fun k w h hk us failure => ?_⟩
  · exact parse_of_nestsWithin h he hnests husual.le_room
  · subst he
    exact parse_of_nestsWithin_added h hnests husual.le_room
  · have hpos : 0 < k := Nat.lt_of_lt_of_le (by decide) hk
    obtain ⟨t, ht⟩ := parse_of_opens h hpos (Nat.le_trans husual.room_le hk)
    exact ⟨_, ht, rfl, rfl⟩

/-- With 900 frames a run of 5000 minus signs is parsed. A run of 5000 parentheses is refused,
although a wrong mark and a string that is not closed stand behind it. -/
theorem parse_nesting_runs :
    (∃ p, parse 900 ⟨List.replicate 5000 ⟨.symbol .minus, "-", .start⟩ ++
      [⟨.identifier, "x", .start⟩], none⟩ = .ok p) ∧
    ∃ error, parse 900 ⟨List.replicate 5000 ⟨.symbol .lparen, "(", .start⟩ ++
        [⟨.symbol .rbrace, "\x7d", .start⟩], some ⟨.openString, .start⟩⟩ =
          .error (.grammatical error) ∧
      error.reason = "expression nested too deeply" ∧ error.expected = ["expression"] := by
  have husual : UsualRoom 900 := ⟨by decide, by decide⟩
  constructor
  · obtain ⟨t, ht⟩ := exists_derives_of_run (n := 6) (o := ⟨.symbol .minus, "-", .start⟩)
      (x := ⟨.identifier, "x", .start⟩) rfl rfl (by decide) 5000
      (.endAfter (some ⟨.identifier, "x", .start⟩))
    have hend : (Token.endAfter (some ⟨.identifier, "x", .start⟩)).kind = .endOfInput :=
      TokenStream.kind_endAfter _
    have hstatement := Derives.bare (.looser ht (by decide)) (endsStatement_of_endOfInput hend)
    have hnests := (hstatement.single.nestsWithin hend).mono (by decide : 6 ≤ 55)
    exact ⟨_, ((parse_nesting 900 husual).1 _ _ _ ⟨7, _, hstatement.single, rfl⟩ hnests).2
      (by rw [List.getLast?_concat])⟩
  · exact (parse_nesting 900 husual).2 5000 _ (opens_replicate rfl 5000) (by decide) _ _

end Sigil
