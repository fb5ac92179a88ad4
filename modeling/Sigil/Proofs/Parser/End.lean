import Sigil.Proofs.Parser.Layout
import Sigil.Proofs.Parser.Session
import Sigil.Proofs.Token.Place

/-!
# The end of input

A parser needs no end of input among its tokens: it makes one behind the last token, at the place
that it computes from the newlines in the text of that token. And it reads nothing behind an end of
input that it is given.

The end of input of a text stands behind the filler at the end of the text. Without such filler the
two are the same token, and so nothing that a parser does tells the tokens of the text with their
end of input from those without it. With filler the parser does the same up to the end, and its
results differ in the place of the end only: in where the program stops, or in the token at which
parsing fails there. No node of a statement is affected, since none of them is marked with the end.

## Main definitions

* `SameButEnd`: results of parsing that differ in the end of input.

## Main results

* `Token.finish_eq`: the place behind a token, computed from its text.
* `endAfter_of_isCut`: where the end of input is the one that is made.
* `parse_sameButEnd`: what another end of input changes.
* `end_exact`: missing ends of input, and tokens behind them.
-/

namespace Sigil

/-! ### The place behind a token -/

theorem lineStart_concat {c : Char} (hc : c ≠ '\n') (cs : List Char) :
    lineStart (cs ++ [c]) = lineStart cs := by
  have hlast : lastLine (cs ++ [c]) = lastLine cs + 1 := by simp [lastLine, hc]
  rw [lineStart, lineStart, hlast, List.length_append, List.length_singleton]
  omega

/-- The place behind some characters, computed from their number and their newlines. -/
theorem Position.after_eq (p : Position) (cs : List Char) :
    p.after cs = ⟨p.offset + cs.length, p.line + cs.count '\n',
      if cs.count '\n' = 0 then p.col + cs.length else cs.length - lineStart cs + 1⟩ := by
  induction cs using List.reverseRecOn with
  | nil => simp
  | append_singleton cs c ih =>
      rw [after_append, ih, after_cons, after_nil]
      by_cases hc : c = '\n'
      · subst hc
        have hstart := lineStart_append (b := []) (by simp) cs
        simp [next, hstart, Int.add_assoc]
      · have hcount : (cs ++ [c]).count '\n' = cs.count '\n' := by simp [hc]
        have hlength : ((cs ++ [c]).length : Int) = cs.length + 1 := by simp
        simp only [next, hc, if_false, lineStart_concat hc, hcount, hlength, mk.injEq, true_and]
        refine ⟨by omega, ?_⟩
        split <;> omega

/-- The index of the last newline, or -1 if there is none. -/
def lastNewline (cs : List Char) : Int :=
  lineStart cs - 1

/-- The place behind a token, computed from its text. -/
theorem Token.finish_eq (t : Token) :
    t.finish = ⟨t.stop, t.position.line + t.text.toList.count '\n',
      if t.text.toList.count '\n' = 0 then t.position.col + t.text.length
      else t.text.length - lastNewline t.text.toList⟩ := by
  simp only [finish, Position.after_eq, stop, String.length_toList, lastNewline]
  by_cases hcount : t.text.toList.count '\n' = 0
  · simp only [hcount, if_true]
  · simp only [hcount, if_false, Position.mk.injEq, true_and]
    omega

/-- Behind a string with a newline in it, the column counts from the newline. -/
example : (Token.mk .string "'a\nb'" ⟨3, 1, 4⟩).finish = ⟨8, 2, 3⟩ := by
  decide +kernel

/-! ### The end of a text -/

section

variable {text : String} {pieces : List Piece} {gap : List Char}
  {ts : List Token} {e : Token}

/-- The end of input of a text stands behind the one that is made behind the last token, with the
filler at the end of the text between them. -/
theorem IsCut.placeBehind_eq (h : IsCut text pieces gap []) :
    placeBehind pieces gap =
      (Token.endAfter (pieces.map Piece.token).getLast?).position.after gap := by
  rw [placeBehind, Position.after_append, List.getLast?_map]
  rcases hlast : pieces.getLast? with _ | piece
  · obtain rfl := List.getLast?_eq_none_iff.1 hlast
    rfl
  · exact congrArg (fun p => p.after gap) (h.cuts.position_of_getLast hlast)

/-- A text that is cut up to its end has tokens and then an end of input behind its last filler. -/
theorem exists_isCut_of_ofText (h : TokenStream.ofText text = ⟨ts ++ [e], none⟩) :
    ∃ pieces gap, IsCut text pieces gap [] ∧ ts = pieces.map Piece.token ∧
      e = .endAt (placeBehind pieces gap) := by
  obtain ⟨pieces, gap, rest, hcut⟩ := exists_isCut text
  obtain rfl := hcut.rest_eq_nil (by rw [h])
  have heq := h.symm.trans hcut.ofText_of_end
  obtain ⟨hts, he⟩ := List.append_singleton_inj.1 (TokenStream.mk.inj heq).1
  exact ⟨pieces, gap, hcut, hts, he⟩

/-- In a text that is empty or stops with its last token, the end of input is the one that is
made. -/
theorem endAfter_of_ofText (h : TokenStream.ofText text = ⟨ts ++ [e], none⟩)
    (hend : text = "" ∨ ∃ t, ts.getLast? = some t ∧ t.stop = text.length) :
    Token.endAfter ts.getLast? = e := by
  obtain ⟨pieces, gap, hcut, rfl, rfl⟩ := exists_isCut_of_ofText h
  have hplace := hcut.placeBehind_eq
  suffices hgap : gap = [] by
    rw [hplace, hgap, Position.after_nil]
    cases (pieces.map Piece.token).getLast? <;> rfl
  have hchars := hcut.toList_eq
  rcases hend with rfl | ⟨t, ht, hstop⟩
  · exact (List.append_eq_nil_iff.1 (List.append_eq_nil_iff.1 hchars.symm).2).1
  · -- Otherwise the filler is as long as the way from the last token to the end of the text.
    have hoffset := congrArg Position.offset hplace
    rw [ht, placeBehind, Position.offset_after, Position.offset_after, ← List.append_nil gap,
      ← hchars, String.length_toList, ← hstop] at hoffset
    have hstart : Position.start.offset = 0 := rfl
    have hfinish : (Token.endAfter (some t)).position.offset = t.stop := by
      rw [Token.endAfter, Token.endAt, Token.finish_eq]
    rw [hstart, hfinish, List.append_nil] at hoffset
    exact List.length_eq_zero_iff.1 (by omega)

end

/-! ### Results that differ in the end of input -/

/-- Two results of parsing differ in the end of input: they are programs with the same statements,
each up to its end of input, or the same failure in front of the end, or failures with the same
fault, each at its end of input. -/
inductive SameButEnd (e e' : Token) : Except ParseFailure Node → Except ParseFailure Node → Prop
  | program {ts : List Node} :
      SameButEnd e e' (.ok ⟨.program, .none, ts, ⟨.start, e.position.offset⟩⟩)
        (.ok ⟨.program, .none, ts, ⟨.start, e'.position.offset⟩⟩)
  | before {failure : ParseError} (h : failure.found.kind ≠ .endOfInput) :
      SameButEnd e e' (.error (.grammatical failure)) (.error (.grammatical failure))
  | atEnd {fault : ParseFault} :
      SameButEnd e e' (.error (.grammatical ⟨fault, e⟩)) (.error (.grammatical ⟨fault, e'⟩))

section

variable {room : Nat} {ts w : List Token} {e e' : Token} {failure : ParseError}

/-- A failure in a list of tokens that ends with the end of input is at one of the tokens. -/
theorem FailsBehind.tokens_eq (h : FailsBehind room ⟨ts ++ [e], none⟩ w failure)
    (he : e.kind = .endOfInput) : ∃ us, ts ++ [e] = w ++ failure.found :: us := by
  obtain ⟨hfinds, s, s', -, hreads, -⟩ := h
  rcases hfinds with ⟨us, hus⟩ | ⟨hstream, -⟩
  · exact ⟨us, hus⟩
  · obtain ⟨rfl, -⟩ := TokenStream.mk.inj hstream
    exact absurd he (hreads.kind_ne e (by simp))

/-- With another end of input behind the same tokens the result differs in the end of input. -/
theorem parse_sameButEnd (hts : ∀ t ∈ ts, t.kind ≠ .endOfInput) (he : e.kind = .endOfInput)
    (he' : e'.kind = .endOfInput) :
    SameButEnd e e' (parse room ⟨ts ++ [e], none⟩) (parse room ⟨ts ++ [e'], none⟩) := by
  have hkinds : (⟨ts ++ [e], none⟩ : TokenStream).SameKinds ⟨ts ++ [e'], none⟩ :=
    ⟨by simp [he, he'], rfl⟩
  cases hkinds.alike.parsedAlike room with
  | accepted ha hb =>
      obtain ⟨statements, hd, rfl⟩ := (parse_eq_ok hts he).1 ha
      have hd' := hd.standsAnywhere e' (endsStatement_of_endOfInput he')
      have hb' := (parse_eq_ok hts he').2 ⟨statements, hd', rfl⟩
      rw [ha, hb']
      exact .program
  | @refused w x f f' ha hb hindex hfault =>
      obtain ⟨us, hus⟩ := ha.tokens_eq he
      obtain ⟨vs, hvs⟩ := hb.tokens_eq he'
      obtain ⟨fault, found⟩ := f
      obtain ⟨fault', found'⟩ := f'
      obtain rfl : fault = fault' := hfault
      rw [ha.parse_eq, hb.parse_eq]
      rcases List.eq_nil_or_concat us with rfl | ⟨us, u, rfl⟩
      · obtain ⟨rfl, rfl⟩ := List.append_singleton_inj.1 hus
        obtain ⟨-, heq⟩ := List.append_inj hvs hindex
        obtain ⟨rfl, -⟩ := List.cons.inj heq
        exact .atEnd
      · rw [List.concat_eq_append, ← List.cons_append, ← List.append_assoc] at hus
        obtain ⟨hw, -⟩ := List.append_singleton_inj.1 hus
        have hlonger : (w ++ [found]).length ≤ ts.length := by simp [hw]
        have hx : ts.take (x.length + 1) = x ++ [found'] := by
          have htake := congrArg (List.take (x.length + 1)) hvs
          rwa [List.take_append_of_le_length (by simpa [← hindex] using hlonger),
            List.take_length_add_append] at htake
        rw [hw, ← hindex, List.take_length_add_append] at hx
        obtain ⟨-, rfl⟩ := List.append_singleton_inj.1 hx
        exact .before (hts found (by simp [hw]))
  | uncut ha => cases failure_of_parse ha

end

/-- An end of input may be missing or come early. A missing one is made behind the last token, at a
place that is computed from the newlines in its text, and in any list of tokens what stands behind
an end of input changes nothing. If a text is empty or stops with its last token, the end of input
that is made is that of the text, so without that a parser makes the same replies and gives the same
program or failure, places included. For any other text, the results with and without its end of
input differ in the end of input only. -/
theorem end_exact (room : Nat) :
    (∀ t : Token, Token.endAfter (some t) =
      .endAt ⟨t.stop, t.position.line + t.text.toList.count '\n',
        if t.text.toList.count '\n' = 0 then t.position.col + t.text.length
        else t.text.length - lastNewline t.text.toList⟩) ∧
    (∀ ts, parse room ⟨ts, none⟩ = parse room ⟨ts ++ [.endAfter ts.getLast?], none⟩ ∧
      ∀ calls, Parser.replies room calls ⟨ts, none⟩ =
        Parser.replies room calls ⟨ts ++ [.endAfter ts.getLast?], none⟩) ∧
    (∀ ts e us, e.kind = .endOfInput →
      parse room ⟨ts ++ e :: us, none⟩ = parse room ⟨ts ++ [e], none⟩ ∧
        ∀ calls, Parser.replies room calls ⟨ts ++ e :: us, none⟩ =
          Parser.replies room calls ⟨ts ++ [e], none⟩) ∧
    ∀ text ts e, TokenStream.ofText text = ⟨ts ++ [e], none⟩ →
      SameButEnd e (.endAfter ts.getLast?) (parseText room text) (parse room ⟨ts, none⟩) ∧
        ((text = "" ∨ ∃ t : Token, ts.getLast? = some t ∧ t.stop = text.length) →
          Token.endAfter ts.getLast? = e ∧ parse room ⟨ts, none⟩ = parseText room text ∧
            ∀ calls, Parser.replies room calls ⟨ts, none⟩ =
              Parser.replies room calls (.ofText text)) := by
  have hadded (ts : List Token) : TokenStream.readable none ⟨ts, none⟩ =
      TokenStream.readable none ⟨ts ++ [.endAfter ts.getLast?], none⟩ := by
    have hlast := TokenStream.readable_of_added ts none
    rw [Option.or_none] at hlast
    exact hlast.symm
  refine ⟨fun t => by rw [Token.endAfter, Token.finish_eq], fun ts => ?_, fun ts e us he => ?_,
    fun text ts e h => ⟨?_, fun hend => ?_⟩⟩
  · exact ⟨parse_congr (hadded ts), fun calls => Parser.replies_congr calls (hadded ts)⟩
  · have hreadable : TokenStream.readable none ⟨ts ++ e :: us, none⟩ =
        TokenStream.readable none ⟨ts ++ [e], none⟩ := TokenStream.readable_of_end he none
    exact ⟨parse_congr hreadable, fun calls => Parser.replies_congr calls hreadable⟩
  · obtain ⟨pieces, gap, hcut, rfl, rfl⟩ := exists_isCut_of_ofText h
    have he : (Token.endAt (placeBehind pieces gap)).kind = .endOfInput := rfl
    rw [parseText, h, parse_congr (hadded (pieces.map Piece.token))]
    exact parse_sameButEnd (List.forall_mem_map.2 hcut.cuts.kind_ne) he
      (TokenStream.kind_endAfter _)
  · have he := endAfter_of_ofText h hend
    have hreadable := hadded ts
    rw [he, ← h] at hreadable
    exact ⟨he, parse_congr hreadable, fun calls => Parser.replies_congr calls hreadable⟩

/-- The end of input behind a string with a newline in it stands on the second line, whether it is
that of the text or made by the parser. -/
theorem end_exact_string :
    TokenStream.ofText "'a\nb'" =
      ⟨[⟨.string, "'a\nb'", ⟨0, 1, 1⟩⟩] ++ [⟨.endOfInput, "", ⟨5, 2, 3⟩⟩], none⟩ ∧
    parse 900 ⟨[⟨.string, "'a\nb'", ⟨0, 1, 1⟩⟩], none⟩ = parseText 900 "'a\nb'" := by
  have htext : TokenStream.ofText "'a\nb'" =
      ⟨[⟨.string, "'a\nb'", ⟨0, 1, 1⟩⟩] ++ [⟨.endOfInput, "", ⟨5, 2, 3⟩⟩], none⟩ := by
    decide +kernel
  obtain ⟨-, hexact⟩ := (end_exact 900).2.2.2 _ _ _ htext
  exact ⟨htext, (hexact (.inr ⟨_, rfl, by decide⟩)).2.1⟩

end Sigil
