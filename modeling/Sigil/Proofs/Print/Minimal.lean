import Sigil.Proofs.Print.Kept
import Sigil.Proofs.Print.Program

/-!
# The fewest tokens

The printer adds nothing to the tokens of a program. What it leaves out is redundant: parentheses
that only group, commas behind last items, and colons in front of steps that are left out. Each of
these can be left out of the tokens one after the other, and the program is the same all the way.

The printed text depends on the shape of a program only. So where the printer puts parentheses every
way to write the program has them as well, and none has fewer.

## Main definitions

* `Parses`: the tokens of programs of a shape.
* `parentheses`: how many parentheses there are.

## Main results

* `Source.program_simplifies`: the tokens of a program are simplified to those of its printed text.
* `Source.program_minimal`: the printed text has no words but those of the program, and no way to
  write the program has fewer parentheses.
-/

namespace Sigil

open Source

/-- The tokens, the end of the input included, are parsed as a program of the shape, with room for
`room` calls on the stack. -/
def Parses (room : Nat) (σ : Shape) (ts : List Token) : Prop :=
  ∃ p, parse room ⟨ts, none⟩ = .ok p ∧ p.shape = σ

/-- How many parentheses there are among the tokens, opening and closing ones. -/
def parentheses (ts : List Token) : Nat :=
  ts.countP fun t => t.kind = .symbol .lparen ∨ t.kind = .symbol .rparen

/-- Where no word is added, no parentheses are. -/
theorem parentheses_le {ts us : List Token} (h : (words ts).Sublist (words us)) :
    parentheses ts ≤ parentheses us := by
  let isParenthesis : TokenKind → Bool := fun kind =>
    kind = .symbol .lparen ∨ kind = .symbol .rparen
  have hcount (vs : List Token) :
      (words vs).countP (fun word => isParenthesis word.1) = parentheses vs :=
    countP_words (by decide) (by decide)
  rw [← hcount, ← hcount]
  exact h.countP_le

/-- Statements in front of the end of the input are parsed as the program of them. -/
theorem StatementsOf.parses {room : Nat} {clear : Prop} {σs : List Shape} {w : List Token}
    {e : Token} (h : StatementsOf (.plain (room - 1)) clear σs w) (he : e.kind = .endOfInput) :
    Parses room ⟨.program, .none, σs, ()⟩ (w ++ [e]) := by
  obtain ⟨us, rfl, -, hd⟩ := h
  have hd := hd e (endsStatement_of_endOfInput he)
  exact ⟨_, (parse_eq_ok hd.kind_ne he).2 ⟨us, hd, rfl⟩, Tree.shape_none ..⟩

/-- The end of a text is the same word for all texts. -/
theorem words_of_last {text : String} {ts : List Token} {e : Token}
    (h : TokenStream.ofText text = ⟨ts ++ [e], none⟩) : words [e] = [(.endOfInput, "")] := by
  obtain ⟨pieces, gap, rest, hcut⟩ := exists_isCut text
  rcases hcut.ended with rfl | ⟨fault, hfault⟩
  · rw [hcut.ofText_of_end] at h
    obtain ⟨-, hlast⟩ := List.append_inj' (congrArg TokenStream.tokens h) rfl
    rw [← hlast]
    rfl
  · rw [hcut.ofText_of_fault hfault] at h
    cases congrArg TokenStream.failure h

/-- All programs of a shape are printed as the same text, and the tokens of each of them are
simplified to those of the text. -/
theorem Source.program_simplifies {room : Nat} {text : String} {p : Node}
    (h : parseText room text = .ok p) (width : Int) : ∃ out ts ts', (∀ q : Node, q.shape = p.shape →
      Source.program width q = .ok out) ∧ TokenStream.ofText text = ⟨ts, none⟩ ∧
        TokenStream.ofText out = ⟨ts', none⟩ ∧ Tidies (Parses room p.shape) ts ts' := by
  obtain ⟨ts, e, htext, hvalid, he⟩ := tokens_of_parseText h
  rw [parseText, htext, parse_eq_ok (fun t ht => (hvalid t ht).kind_ne) he] at h
  obtain ⟨us, hd, rfl⟩ := h
  obtain ⟨ls, -, hprint, hreads⟩ := hd.laid hvalid width 0
  obtain ⟨ls', v, -, hlays, hspells, htidies⟩ := hd.kept hvalid width 0
  -- Both descriptions of what is printed are about the same lines.
  obtain rfl : ls' = ls := by
    have hsame := (hlays []).symm.trans (hprint us rfl [])
    simpa using hsame
  obtain ⟨vs, hvs, hstatements⟩ := hreads .start [] endsWord_nil
  obtain ⟨vs', hvs', hwords⟩ := hspells .start [] endsWord_nil
  obtain ⟨e', he', hout⟩ := hvs.ofText_eq
  obtain ⟨e'', -, hout'⟩ := hvs'.ofText_eq
  obtain ⟨rfl, -⟩ := List.append_inj' (congrArg TokenStream.tokens (hout'.symm.trans hout)) rfl
  refine ⟨Text.joined "\n" ls', _, _, fun q hq => ?_, htext, hout, ?_⟩
  · rw [Tree.shape_none] at hq
    obtain ⟨us', mark, rfl, hus'⟩ := Tree.of_shape_none hq
    simp only [Source.program, Sheet.empty, hprint us' hus']
    rfl
  · rw [Tree.shape_none]
    refine (htidies.before [e] fun _ hx => hx.parses he).step (hstatements.parses he') (.inl ?_)
    rw [words_append, words_append, hwords, words_of_last hout, words_of_last htext]

/-- The printed text of a program has no words but those of the text that the program was parsed
from, in the same order. Only parentheses around expressions, commas behind last items and colons in
front of steps that are left out are missing, and the tokens are parsed as a program of the same
shape before and after each of them is left out, with no more room on the stack. No text of a
program of this shape has fewer parentheses than the printed one, however much room it takes. -/
theorem Source.program_minimal (room : Nat) (text : String) (p : Node)
    (h : parseText room text = .ok p) (width : Int) :
    ∃ out ts ts', Source.program width p = .ok out ∧ TokenStream.ofText text = ⟨ts, none⟩ ∧
      TokenStream.ofText out = ⟨ts', none⟩ ∧ (words ts').Sublist (words ts) ∧
        Tidies (Parses room p.shape) ts ts' ∧
          ∀ room' text' q us, parseText room' text' = .ok q → q.shape = p.shape →
            TokenStream.ofText text' = ⟨us, none⟩ → parentheses ts' ≤ parentheses us := by
  obtain ⟨out, ts, ts', hprint, htext, hout, htidies⟩ := Source.program_simplifies h width
  refine ⟨out, ts, ts', hprint p rfl, htext, hout, htidies.sublist, htidies, ?_⟩
  intro room' text' q us hq hshape hus
  obtain ⟨out', us', vs, hprint', hus', hout', htidies'⟩ :=
    Source.program_simplifies hq width
  obtain rfl : out' = out := Except.ok.inj ((hprint' q rfl).symm.trans (hprint q hshape))
  obtain rfl : us' = us := congrArg TokenStream.tokens (hus'.symm.trans hus)
  obtain rfl : vs = ts' := congrArg TokenStream.tokens (hout'.symm.trans hout)
  exact parentheses_le htidies'.sublist

/-- Subtraction associates to the left, so of `(a) - (b - c)` only the second parentheses are
needed. -/
theorem Source.program_minimal_difference :
    ∃ p ts ts', parseText 900 "(a) - (b - c)" = .ok p ∧ Source.program 4 p = .ok "a - (b - c)" ∧
      TokenStream.ofText "(a) - (b - c)" = ⟨ts, none⟩ ∧
        TokenStream.ofText "a - (b - c)" = ⟨ts', none⟩ ∧ (words ts').Sublist (words ts) ∧
          Tidies (Parses 900 p.shape) ts ts' ∧
            ∀ room' text' q us, parseText room' text' = .ok q → q.shape = p.shape →
              TokenStream.ofText text' = ⟨us, none⟩ → parentheses ts' ≤ parentheses us := by
  let name (text : String) : Node := ⟨.identifier, .text text, [], default⟩
  let minus (a b : Node) : Node := ⟨.additive, .text "-", [a, b], default⟩
  let t := minus (name "a") (minus (name "b") (name "c"))
  have ha : IsLexeme .identifier ['a'] := .letter (by decide)
  have hb : IsLexeme .identifier ['b'] := .letter (by decide)
  have hc : IsLexeme .identifier ['c'] := .letter (by decide)
  -- a frame is taken by the statement, and one more by the right operand
  let r : Room := .plain (900 - 1)
  let right : Room := .plain (r.expression - 1)
  have hfirst : Written r (.expression Level.primary (name "a").shape) "(a)".toList :=
    .group (.looser (.name (by decide) ha) (by decide))
  have hinner : Written (.plain (right.primary - 1))
      (.expression Level.additive (minus (name "b") (name "c")).shape) "b - c".toList :=
    .operation (s := .minus) (.looser (.name (by decide) hb) (by decide)) rfl
      (.looser (.name (by decide) hc) (by decide))
  have hsecond : Written right (.expression Level.primary (minus (name "b") (name "c")).shape)
      "(b - c)".toList :=
    .group (.looser hinner (by decide))
  have hall : Written r (.expression Level.conditional t.shape) "(a) - (b - c)".toList :=
    .looser (.operation (s := .minus) (.looser hfirst (by decide)) rfl
      (.looser hsecond (by decide))) (by decide)
  have hread := bare_reads hall (fun h : False => h.elim) (isBare_of_level? rfl)
  obtain ⟨us, mark, hparsed, hus⟩ := parseText_of_reads 900
    (hread.mono fun _ => StatementOf.single)
  obtain ⟨out, ts, ts', hprint, hminimal⟩ := Source.program_minimal _ _ _ hparsed 4
  obtain ⟨out', -, -, hprint', -⟩ := Source.program_simplifies hparsed 4
  have hshape : Tree.shape ⟨.program, .none, [t], default⟩ =
      Tree.shape ⟨.program, .none, us, mark⟩ := by
    rw [Tree.shape_none, Tree.shape_none, hus]
    rfl
  have hprinted : Source.program 4 ⟨.program, .none, [t], default⟩ = .ok "a - (b - c)" := by rfl
  obtain rfl : out' = "a - (b - c)" := Except.ok.inj ((hprint' _ hshape).symm.trans hprinted)
  obtain rfl : out = "a - (b - c)" := Except.ok.inj (hprint.symm.trans (hprint' _ rfl))
  exact ⟨_, ts, ts', hparsed, hprint, hminimal⟩

end Sigil
