import Sigil.Proofs.Grammar.Exact
import Sigil.Proofs.Print.Lines

/-!
# Printing programs

What was parsed from a text is printed, for every width of the indentation. The printed text is
parsed as well, and gives a program of the same shape, which is printed as the same text again. So
formatting a text changes nothing but its looks, and formatting it twice changes nothing more.

The stack is no exception: the printed text takes no more of it than the one it was made from, so it
is parsed wherever that one is.

## Main results

* `Derives.laid`: statements of valid tokens are printed and read back.
* `Source.program_round_trip`: the round trip of whole programs.
-/

namespace Sigil

open Source

/-! ### Statements of valid tokens -/

/-- The statements of the phrase are printed and read back. -/
def Phrase.Laid (r : Room) (w : List Token) (next : Token) : Phrase → Prop
  | statement t => PrintsStatement r (Clear w next) t.shape ∧
      (IsBare t.shape → next.kind.EndsStatement)
  | statements ts => PrintsStatements r (Clear w next) (ts.map Tree.shape)
  | _ => True

/-- Statements of valid tokens are printed and read back. -/
theorem Derives.laid {r : Room} {w : List Token} {next : Token} {phrase : Phrase}
    (h : Derives r w next phrase) (hw : Valid w) : phrase.Laid r w next := by
  induction h with
  | block hr ho _ hc ih =>
      simp only [valid_cons, valid_append] at hw
      rw [Phrase.Laid, Tree.shape_none]
      exact ⟨.block hr (ih hw.2.1), fun hbare => absurd rfl hbare.1⟩
  | @dataflow r o name next w t h ho hname ih =>
      simp only [valid_cons, valid_append] at hw
      have hfits : Fits r Level.conditional (Clear (w ++ [o, name]) next) t.shape :=
        fits_of_printed (h.printed hw.1) (by decide) clear_append
      rw [Phrase.Laid, Tree.shape_node, List.map_singleton, Tree.shape_text,
        ← String.ofList_toList (s := name.text)]
      exact ⟨.dataflow hfits (hname ▸ hw.2.2.1), fun hbare => absurd rfl hbare.2⟩
  | bare h hnext ih =>
      exact ⟨.bare (fits_of_printed (h.printed hw) (by decide) id), fun _ => hnext⟩
  | noStatement => exact .nil
  | @moreStatements r v w next t ts _ _ ih ihs =>
      obtain ⟨hv, hw⟩ := valid_append.1 hw
      obtain ⟨hfirst, hbare⟩ := ih hv
      have hheadD : (v ++ w).headD next = v.headD (w.headD next) := by
        cases v <;> rfl
      rw [Phrase.Laid, Clear, hheadD]
      exact .cons hfirst (ihs hw) hbare
  | _ => trivial

/-! ### Whole programs -/

variable {room : Nat} {text : String} {p : Node}

/-- A text that is parsed is cut up to its end, and its program is that of the tokens. -/
theorem isCut_of_parseText (h : parseText room text = .ok p) :
    ∃ pieces gap, IsCut text pieces gap [] ∧
      ProgramOf room (pieces.map Piece.token) ⟨.endOfInput, "", placeBehind pieces gap⟩ p := by
  obtain ⟨pieces, gap, rest, hcut⟩ := exists_isCut text
  have hkind : ∀ t ∈ pieces.map Piece.token, t.kind ≠ .endOfInput :=
    List.forall_mem_map.2 hcut.cuts.kind_ne
  rcases hcut.ended with rfl | ⟨fault, hfault⟩
  · refine ⟨pieces, gap, hcut, ?_⟩
    rw [parseText, hcut.ofText_of_end] at h
    exact (parse_eq_ok hkind rfl).1 h
  · rw [parseText, hcut.ofText_of_fault hfault] at h
    exact absurd h (parse_of_failure hkind)

/-- A text that is parsed is cut up to its end into valid tokens. -/
theorem tokens_of_parseText (h : parseText room text = .ok p) :
    ∃ ts e, TokenStream.ofText text = ⟨ts ++ [e], none⟩ ∧ Valid ts ∧ e.kind = .endOfInput := by
  obtain ⟨pieces, gap, hcut, -⟩ := isCut_of_parseText h
  exact ⟨_, _, hcut.ofText_of_end, List.forall_mem_map.2 hcut.cuts.isLexeme, rfl⟩

/-- A text that is read as statements is parsed as the program of them. -/
theorem parseText_of_reads (room : Nat) {clear : Prop} {σs : List Shape}
    (h : Yields (StatementsOf (.plain (room - 1)) clear σs) text.toList) :
    ∃ us mark, parseText room text = .ok ⟨.program, .none, us, mark⟩ ∧ us.map Tree.shape = σs := by
  obtain ⟨ts, hts, us, hshape, -, hd⟩ := h .start [] endsWord_nil
  obtain ⟨e, he, htext⟩ := hts.ofText_eq
  refine ⟨us, ⟨.start, e.position.offset⟩, ?_, hshape⟩
  rw [parseText, htext, parse_eq_ok hts.kind_ne he]
  exact ⟨us, hd e (endsStatement_of_endOfInput he), rfl⟩

/-- What is parsed from a text is printed, for every width. The printed text is parsed again, with
no more room on the stack, to a program of the same shape, and this program is printed as the same
text. -/
theorem Source.program_round_trip (room : Nat) (text : String) (p : Node)
    (h : parseText room text = .ok p) (width : Int) :
    ∃ out q, Source.program width p = .ok out ∧ parseText room out = .ok q ∧ q.shape = p.shape ∧
      Source.program width q = .ok out := by
  obtain ⟨ts, e, htext, hvalid, he⟩ := tokens_of_parseText h
  rw [parseText, htext, parse_eq_ok (fun t ht => (hvalid t ht).kind_ne) he] at h
  obtain ⟨statements, hd, rfl⟩ := h
  obtain ⟨ls, -, hprint, hreads⟩ := hd.laid hvalid width 0
  have hprogram : ∀ (us : List Node) mark, us.map Tree.shape = statements.map Tree.shape →
      Source.program width ⟨.program, .none, us, mark⟩ = .ok (Text.joined "\n" ls) := by
    intro us mark hus
    simp only [Source.program, Sheet.empty, hprint us hus]
    rfl
  obtain ⟨us, mark, hparsed, hshape⟩ := parseText_of_reads room hreads
  refine ⟨_, _, hprogram statements _ rfl, hparsed, ?_, hprogram us mark hshape⟩
  rw [Tree.shape_none, Tree.shape_none, hshape]

/-- The round trip of `((a) + b)`, where no parentheses are needed, with 900 frames. -/
theorem Source.program_round_trip_sum :
    ∃ p, parseText 900 "((a) + b)" = .ok p ∧ ∃ out q, Source.program 4 p = .ok out ∧
      parseText 900 out = .ok q ∧ q.shape = p.shape ∧ Source.program 4 q = .ok out := by
  have ha : IsLexeme .identifier ['a'] := .letter (by decide)
  have hb : IsLexeme .identifier ['b'] := .letter (by decide)
  -- a frame is taken by the statement, and one more by each primary with parentheses
  let r : Room := .plain (900 - 1)
  have hsum : Written (.plain (r.primary - 1)) (.expression Level.additive _) "(a) + b".toList :=
    .operation (s := .plus)
      (.looser (.group (.looser (.name (by decide) ha) (by decide))) (by decide)) rfl
      (.looser (.name (by decide) hb) (by decide))
  have hgroup : Written r (.expression Level.conditional _) "((a) + b)".toList :=
    .looser (.group (.looser hsum (by decide))) (by decide)
  have hread := bare_reads hgroup (fun h : False => h.elim) (isBare_of_level? rfl)
  obtain ⟨us, mark, hparsed, -⟩ := parseText_of_reads 900
    (hread.mono fun _ => StatementOf.single)
  exact ⟨_, hparsed, Source.program_round_trip 900 _ _ hparsed 4⟩

end Sigil
