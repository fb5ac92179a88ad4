import Sigil.Proofs.Grammar.Standalone
import Sigil.Proofs.Token.Excerpt
import Sigil.Proofs.Tree.Extent

/-!
# The text of a node

The text that the mark of a node covers is a statement of its own, of the shape of the node, if the
node starts with a mark or a token of its own. A node that starts with its first part is marked from
the start of the node of that part, and parentheses around the part belong to no node. Its end is
that of the last token, parentheses included. So `(a) + b` is marked as `a) + b`: the tokens of the
node start with parentheses in front of its mark, and the text that the mark covers is refused at
the parenthesis that closes the last of them.

## Main definitions

* `Parse.WantsExpression`: a rule that finds no expression at all.
* `Tree.WrittenFrom`: from where on the text up to the end of a node is the node.

## Main results

* `parse_of_not_start`: a token behind statements that starts no statement.
* `parseText_written`: the text of every node.
-/

namespace Sigil

open Parse

/-! ### Tokens that start no statement -/

/-- The rule asks for an expression in place of the current token. -/
def Parse.WantsExpression {α : Type} (p : Parse α) (s : Parser.State) : Prop :=
  p s = .error (.grammatical ⟨.unexpected [.expression], s.current⟩) s

namespace Parser

variable {n : Nat} {s s' : State}

theorem primary_of_not_start (call : Routine → Parse Node) (h : s.current.kind ∉ primaryStarts) :
    (primary call).WantsExpression s := by
  simp only [WantsExpression, primary, bind, EStateM.bind, current]
  cases hkind : s.current.kind with
  | symbol symbol => cases symbol <;> first
      | rfl
      | exact absurd (by simp [hkind, primaryStarts]) h
  | endOfInput | other => rfl
  | _ => exact absurd (by simp [hkind, primaryStarts]) h

/-- At a token that starts no statement the routine for statements gets to the one for primaries,
through seven frames, and no further. -/
theorem statement_of_not_start (hn : 6 < n) (h : ¬ s.current.kind.StartsExpression)
    (hbrace : s.current.kind ≠ .symbol .lbrace) : (run n .statement).WantsExpression s := by
  obtain ⟨n, rfl⟩ : ∃ m, n = m + 7 := ⟨n - 7, by omega⟩
  have hprefixed : prefixed? s.current.kind = none :=
    Option.not_isSome_iff_eq_none.1 fun hsome => h (.inr (.inl hsome))
  have hiter : s.current.kind ≠ .symbol .iter := fun hiter => h (.inr (.inr hiter))
  have hprimary : (run (n + 1) .primary).WantsExpression s :=
    primary_of_not_start (run n) fun hmem => h (.inl hmem)
  have hsuffixed : (run (n + 2) (.suffixed none)).WantsExpression s := bind_of_error hprimary
  have hoperand : (run (n + 3) .operand).WantsExpression s :=
    (operand_of_ne_iter hiter).trans hsuffixed
  have hunary : (run (n + 4) .unary).WantsExpression s := (unary_of_none hprefixed).trans hoperand
  have hbinary : (run (n + 5) (.binary Level.logicalOr none)).WantsExpression s :=
    bind_of_error hunary
  have hexpression : (run (n + 6) (.expression none)).WantsExpression s := bind_of_error hbinary
  have hcheck : check [.symbol .lbrace] s = .ok false s := by simpa [check] using hbrace
  exact (bind_of_ok hcheck).trans (bind_of_error hexpression)

/-- Statements are collected up to a token that neither starts one nor ends them. -/
theorem collect_of_not_start {w : List Token} {ts : List Node} (stop : List TokenKind) (hn : 6 < n)
    (h : Derives (.plain (n - 1)) w s'.current (.statements ts)) (hreads : s.Reads w s')
    (hstop : ∀ kind ∈ stop, ¬ kind.StartsExpression ∧ kind ≠ .symbol .lbrace)
    (hkind : s'.current.kind ∉ stop) (hstart : ¬ s'.current.kind.StartsExpression)
    (hbrace : s'.current.kind ≠ .symbol .lbrace) :
    collect (do if ← check stop then return none else some <$> run n .statement) s =
      .error (.grammatical ⟨.unexpected [.expression], s'.current⟩) s' := by
  induction ts generalizing w s with
  | nil =>
      cases h
      obtain rfl := State.reads_nil.1 hreads
      have hcheck : check stop s' = .ok false s' := by simpa [check] using hkind
      have hstep : (do if ← check stop then return none else some <$> run n .statement)
          s' = .error (.grammatical ⟨.unexpected [.expression], s'.current⟩) s' := by
        rw [bind_of_ok hcheck]
        exact map_of_error (statement_of_not_start hn hstart hbrace)
      rw [collect, hstep]
  | cons t ts ih =>
      cases h with
      | @moreStatements _ v w _ _ _ h hs =>
          obtain ⟨m, hv, hw⟩ := State.reads_append.1 hreads
          rw [← hw.current_eq] at h
          have hcheck := check_stop_of_start hstop (h.current_of_statement hv)
          have hstep : (do if ← check stop then return none else some <$> run n .statement)
              s = .ok (some t) m := by
            rw [bind_of_ok hcheck]
            exact map_of_ok (h.parsed n rfl s m hv rfl)
          rw [collect_of_some hstep (hv.pending_lt h.ne_nil_of_statement)]
          exact map_of_error (ih hs hw)

end Parser

/-- A token behind statements that starts no statement does not fit. -/
theorem parse_of_not_start {room : Nat} {w us : List Token} {c : Token} {ts : List Node}
    {failure : Option LexError} (hroom : 6 < room)
    (h : Derives (.plain (room - 1)) w c (.statements ts)) (hstart : ¬ c.kind.StartsExpression)
    (hbrace : c.kind ≠ .symbol .lbrace) (hend : c.kind ≠ .endOfInput) :
    parse room ⟨w ++ c :: us, failure⟩ =
      .error (.grammatical ⟨.unexpected [.expression], c⟩) := by
  obtain ⟨s, s', hs, hreads, rfl⟩ := Parser.State.start_of_tokens (e := c) h.kind_ne us failure
  have hcollect := Parser.collect_of_not_start [.endOfInput] hroom h hreads (by decide)
    (by simpa using hend) hstart hbrace
  have hprogram : Parser.program room s =
      .error (.grammatical ⟨.unexpected [.expression], s'.current⟩) s' := by
    rw [Parser.program_eq, reportingOverflow, Parser.programWith, bind_of_error hcollect]
  rw [parse_of_start hs, hprogram]

/-! ### The tokens of a text in order -/

section

variable {room : Nat} {text : String} {pieces : List Piece} {gap rest : List Char} {f o : Token}
  {g v w : List Token}

/-- The tokens of a text start one behind the other. -/
theorem IsCut.pairwise_offset (h : IsCut text pieces gap []) :
    (TokenStream.ofText text).tokens.Pairwise fun t u =>
      t.position.offset < u.position.offset := by
  have hlt : ∀ t ∈ pieces.map Piece.token, t.position.offset < t.stop :=
    List.forall_mem_map.2 fun piece hpiece => lt_stop_of_isLexeme (h.cuts.isLexeme piece hpiece)
  have horder := h.cuts.inOrder
  have hend : (Position.start.after (pieces.flatMap Piece.chars)).offset ≤
      (placeBehind pieces gap).offset := by
    rw [placeBehind, Position.after_append, Position.offset_after _ gap]
    exact Int.le_add_of_nonneg_right (Int.natCast_nonneg _)
  rw [h.ofText_of_end]
  refine List.pairwise_append.2 ⟨?_, List.pairwise_singleton _ _, fun t ht u hu => ?_⟩
  · refine (List.pairwise_map.1 horder.pairwise).imp_of_mem fun {t u} ht _ hle => ?_
    exact Int.lt_of_lt_of_le (hlt t ht) hle
  · obtain rfl := List.mem_singleton.1 hu
    obtain ⟨-, -, hle⟩ := horder.bounds _ (List.mem_map_of_mem ht)
    exact Int.lt_of_lt_of_le (hlt t ht) (Int.le_trans hle hend)

/-- Of tokens that start one behind the other, those between two of them stand between the two. -/
theorem mem_of_between (h : (v ++ (f :: g ++ o :: w)).Pairwise fun t u =>
      t.position.offset < u.position.offset) {t : Token} (ht : t ∈ v ++ (f :: g ++ o :: w))
    (hle : f.position.offset ≤ t.position.offset) (hlt : t.position.offset < o.position.offset) :
    t ∈ f :: g := by
  obtain ⟨-, hbehind, hfront⟩ := List.pairwise_append.1 h
  obtain ⟨-, hlast, -⟩ := List.pairwise_append.1 hbehind
  rcases List.mem_append.1 ht with ht | ht
  · exact absurd (hfront t ht f (by simp)) (by omega)
  rcases List.mem_append.1 ht with ht | ht
  · exact ht
  rcases List.mem_cons.1 ht with rfl | ht
  · omega
  · exact absurd ((List.pairwise_cons.1 hlast).1 t ht) (by omega)

/-! ### Parsing an excerpt -/

theorem TokenStream.shift_sameWords (x : List Char) (s : TokenStream) :
    s.SameWords (s.shift x) := by
  constructor
  · rw [TokenStream.shift, List.map_map]
    rfl
  · rw [TokenStream.shift, Option.map_map]
    rfl

/-- An excerpt from the start of one token up to the end of another is parsed as the tokens between
them. -/
theorem IsCut.parseText_excerpt (room : Nat) (h : IsCut text pieces gap rest)
    (hv : o :: v <:+: pieces.map Piece.token) : ∃ e, e.kind = .endOfInput ∧
      SameButPlaces (parseText room (excerpt text o.position.offset (lastStop (o :: v))))
        (parse room ⟨o :: v ++ [e], none⟩) := by
  obtain ⟨x, e, he, hshift⟩ := h.ofText_excerpt hv
  exact ⟨e, he, hshift ▸ (TokenStream.shift_sameWords x _).sameButPlaces⟩

/-- Tokens that are a statement by themselves are parsed to its node, and so is the text from the
first of them to the last. -/
theorem Standalone.parsed {u : Node} (h : Standalone (.plain (room - 1)) (o :: v) u)
    (hcut : IsCut text pieces gap rest) (hv : o :: v <:+: pieces.map Piece.token) :
    ∃ q, parseText room (excerpt text o.position.offset u.mark.stop) = .ok q ∧
      q.shape.children = [u.shape] := by
  obtain ⟨e, he, hsame⟩ := hcut.parseText_excerpt room hv
  have hstatements : Derives (.plain (room - 1)) (o :: v) e (.statements [u]) :=
    (h.derives e (endsStatement_of_endOfInput he)).single
  rw [(parse_eq_ok hstatements.kind_ne he).2 ⟨[u], hstatements, rfl⟩, h.stop] at hsame
  generalize parseText room (excerpt text o.position.offset u.mark.stop) = result at hsame
  cases hsame with
  | @program q _ hshape =>
      simp only [Tree.sameShape, decide_eq_true_eq] at hshape
      exact ⟨q, rfl, by rw [hshape, Tree.shape_none]; rfl⟩

/-- Without the parentheses in front, the tokens of a node are refused where the last of the
parentheses is closed. -/
theorem StartsBehind.parse_eq {x : List Token} {p : Position}
    (h : StartsBehind (.plain (room - 1)) g x p) (hg : g ≠ []) (e : Token) :
    ∃ c, c.kind = .symbol .rparen ∧ parse room ⟨x ++ [e], none⟩ =
      .error (.grammatical ⟨.unexpected [.expression], c⟩) := by
  obtain ⟨y, c, r, a, rfl, hc, hy⟩ := h.closed hg
  have hnext : c.kind.EndsStatement := by rw [hc]; exact ⟨by decide, rfl⟩
  have hroom : 5 < room - 1 := hy.frames_lt
  have hstatements : Derives (.plain (room - 1)) y c (.statements [a]) :=
    (Derives.bare hy hnext).single
  refine ⟨c, hc, ?_⟩
  rw [List.append_assoc, List.cons_append]
  refine parse_of_not_start (by omega) hstatements ?_ (by simp [hc]) (by simp [hc])
  rw [hc]
  exact TokenKind.not_startsExpression _ (by simp)

theorem StartsBehind.refused {x : List Token} {p : Position}
    (h : StartsBehind (.plain (room - 1)) g x p) (hg : g ≠ []) (hcut : IsCut text pieces gap rest)
    (hx : x <:+: pieces.map Piece.token) :
    ∃ e, parseText room (excerpt text p.offset (lastStop x)) = .error (.grammatical e) ∧
      e.expected = ["expression"] ∧ e.found.kind = .symbol .rparen := by
  obtain ⟨o, r, rfl, rfl⟩ := h.start
  obtain ⟨e, -, hsame⟩ := hcut.parseText_excerpt room hx
  obtain ⟨c, hc, hparse⟩ := h.parse_eq hg e
  rw [hparse] at hsame
  generalize parseText room (excerpt text o.position.offset (lastStop (o :: r))) = result at hsame
  cases hsame with
  | grammatical _ hexpected hkind => exact ⟨_, rfl, hexpected, hkind.trans hc⟩

end

/-! ### The text of a node -/

/-- From an offset on, the text up to the end of a node is a single statement of the shape of the
node. The offset is that of a token, and between it and the start of the node there are only opening
parentheses. If there are any, then the node is of a kind that starts with its first part, and the
text between its own start and its end is refused at a closing parenthesis. -/
structure Tree.WrittenFrom (room : Nat) (text : String) (u : Node) (start : Int) : Prop where
  parsed : ∃ q, parseText room (excerpt text start u.mark.stop) = .ok q ∧
    q.shape.children = [u.shape]
  token : ∃ t ∈ (TokenStream.ofText text).tokens, t.position.offset = start
  le : start ≤ u.mark.start.offset
  openings : ∀ t ∈ (TokenStream.ofText text).tokens, start ≤ t.position.offset →
    t.position.offset < u.mark.start.offset → t.kind = .symbol .lparen
  refused : start < u.mark.start.offset → u.kind ∈ NodeKind.led ∧
    ∃ e, parseText room (excerpt text u.mark.start.offset u.mark.stop) = .error (.grammatical e) ∧
      e.expected = ["expression"] ∧ e.found.kind = .symbol .rparen

/-- Tokens of a text that make a node by themselves are its text, from the first of them on. -/
theorem Standalone.writtenFrom {room : Nat} {text : String} {pieces : List Piece} {gap : List Char}
    {v : List Token} {u : Node} (h : Standalone (.plain (room - 1)) v u)
    (hcut : IsCut text pieces gap []) (hv : v <:+: pieces.map Piece.token) :
    ∃ start, u.WrittenFrom room text start := by
  obtain ⟨before, behind, htokens⟩ : v <:+: (TokenStream.ofText text).tokens := by
    rw [hcut.ofText_of_end]
    exact hv.trans (List.prefix_append ..).isInfix
  obtain ⟨g, x, rfl, hstart, hled⟩ := h.start
  obtain ⟨o, r, rfl, ho⟩ := hstart.start
  have hoffset := congrArg Position.offset ho
  cases g with
  | nil =>
      refine ⟨o.position.offset, h.parsed hcut hv, ⟨o, by simp [← htokens], rfl⟩, ?_, ?_, ?_⟩
      · exact Int.le_of_eq hoffset
      · exact fun t _ hle hlt => absurd (Int.lt_of_le_of_lt hle hlt) (by omega)
      · exact fun hlt => absurd hlt (by omega)
  | cons f g =>
      have hall : before ++ (f :: g ++ o :: (r ++ behind)) = (TokenStream.ofText text).tokens := by
        rw [← htokens]
        simp only [List.append_assoc, List.cons_append]
      have horder := hall ▸ hcut.pairwise_offset
      have hfirst : f.position.offset < o.position.offset := by
        obtain ⟨-, hinside, -⟩ := List.pairwise_append.1 horder
        exact (List.pairwise_append.1 hinside).2.2 f (by simp) o (by simp)
      refine ⟨f.position.offset, h.parsed hcut hv, ⟨f, by simp [← htokens], rfl⟩, ?_, ?_, ?_⟩
      · omega
      · exact fun t ht hle hlt =>
          hstart.openings t (mem_of_between horder (hall ▸ ht) hle (by omega))
      · intro _
        have hrefused := hstart.refused (by simp) hcut (infix_of_append hv).2
        rw [← lastStop_append (by simp) (f :: g), h.stop] at hrefused
        exact ⟨hled (by simp), hrefused⟩

/-- The sum in `(a) + b` is marked from the name on. -/
theorem exists_sum_of_parseText :
    ∃ p u, parseText 900 "(a) + b" = .ok p ∧ u ∈ p.walk ∧ u.kind = .additive ∧
      u.mark = ⟨⟨1, 1, 2⟩, 7⟩ := by
  let u : Node := ⟨.additive, .text "+",
    [⟨.identifier, .text "a", [], ⟨⟨1, 1, 2⟩, 2⟩⟩, ⟨.identifier, .text "b", [], ⟨⟨6, 1, 7⟩, 7⟩⟩],
    ⟨⟨1, 1, 2⟩, 7⟩⟩
  have hparsed : parseText 900 "(a) + b" = .ok ⟨.program, .none, [u], ⟨.start, 7⟩⟩ :=
    eq_ok_of_toOption (by decide +kernel)
  have hu : u ∈ Tree.walk ⟨.program, .none, [u], ⟨.start, 7⟩⟩ :=
    Tree.mem_walk.2 (.inr ⟨u, by simp, Tree.mem_walk.2 (.inl rfl)⟩)
  exact ⟨_, u, hparsed, hu, rfl, rfl⟩

/-- Every node of a parsed text, but for the program, the marks of bounds that are left out and the
entries of maps, has a stretch of the text that ends where the node ends and is a single statement
of its shape. The stretch starts where the node starts, unless the node starts with a first part
that parentheses enclose: then it starts with these parentheses, and what the mark of the node
covers is no program. -/
theorem parseText_written (room : Nat) (text : String) (p : Node)
    (h : parseText room text = .ok p) :
    ∀ u ∈ p.walk, u.kind ∉ NodeKind.dependent → ∃ start, u.WrittenFrom room text start := by
  intro u hu hkind
  obtain ⟨pieces, gap, hcut, statements, hd, rfl⟩ := isCut_of_parseText h
  rcases Tree.mem_walk.1 hu with rfl | ⟨t, ht, hu⟩
  · exact absurd (List.mem_cons_self ..) hkind
  · rw [Tree.subnodes_none] at ht
    obtain ⟨v, hv, hstandalone⟩ :=
      hd.standalone _ _ (Room.le_refl _) (List.infix_refl _) t ht u hu hkind
    exact hstandalone.writtenFrom hcut hv

/-- The sum in `(a) + b` is written from some place on, although not from its mark on. -/
theorem parseText_written_sum :
    ∃ p u, parseText 900 "(a) + b" = .ok p ∧ u ∈ p.walk ∧ u.kind ∉ NodeKind.dependent ∧
      ∃ start, u.WrittenFrom 900 "(a) + b" start := by
  obtain ⟨p, u, hp, hu, hkind, -⟩ := exists_sum_of_parseText
  have hnode : u.kind ∉ NodeKind.dependent := by
    rw [hkind]
    decide
  exact ⟨p, u, hp, hu, hnode, parseText_written _ _ p hp u hu hnode⟩

/-- The mark of the sum in `(a) + b` covers `a) + b`, which is no program. -/
theorem parseText_marked_refused :
    ∃ p u, parseText 900 "(a) + b" = .ok p ∧ u ∈ p.walk ∧ u.kind ∉ NodeKind.dependent ∧
      excerpt "(a) + b" u.mark.start.offset u.mark.stop = "a) + b" ∧
      ∀ q, parseText 900 (excerpt "(a) + b" u.mark.start.offset u.mark.stop) ≠ .ok q := by
  obtain ⟨p, u, hp, hu, hkind, hmark⟩ := exists_sum_of_parseText
  have hexcerpt : excerpt "(a) + b" 1 7 = "a) + b" := by decide +kernel
  have hnone : (parseText 900 "a) + b").toOption = none := by decide +kernel
  refine ⟨p, u, hp, hu, ?_, ?_, fun q hq => ?_⟩
  · rw [hkind]
    decide
  · rw [hmark, hexcerpt]
  · rw [hmark, hexcerpt] at hq
    rw [hq] at hnone
    cases hnone

end Sigil
