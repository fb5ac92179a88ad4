import Sigil.Proofs.Parser.Alike
import Sigil.Proofs.Parser.Earliest

/-!
# Layout

The places of tokens never change a parse. Streams of tokens with the same kinds and texts are
programs of one shape, or are refused for the same reason at the same word. If only the kinds are
the same, the programs still have the same kinds of nodes, and the tokens that do not fit have the
same index. What stands between the tokens of a text has an influence on their places only.

## Main definitions

* `TokenStream.SameKinds`, `TokenStream.SameWords`: streams that differ in texts or places.
* `FailsBehind`: how many tokens there are in front of one that does not fit.
* `SameButPlaces`: results of parsing that differ in places.
* `SameButFiller`: texts that differ in filler between their tokens.

## Main results

* `TokenStream.Alike.parsedAlike`: streams that look alike are parsed alike.
* `parse_layout`: layout never changes a parse.
-/

namespace Sigil

open Parse

/-! ### Tokens that do not fit -/

/-- The parser, with room for `room` calls, consumes the tokens `w` of a stream and fails at the
token behind them. -/
structure FailsBehind (room : Nat) (stream : TokenStream) (w : List Token) (e : ParseError) :
    Prop where
  finds : stream.Finds w e.found
  run : ∃ s s', Parser.State.start stream = .ok s ∧ s.Reads w s' ∧
    Parser.program room s = .error (.grammatical e) s'

section

variable {room : Nat} {v : View} {a b stream : TokenStream} {s s' m m' : Parser.State}
  {w x : List Token} {e e' : ParseError}

/-- From a state there is one run to where a number of tokens can still be consumed. -/
theorem Parser.State.Reads.unique (hw : s.Reads w m) (hx : s.Reads x m')
    (h : m.pending = m'.pending) : w = x := by
  induction w generalizing s x with
  | nil =>
      obtain rfl := reads_nil.1 hw
      by_contra hne
      have hlt := hx.pending_lt (Ne.symm hne)
      omega
  | cons t w ih =>
      cases x with
      | nil =>
          obtain rfl := reads_nil.1 hx
          have hlt := hw.pending_lt (by simp)
          omega
      | cons u x =>
          obtain ⟨n, ht, hw⟩ := hw
          obtain ⟨n', hu, hx⟩ := hx
          obtain rfl : t = u := ht.1.symm.trans hu.1
          obtain rfl := ht.unique hu
          rw [ih hw hx]

/-- A parser fails at a token that it has got to. -/
theorem exists_failsBehind (hstart : Parser.State.start stream = .ok s)
    (h : Parser.program room s = .error (.grammatical e) s') :
    ∃ w, s.Reads w s' ∧ FailsBehind room stream w e := by
  have hbehind := Parser.State.isBehind_of_start hstart
  have hrun := h
  cases Parser.program_follows room s with
  | succeeds hreads _ hlocal =>
      rw [hlocal.eq hreads] at hrun
      cases hrun
  | @fails w m fault hreads _ _ hlocal =>
      rw [hlocal.eq hreads] at hrun
      cases hrun
      refine ⟨w, hreads, ?_, s, s', hstart, hreads, h⟩
      rcases hbehind.reads hreads with rfl | ⟨rfl, hcurrent, -⟩
      · exact .inl ⟨_, rfl⟩
      · exact .inr ⟨rfl, hcurrent⟩
  | breaks _ _ _ _ heq =>
      rw [heq] at hrun
      cases hrun
  | overflows hreads _ hlocal =>
      exact absurd (hlocal.eq hreads) (Parser.program_ne_overflow room _ _)

/-- The token at which parsing fails stands behind tokens that were consumed. -/
theorem exists_failsBehind_of_parse
    (h : parse room stream = .error (.grammatical e)) : ∃ w, FailsBehind room stream w e := by
  cases hstart : Parser.State.start stream with
  | error e' =>
      rw [parse, hstart] at h
      cases h
  | ok s =>
      rw [parse_of_start hstart] at h
      cases hprogram : Parser.program room s with
      | ok p m => simp [hprogram] at h
      | error failure m =>
          obtain rfl : failure = .grammatical e := by simpa [hprogram] using h
          obtain ⟨w, -, hfails⟩ := exists_failsBehind hstart hprogram
          exact ⟨w, hfails⟩

/-- What a stream fails with is what parsing it answers. -/
theorem FailsBehind.parse_eq (h : FailsBehind room stream w e) :
    parse room stream = .error (.grammatical e) := by
  obtain ⟨s, s', hstart, -, hprogram⟩ := h.run
  rw [parse_of_start hstart, hprogram]

/-- A stream fails behind one list of its tokens, so the token that does not fit has one index. -/
theorem FailsBehind.unique (h : FailsBehind room stream w e)
    (h' : FailsBehind room stream x e') :
    w = x ∧ e = e' := by
  obtain ⟨s, m, hstart, hw, hprogram⟩ := h.run
  obtain ⟨s', m', hstart', hx, hprogram'⟩ := h'.run
  obtain rfl := Except.ok.inj (hstart.symm.trans hstart')
  rw [hprogram] at hprogram'
  cases hprogram'
  exact ⟨hw.unique hx rfl, rfl⟩

/-! ### Streams that look alike -/

/-- From states that look alike there are runs that consume equally many tokens. -/
theorem Parser.State.Alike.reads (hs : s.Alike v s') (hw : s.Reads w m) :
    ∃ x m', s'.Reads x m' ∧ w.length = x.length ∧ m.Alike v m' := by
  induction w generalizing s s' with
  | nil =>
      obtain rfl := reads_nil.1 hw
      exact ⟨[], s', rfl, rfl, hs⟩
  | cons t w ih =>
      obtain ⟨n, ⟨rfl, hkind, hadvance⟩, hw⟩ := hw
      have hkind' := hs.current.kind ▸ hkind
      have hend := Parse.Alike.advance s s' hs
      rw [hadvance] at hend
      generalize hq : advance s' = y at hend
      cases hend with
      | ok _ hn =>
          obtain ⟨x, m', hx, hlength, hm⟩ := ih hn hw
          exact ⟨_ :: x, m', .cons ((advance_eq_ok hkind').1 hq) hx, by simp [hlength], hm⟩

/-- Parsers of streams that look alike start in states that look alike. -/
theorem Parser.State.start_alike (h : a.Alike v b) :
    (∃ s s', start a = .ok s ∧ start b = .ok s' ∧ s.Alike v s') ∨
      ∃ e e', start a = .error e ∧ start b = .error e' ∧ e.fault = e'.fault := by
  obtain ⟨t, u, a', b', ha, hb, ht, hab⟩ | ⟨e, e', a', b', ha, hb, he, -⟩ := h.next none none
  · exact .inl ⟨_, _, by rw [start, ha], by rw [start, hb], ht, hab⟩
  · exact .inr ⟨e, e', by rw [start, ha], by rw [start, hb], he⟩

/-- Two streams are parsed alike: they are programs that look alike, or a token does not fit that
has the same index and looks alike, or they cannot be cut further at faults that are the same. -/
inductive TokenStream.ParsedAlike (v : View) (room : Nat) (a b : TokenStream) : Prop
  | accepted {p p' : Node} (ha : parse room a = .ok p) (hb : parse room b = .ok p')
      (h : p.Alike v p')
  | refused {w x : List Token} {e e' : ParseError} (ha : FailsBehind room a w e)
      (hb : FailsBehind room b x e') (hindex : w.length = x.length) (hfault : e.fault = e'.fault)
      (hfound : e.found.Alike v e'.found)
  | uncut {e e' : LexError} (ha : parse room a = .error (.lexical e))
      (hb : parse room b = .error (.lexical e')) (hfault : e.fault = e'.fault)

/-- Streams that look alike are parsed alike. -/
theorem TokenStream.Alike.parsedAlike (room : Nat) (h : a.Alike v b) : a.ParsedAlike v room b := by
  obtain ⟨s, s', hstart, hstart', hs⟩ | ⟨e, e', hstart, hstart', he⟩ :=
    Parser.State.start_alike h
  · have hend := Parser.program_uniform v room s s' hs
    have hparse : parse room a = _ := parse_of_start hstart
    have hparse' : parse room b = _ := parse_of_start hstart'
    generalize hp : Parser.program room s = y, hq : Parser.program room s' = z at hend
    rw [hp] at hparse
    rw [hq] at hparse'
    cases hend with
    | ok hnode _ => exact .accepted hparse hparse' hnode
    | error he hm =>
        cases he with
        | lexical hfault => exact .uncut hparse hparse' hfault
        | grammatical hfault hfound =>
            obtain ⟨w, hw, hfails⟩ := exists_failsBehind hstart hp
            obtain ⟨x, hx, hfails'⟩ := exists_failsBehind hstart' hq
            obtain ⟨x', n, hx', hlength, hn⟩ := hs.reads hw
            obtain rfl := hx'.unique hx (hn.pending_eq.symm.trans hm.pending_eq)
            exact .refused hfails hfails' hlength hfault hfound
        | overflow => exact absurd hp (Parser.program_ne_overflow room _ _)
  · exact .uncut (by rw [parse, hstart]) (by rw [parse, hstart']) he

end

/-! ### Kinds and words -/

/-- Two streams have tokens of the same kinds, and end with the same fault if they end with one. -/
structure TokenStream.SameKinds (a b : TokenStream) : Prop where
  kinds : a.tokens.map Token.kind = b.tokens.map Token.kind
  faults : a.failure.map LexError.fault = b.failure.map LexError.fault

/-- Two streams have tokens of the same kinds and texts, and end with the same fault if they end
with one. They may differ in all places. -/
structure TokenStream.SameWords (a b : TokenStream) : Prop where
  words : a.tokens.map (fun t => (t.kind, t.text)) = b.tokens.map fun t => (t.kind, t.text)
  faults : a.failure.map LexError.fault = b.failure.map LexError.fault

/-- Two texts are the same but for the filler between their tokens, which may be any filler: they
are cut into tokens with the same texts, up to the same rest. -/
def SameButFiller (text text' : String) : Prop :=
  ∃ pieces pieces' gap gap' rest, IsCut text pieces gap rest ∧ IsCut text' pieces' gap' rest ∧
    (pieces.map fun piece => piece.token.text) = pieces'.map fun piece => piece.token.text

/-- The kinds of the nodes of a tree: its shape without the texts in it. -/
def Tree.kinds {α : Type} (t : Tree α) : Shape :=
  t.viewed .blank

/-- Two results of parsing are the same up to places: programs of one shape, or failures that say
the same. -/
inductive SameButPlaces : Except ParseFailure Node → Except ParseFailure Node → Prop
  | program {p p' : Node} (h : p.sameShape p') : SameButPlaces (.ok p) (.ok p')
  | grammatical {e e' : ParseError} (hreason : e.reason = e'.reason)
      (hexpected : e.expected = e'.expected) (hkind : e.found.kind = e'.found.kind)
      (htext : e.found.text = e'.found.text) :
      SameButPlaces (.error (.grammatical e)) (.error (.grammatical e'))
  | lexical {e e' : LexError} (hfault : e.fault = e'.fault) :
      SameButPlaces (.error (.lexical e)) (.error (.lexical e'))

/-- Two streams have the same result up to places and texts: programs whose nodes are of the same
kinds, or failures with the same fault. Tokens that do not fit have the same index. -/
inductive SameButTexts (room : Nat) (a b : TokenStream) : Prop
  | program {p p' : Node} (ha : parse room a = .ok p) (hb : parse room b = .ok p')
      (h : p.kinds = p'.kinds)
  | grammatical {w x : List Token} {e e' : ParseError} (ha : FailsBehind room a w e)
      (hb : FailsBehind room b x e') (hindex : w.length = x.length) (hfault : e.fault = e'.fault)
  | lexical {e e' : LexError} (ha : parse room a = .error (.lexical e))
      (hb : parse room b = .error (.lexical e')) (hfault : e.fault = e'.fault)

section

variable {room : Nat} {a b : TokenStream}

theorem forall₂_iff_map_eq {α β : Type} {f : α → β} {as bs : List α} :
    List.Forall₂ (fun x y => f x = f y) as bs ↔ as.map f = bs.map f := by
  rw [← List.forall₂_eq_eq_eq, List.forall₂_map_left_iff, List.forall₂_map_right_iff]

theorem TokenStream.SameKinds.alike (h : a.SameKinds b) : a.Alike .blank b :=
  ⟨(forall₂_iff_map_eq.2 h.kinds).imp fun _ _ hkind => ⟨hkind, rfl⟩, h.faults⟩

theorem TokenStream.SameWords.alike (h : a.SameWords b) : a.Alike .full b :=
  ⟨(forall₂_iff_map_eq.2 h.words).imp fun _ _ hword =>
    ⟨congrArg Prod.fst hword, congrArg Prod.snd hword⟩, h.faults⟩

/-- To look at texts as they are is to see the shape of a tree. -/
theorem Tree.viewed_full {α : Type} (t : Tree α) : t.viewed .full = t.shape := by
  induction t using induct with
  | step kind value children mark hvalue hchildren =>
      have hall : viewedAll .full children = mapAll (fun _ => ()) children := by
        induction children with
        | nil => rfl
        | cons t ts ih =>
            obtain ⟨ht, hts⟩ := List.forall_mem_cons.1 hchildren
            rw [viewedAll, mapAll, ht, ih hts, shape]
      cases value with
      | none => simp only [viewed, shape, map, hall]
      | text s => simp only [viewed, shape, map, hall]; rfl
      | node t => simp only [viewed, shape, map, hall, hvalue t rfl]

/-- Streams with the same words have the same result up to places. -/
theorem TokenStream.SameWords.sameButPlaces (h : a.SameWords b) :
    SameButPlaces (parse room a) (parse room b) := by
  cases h.alike.parsedAlike room with
  | accepted ha hb hshape =>
      rw [ha, hb]
      refine .program ?_
      rw [Tree.Alike, Tree.viewed_full, Tree.viewed_full] at hshape
      simpa [Tree.sameShape] using hshape
  | @refused _ _ e e' ha hb _ hfault hfound =>
      rw [ha.parse_eq, hb.parse_eq]
      obtain ⟨hkind, htext⟩ := hfound
      have hexpected : e.expected = e'.expected := by simp only [ParseError.expected, hfault]
      refine .grammatical ?_ hexpected hkind htext
      have hdescription : e.found.description = e'.found.description := by
        have htext' : e.found.text = e'.found.text := htext
        simp only [Token.description, hkind, htext']
      simp only [ParseError.reason, hfault, hexpected, hdescription]
  | uncut ha hb hfault =>
      rw [ha, hb]
      exact .lexical hfault

/-! ### Texts -/

/-- The text of a token determines its kind, so pieces with the same texts have the same words. -/
theorem words_eq_of_texts {pieces pieces' : List Piece}
    (h : ∀ piece ∈ pieces, IsLexeme piece.token.kind piece.token.text.toList)
    (h' : ∀ piece ∈ pieces', IsLexeme piece.token.kind piece.token.text.toList)
    (htexts : (pieces.map fun piece => piece.token.text) =
      pieces'.map fun piece => piece.token.text) :
    (pieces.map Piece.token).map (fun t => (t.kind, t.text)) =
      (pieces'.map Piece.token).map fun t => (t.kind, t.text) := by
  induction pieces generalizing pieces' with
  | nil => simp_all
  | cons piece pieces ih =>
      cases pieces' with
      | nil => simp at htexts
      | cons piece' pieces' =>
          obtain ⟨hpiece, h⟩ := List.forall_mem_cons.1 h
          obtain ⟨hpiece', h'⟩ := List.forall_mem_cons.1 h'
          obtain ⟨htext, htexts⟩ := List.cons.inj htexts
          have htext : piece.token.text = piece'.token.text := htext
          rw [← htext] at hpiece'
          have hkind := hpiece.kind_unique hpiece'
          simp only [List.map_cons, hkind, htext, ih h h' htexts]

theorem SameButFiller.sameWords {text text' : String} (h : SameButFiller text text') :
    (TokenStream.ofText text).SameWords (.ofText text') := by
  obtain ⟨pieces, pieces', gap, gap', rest, hcut, hcut', htexts⟩ := h
  have hwords := words_eq_of_texts hcut.cuts.isLexeme hcut'.cuts.isLexeme htexts
  rcases hcut.ended with rfl | ⟨fault, hfault⟩
  · rw [hcut.ofText_of_end, hcut'.ofText_of_end]
    exact ⟨by simp only [List.map_append, hwords, List.map_cons, List.map_nil], rfl⟩
  · rw [hcut.ofText_of_fault hfault, hcut'.ofText_of_fault hfault]
    exact ⟨hwords, rfl⟩

/-- Texts that are cut up to their ends are the same but for filler if their tokens have the same
texts. -/
theorem SameButFiller.of_tokens {text text' : String}
    (h : (TokenStream.ofText text).failure = none) (h' : (TokenStream.ofText text').failure = none)
    (htexts : (TokenStream.ofText text).tokens.map Token.text =
      (TokenStream.ofText text').tokens.map Token.text) : SameButFiller text text' := by
  obtain ⟨pieces, gap, rest, hcut⟩ := exists_isCut text
  obtain ⟨pieces', gap', rest', hcut'⟩ := exists_isCut text'
  obtain rfl := hcut.rest_eq_nil h
  obtain rfl := hcut'.rest_eq_nil h'
  rw [hcut.ofText_of_end, hcut'.ofText_of_end] at htexts
  simp only [List.map_append, List.map_cons, List.map_nil, List.map_map,
    List.append_cancel_right_eq] at htexts
  exact ⟨pieces, pieces', gap, gap', [], hcut, hcut', htexts⟩

end

/-- Layout never changes a parse. Streams with tokens of the same kinds and texts have the same
result up to places, and streams with tokens of the same kinds have the same result up to places and
texts. Texts that differ only in the filler between their tokens have the same result up to places.
The room on the stack may be any, as long as it is the same. -/
theorem parse_layout (room : Nat) :
    (∀ a b : TokenStream, a.SameWords b → SameButPlaces (parse room a) (parse room b)) ∧
    (∀ a b : TokenStream, a.SameKinds b → SameButTexts room a b) ∧
    ∀ text text' : String, SameButFiller text text' →
      SameButPlaces (parseText room text) (parseText room text') := by
  refine ⟨fun a b h => h.sameButPlaces, fun a b h => ?_, fun text text' h => ?_⟩
  · cases h.alike.parsedAlike room with
    | accepted ha hb hkinds => exact .program ha hb hkinds
    | refused ha hb hindex hfault _ => exact .grammatical ha hb hindex hfault
    | uncut ha hb hfault => exact .lexical ha hb hfault
  · exact h.sameWords.sameButPlaces

/-- Two streams that differ in places, two streams that differ in the texts of strings, and two
texts one of which has a comment where the other has nothing. -/
theorem parse_layout_comment :
    SameButPlaces
      (parse 900 ⟨[⟨.identifier, "a", ⟨0, 1, 1⟩⟩, ⟨.symbol .minus, "-", ⟨1, 1, 2⟩⟩,
        ⟨.identifier, "b", ⟨2, 1, 3⟩⟩], none⟩)
      (parse 900 ⟨[⟨.identifier, "a", ⟨9, 2, -5⟩⟩, ⟨.symbol .minus, "-", ⟨1, 1, 2⟩⟩,
        ⟨.identifier, "b", ⟨0, 0, 0⟩⟩], none⟩) ∧
    SameButTexts 900
      ⟨[⟨.string, "'a'", ⟨0, 1, 1⟩⟩, ⟨.symbol .rparen, ")", ⟨3, 1, 4⟩⟩], none⟩
      ⟨[⟨.string, "'b c'", ⟨0, 1, 1⟩⟩, ⟨.symbol .rparen, ")", ⟨5, 1, 6⟩⟩], none⟩ ∧
    SameButPlaces (parseText 900 "a-b") (parseText 900 "a // c\n - b") := by
  obtain ⟨hplaces, htexts, hfiller⟩ := parse_layout 900
  refine ⟨hplaces _ _ ⟨by decide, rfl⟩, htexts _ _ ⟨by decide, rfl⟩, hfiller _ _ ?_⟩
  exact .of_tokens (by decide +kernel) (by decide +kernel) (by decide +kernel)

end Sigil
