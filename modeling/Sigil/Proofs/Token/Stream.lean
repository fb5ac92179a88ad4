import Sigil.Proofs.Token.Lexeme
import Sigil.Token.Stream

/-!
# How a text is cut into tokens

A text is cut into tokens with filler in front of each, up to a last stretch of filler with either
the end of the text behind it or a place where no token can be. Each token is the longest lexeme
where it starts. The cut is described piece by piece, and the description leaves no choice.

## Main definitions

* `Cuts`: a front of a text, cut into pieces.
* `IsCut`: a whole text, cut as far as possible.

## Main results

* `IsCut.ofText_of_end`, `IsCut.ofText_of_fault`: however a text is cut, its stream says the same.
* `TokenStream.ofText_exact`: every text is cut, and its stream says how.
-/

namespace Sigil

/-- A token with the filler in front of it. -/
structure Piece where
  gap : List Char
  token : Token
  deriving DecidableEq, Repr

/-- The characters of a piece. -/
def Piece.chars (piece : Piece) : List Char :=
  piece.gap ++ piece.token.text.toList

/-- The first text is cut into pieces, and the second one is left behind them. -/
inductive Cuts : Remaining → List Piece → Remaining → Prop
  | none {r : Remaining} : Cuts r [] r
  | piece {p : Position} {gap rest : List Char} {t : Token} {pieces : List Piece}
      {left : Remaining} (hgap : IsFiller gap (t.text.toList ++ rest))
      (hstart : StartsNoFiller (t.text.toList ++ rest))
      (ht : IsLongest t.kind t.text.toList rest) (hposition : t.position = p.after gap)
      (h : Cuts ⟨t.finish, rest⟩ pieces left) :
      Cuts ⟨p, gap ++ (t.text.toList ++ rest)⟩ (⟨gap, t⟩ :: pieces) left

/-- A text that starts with neither filler nor a lexeme, for a reason. -/
inductive IsFaulty : LexFault → List Char → Prop
  | filler {fault : FillerFault} {cs : List Char} (h : IsFaultyFiller fault cs) :
      IsFaulty (.filler fault) cs
  | word {fault : LexFault} {cs : List Char} (hstart : StartsNoFiller cs)
      (h : IsFaultyWord fault cs) : IsFaulty fault cs

/-- The text is cut into pieces, filler, and a rest that is empty or faulty. -/
structure IsCut (text : String) (pieces : List Piece) (gap rest : List Char) : Prop where
  cuts : Cuts (.ofText text) pieces
    ⟨Position.start.after (pieces.flatMap Piece.chars), gap ++ rest⟩
  filler : IsFiller gap rest
  ended : rest = [] ∨ ∃ fault, IsFaulty fault rest

/-- The place behind some pieces and a stretch of filler. -/
def placeBehind (pieces : List Piece) (gap : List Char) : Position :=
  Position.start.after (pieces.flatMap Piece.chars ++ gap)

/-- The characters of a text from one offset up to another. -/
def between (cs : List Char) (start stop : Int) : List Char :=
  (cs.take stop.toNat).drop start.toNat

/-- What stands between two places of a text. -/
theorem between_append {before w rest : List Char} {start stop : Int}
    (hstart : start = before.length) (hstop : stop = before.length + w.length) :
    between (before ++ (w ++ rest)) start stop = w := by
  have hstart' : start.toNat = before.length := by omega
  have hstop' : stop.toNat = (before ++ w).length := by
    rw [List.length_append]
    omega
  rw [between, hstart', hstop', ← List.append_assoc, List.take_left, List.drop_left]

theorem IsLexeme.kind_ne {kind : TokenKind} {w : List Char} (h : IsLexeme kind w) :
    kind ≠ .endOfInput := by
  cases h with
  | word => unfold kindOfWord; split <;> simp
  | _ => simp

/-! ### What a cut says of the text -/

namespace Cuts

variable {r left : Remaining} {pieces : List Piece}

/-- The pieces and what is left are the text. -/
theorem chars_eq (h : Cuts r pieces left) : r.chars = pieces.flatMap Piece.chars ++ left.chars := by
  induction h with
  | none => rfl
  | piece _ _ _ _ _ ih => simp only [List.flatMap_cons, Piece.chars, List.append_assoc, ← ih]

/-- What is left starts behind the pieces. -/
theorem position_eq (h : Cuts r pieces left) :
    left.position = r.position.after (pieces.flatMap Piece.chars) := by
  induction h with
  | none => rfl
  | piece _ _ _ hposition _ ih =>
      rw [ih, Token.finish, hposition]
      simp only [List.flatMap_cons, Piece.chars, Position.after_append]

/-- What is left behind some pieces is placed behind the token of the last one. -/
theorem position_of_getLast {piece : Piece} (h : Cuts r pieces left)
    (hlast : pieces.getLast? = some piece) : left.position = piece.token.finish := by
  induction h with
  | none => cases hlast
  | @piece p gap rest t pieces left _ _ _ _ h ih =>
      rcases List.eq_nil_or_concat pieces with rfl | ⟨_, _, rfl⟩
      · obtain rfl := Option.some.inj hlast
        cases h
        rfl
      · exact ih (by simpa [List.getLast?_cons] using hlast)

/-- Each token is a lexeme of its kind. -/
theorem isLexeme (h : Cuts r pieces left) :
    ∀ piece ∈ pieces, IsLexeme piece.token.kind piece.token.text.toList := by
  induction h with
  | none => simp
  | piece _ _ ht _ _ ih => exact List.forall_mem_cons.2 ⟨ht.isLexeme, ih⟩

theorem kind_ne (h : Cuts r pieces left) : ∀ piece ∈ pieces, piece.token.kind ≠ .endOfInput :=
  fun piece hpiece => (h.isLexeme piece hpiece).kind_ne

/-- Each token is the stretch of the text between its offsets, and is not empty. -/
theorem between_eq (h : Cuts r pieces left) (before : List Char)
    (hbefore : r.position.offset = before.length) : ∀ piece ∈ pieces,
      piece.token.text ≠ "" ∧ between (before ++ r.chars) piece.token.position.offset
        piece.token.stop = piece.token.text.toList := by
  induction h generalizing before with
  | none => simp
  | @piece p gap rest t pieces left _ _ ht hposition _ ih =>
      have hoffset : t.position.offset = (before ++ gap).length := by
        rw [hposition, Position.offset_after, List.length_append]
        simp only at hbefore
        omega
      have hchars : before ++ (gap ++ (t.text.toList ++ rest)) =
          (before ++ gap) ++ (t.text.toList ++ rest) := by rw [List.append_assoc]
      refine List.forall_mem_cons.2 ⟨⟨?_, ?_⟩, fun piece hmem => ?_⟩
      · intro hempty
        exact ht.isLexeme.ne_nil (by rw [show t.text = "" from hempty]; rfl)
      · rw [hchars]
        exact between_append hoffset (by rw [Token.stop, hoffset, String.length_toList])
      · have hfinish : (t.finish).offset = ((before ++ gap) ++ t.text.toList).length := by
          rw [Token.finish, Position.offset_after, hoffset]
          simp only [List.length_append]
          omega
        have hrest := ih _ hfinish piece hmem
        rw [hchars, ← List.append_assoc (before ++ gap)]
        exact hrest

end Cuts

/-! ### Reading one token -/

section

variable {p : Position} {gap rest w : List Char}

/-- Behind filler, a token is read where no more filler starts. -/
theorem token_of_startsNoFiller (hgap : IsFiller gap rest) (hrest : StartsNoFiller rest) :
    Scan.token ⟨p, gap ++ rest⟩ = Scan.word ⟨p.after gap, rest⟩ := by
  have hskip : skipFiller (gap ++ rest) = ⟨⟨gap, rest⟩, none⟩ := by
    rw [hgap.skipFiller_eq, skipFiller_of_none hrest.fillerUnit_eq, List.append_nil]
  simp only [Scan.token, bind, EStateM.bind, Scan.filler, Scan.pass, hskip, Remaining.behind]

/-- Filler with nothing behind it: the end of input. -/
theorem token_of_end (hgap : IsFiller gap []) :
    Scan.token ⟨p, gap⟩ = .ok (.endAt (p.after gap)) ⟨p.after gap, []⟩ := by
  have hnothing : StartsNoFiller [] := fun c r heq => by cases heq
  have htoken := token_of_startsNoFiller (p := p) hgap hnothing
  rw [List.append_nil] at htoken
  rw [htoken]
  rfl

/-- Filler with a lexeme behind it. -/
theorem token_of_isLongest {t : Token} (hgap : IsFiller gap (t.text.toList ++ rest))
    (hstart : StartsNoFiller (t.text.toList ++ rest)) (ht : IsLongest t.kind t.text.toList rest)
    (hposition : t.position = p.after gap) :
    Scan.token ⟨p, gap ++ (t.text.toList ++ rest)⟩ = .ok t ⟨t.finish, rest⟩ := by
  obtain ⟨c, cs, hcs⟩ : ∃ c cs, t.text.toList ++ rest = c :: cs :=
    List.exists_cons_of_ne_nil (by simp [ht.isLexeme.ne_nil])
  rw [token_of_startsNoFiller hgap hstart, Scan.word, hcs]
  simp only [ht.lexeme_eq hcs, Remaining.behind, String.ofList_toList, Token.finish, ← hposition]

/-- Filler with a fault behind it. -/
theorem token_of_isFaulty {fault : LexFault} (hgap : IsFiller gap rest)
    (hfault : IsFaulty fault rest) :
    ∃ r, Scan.token ⟨p, gap ++ rest⟩ = .error ⟨fault, p.after gap⟩ r := by
  cases hfault with
  | @filler fault _ h =>
      have hskip : skipFiller (gap ++ rest) = ⟨⟨gap, rest⟩, some fault⟩ := by
        rw [hgap.skipFiller_eq, skipFiller_of_error h.fillerUnit_eq, List.append_nil]
      cases fault <;>
        simp only [Scan.token, bind, EStateM.bind, Scan.filler, Scan.pass, hskip,
          Remaining.behind] <;> exact ⟨_, rfl⟩
  | word hstart h =>
      have hlexeme : ∃ c cs, rest = c :: cs ∧ lexeme c cs = .error fault := by
        cases h with
        | openString hq hopen => exact ⟨_, _, rfl, (IsFaultyWord.openString hq hopen).lexeme_eq⟩
        | lonePart hq h hc => exact ⟨_, _, rfl, (IsFaultyWord.lonePart hq h hc).lexeme_eq⟩
        | unrecognized hq h hc =>
            exact ⟨_, _, rfl, (IsFaultyWord.unrecognized hq h hc).lexeme_eq⟩
      obtain ⟨c, cs, rfl, hlexeme⟩ := hlexeme
      rw [token_of_startsNoFiller hgap hstart]
      simp only [Scan.word, hlexeme]
      cases fault <;> exact ⟨_, rfl⟩

end

/-! ### Reading a text -/

namespace TokenStream

variable {r left : Remaining} {pieces : List Piece} {gap rest : List Char}

/-- The tokens of a text are those of its pieces and those of what is left. -/
theorem ofRemaining_of_cuts (h : Cuts r pieces left) :
    ofRemaining r =
      ⟨pieces.map Piece.token ++ (ofRemaining left).tokens, (ofRemaining left).failure⟩ := by
  induction h with
  | none => rfl
  | piece hgap hstart ht hposition _ ih =>
      rw [ofRemaining_of_token (token_of_isLongest hgap hstart ht hposition) ht.isLexeme.kind_ne,
        ih]
      rfl

end TokenStream

/-! ### Cutting a text -/

/-- Every text can be cut up to its end or a fault. -/
theorem exists_cuts (r : Remaining) : ∃ pieces p gap rest, Cuts r pieces ⟨p, gap ++ rest⟩ ∧
    IsFiller gap rest ∧ (rest = [] ∨ ∃ fault, IsFaulty fault rest) := by
  induction hn : r.chars.length using Nat.strongRecOn generalizing r with
  | ind n ih =>
      subst hn
      obtain ⟨p, cs⟩ := r
      obtain ⟨hgap, hbehind⟩ := skipFiller_sound cs
      have hwhole := whole_skipFiller cs
      generalize skipFiller cs = s at hgap hbehind hwhole
      obtain ⟨⟨gap, rest⟩, fault⟩ := s
      simp only [Split.whole] at hgap hbehind hwhole
      subst hwhole
      cases fault with
      | some fault => exact ⟨[], p, gap, rest, .none, hgap, .inr ⟨_, .filler hbehind⟩⟩
      | none =>
          cases rest with
          | nil => exact ⟨[], p, gap, [], .none, hgap, .inl rfl⟩
          | cons c cs =>
              have hsound := lexeme_sound c cs
              cases hl : lexeme c cs with
              | error fault =>
                  rw [hl] at hsound
                  exact ⟨[], p, gap, c :: cs, .none, hgap, .inr ⟨_, .word hbehind hsound⟩⟩
              | ok l =>
                  rw [hl] at hsound
                  have hl := whole_lexeme hl
                  let t : Token := ⟨l.kind, String.ofList l.taken, p.after gap⟩
                  have htext : t.text.toList = l.taken := String.toList_ofList
                  have hchars : t.text.toList ++ l.rest = c :: cs := by rw [htext, ← hl]; rfl
                  have ht : IsLongest t.kind t.text.toList l.rest := htext ▸ hsound
                  have hshorter : l.rest.length < (gap ++ c :: cs).length := by
                    have hne := List.length_pos_iff.2 ht.isLexeme.ne_nil
                    simp only [← hchars, List.length_append]
                    omega
                  obtain ⟨pieces, q, gap', rest, hcuts, hend⟩ :=
                    ih l.rest.length hshorter ⟨t.finish, l.rest⟩ rfl
                  rw [← hchars] at hgap hbehind ⊢
                  exact ⟨⟨gap, t⟩ :: pieces, q, gap', rest, .piece hgap hbehind ht rfl hcuts, hend⟩

theorem IsFaulty.ne_nil {fault : LexFault} {cs : List Char} (h : IsFaulty fault cs) : cs ≠ [] := by
  rintro rfl
  cases h with
  | filler h => cases h
  | word _ h => cases h

/-- Behind filler that goes as far as it can, the text is split in one way. -/
theorem IsFiller.unique {gap gap' rest rest' : List Char} (h : IsFiller gap rest)
    (h' : IsFiller gap' rest') (heq : gap ++ rest = gap' ++ rest')
    (hstop : (skipFiller rest).toSplit = ⟨[], rest⟩)
    (hstop' : (skipFiller rest').toSplit = ⟨[], rest'⟩) : gap = gap' ∧ rest = rest' := by
  have hskip := h.skipFiller_eq
  have hskip' := h'.skipFiller_eq
  rw [heq, hskip'] at hskip
  have htaken := congrArg (fun s => s.taken) hskip
  have hrest := congrArg (fun s => s.rest) hskip
  simp only [hstop, hstop', List.append_nil] at htaken hrest
  exact ⟨htaken.symm, hrest.symm⟩

theorem StartsNoFiller.toSplit_skipFiller {cs : List Char} (h : StartsNoFiller cs) :
    (skipFiller cs).toSplit = ⟨[], cs⟩ := by
  rw [skipFiller_of_none h.fillerUnit_eq]

/-- Neither the end of a text nor a fault starts with filler that can be skipped. -/
theorem toSplit_skipFiller_of_ended {rest : List Char}
    (h : rest = [] ∨ ∃ fault, IsFaulty fault rest) : (skipFiller rest).toSplit = ⟨[], rest⟩ := by
  rcases h with rfl | ⟨fault, hfault⟩
  · exact StartsNoFiller.toSplit_skipFiller fun c r heq => by cases heq
  · cases hfault with
    | filler h => rw [skipFiller_of_error h.fillerUnit_eq]
    | word hstart => exact hstart.toSplit_skipFiller

/-- Neither the end of a text nor a fault is the start of a token. -/
theorem not_isLongest_of_ended {kind : TokenKind} {w rest rest' : List Char}
    (h : rest = [] ∨ ∃ fault, IsFaulty fault rest) (heq : rest = w ++ rest')
    (hstart : StartsNoFiller (w ++ rest')) : ¬ IsLongest kind w rest' := by
  intro ht
  rcases h with rfl | ⟨fault, hfault⟩
  · exact ht.isLexeme.ne_nil (List.append_eq_nil_iff.1 heq.symm).1
  · cases hfault with
    | filler h => exact (heq ▸ h).not_startsNoFiller hstart
    | word _ h => exact h.startsNoLexeme kind w rest' heq.symm ht.isLexeme

/-- A text is cut in one way. -/
theorem Cuts.unique {r left left' : Remaining} {pieces pieces' : List Piece}
    {gap gap' rest rest' : List Char} (h : Cuts r pieces left) (hleft : left.chars = gap ++ rest)
    (hgap : IsFiller gap rest) (hend : rest = [] ∨ ∃ fault, IsFaulty fault rest)
    (h' : Cuts r pieces' left') (hleft' : left'.chars = gap' ++ rest') (hgap' : IsFiller gap' rest')
    (hend' : rest' = [] ∨ ∃ fault, IsFaulty fault rest') :
    pieces = pieces' ∧ gap = gap' ∧ rest = rest' := by
  have hstop := toSplit_skipFiller_of_ended hend
  have hstop' := toSplit_skipFiller_of_ended hend'
  induction h generalizing pieces' with
  | none =>
      cases h' with
      | none => exact ⟨rfl, hgap.unique hgap' (hleft.symm.trans hleft') hstop hstop'⟩
      | piece hg hstart ht =>
          obtain ⟨-, hrest⟩ := hgap.unique hg hleft.symm hstop hstart.toSplit_skipFiller
          exact absurd ht (not_isLongest_of_ended hend hrest hstart)
  | @piece p g r t pieces left hg hstart ht hposition _ ih =>
      generalize hcs : g ++ (t.text.toList ++ r) = cs at h'
      generalize hr : (⟨p, cs⟩ : Remaining) = s at h'
      cases h' with
      | none =>
          subst hr
          obtain ⟨-, hrest⟩ := hgap'.unique hg (hleft'.symm.trans hcs.symm) hstop'
            hstart.toSplit_skipFiller
          exact absurd ht (not_isLongest_of_ended hend' hrest hstart)
      | @piece p' g' r' t' pieces' left' hg' hstart' ht' hposition' h' =>
          obtain ⟨rfl, rfl⟩ := Remaining.mk.inj hr
          obtain ⟨rfl, hsame⟩ := hg.unique hg' hcs hstart.toSplit_skipFiller
            hstart'.toSplit_skipFiller
          obtain ⟨hkind, htext, rfl⟩ := ht.unique ht' hsame
          obtain rfl : t = t' := by
            cases t
            cases t'
            simp_all [String.toList_inj]
          obtain ⟨rfl, hrest⟩ := ih hleft h'
          exact ⟨rfl, hrest⟩

theorem exists_isCut (text : String) : ∃ pieces gap rest, IsCut text pieces gap rest := by
  obtain ⟨pieces, p, gap, rest, hcuts, hgap, hend⟩ := exists_cuts (.ofText text)
  have hp : p = Position.start.after (pieces.flatMap Piece.chars) := hcuts.position_eq
  subst hp
  exact ⟨pieces, gap, rest, hcuts, hgap, hend⟩

namespace IsCut

variable {text : String} {pieces : List Piece} {gap rest : List Char}

/-- Nothing of the text is lost. -/
theorem toList_eq (h : IsCut text pieces gap rest) :
    text.toList = pieces.flatMap Piece.chars ++ (gap ++ rest) :=
  h.cuts.chars_eq

/-- A text that is cut up to its end has the tokens of the pieces and an end of input. -/
theorem ofText_of_end (h : IsCut text pieces gap []) : TokenStream.ofText text =
    ⟨pieces.map Piece.token ++ [⟨.endOfInput, "", placeBehind pieces gap⟩], none⟩ := by
  have hend := token_of_end (p := Position.start.after (pieces.flatMap Piece.chars)) h.filler
  have hcuts := TokenStream.ofRemaining_of_cuts h.cuts
  rw [List.append_nil, TokenStream.ofRemaining_of_end hend rfl, ← Position.after_append] at hcuts
  exact hcuts

/-- A text that is cut up to a fault has the tokens of the pieces and fails at the fault. -/
theorem ofText_of_fault {fault : LexFault} (h : IsCut text pieces gap rest)
    (hfault : IsFaulty fault rest) : TokenStream.ofText text =
      ⟨pieces.map Piece.token, some ⟨fault, placeBehind pieces gap⟩⟩ := by
  obtain ⟨r, herror⟩ :=
    token_of_isFaulty (p := Position.start.after (pieces.flatMap Piece.chars)) h.filler hfault
  have hcuts := TokenStream.ofRemaining_of_cuts h.cuts
  rw [TokenStream.ofRemaining_of_error herror, List.append_nil, ← Position.after_append] at hcuts
  exact hcuts

/-- A text without a fault is cut up to its end. -/
theorem rest_eq_nil (h : IsCut text pieces gap rest)
    (hfailure : (TokenStream.ofText text).failure = none) : rest = [] := by
  rcases h.ended with hrest | ⟨fault, hfault⟩
  · exact hrest
  · rw [h.ofText_of_fault hfault] at hfailure
    cases hfailure

/-- Each token is the stretch of the text between its offsets, and is not empty. -/
theorem between_eq (h : IsCut text pieces gap rest) : ∀ piece ∈ pieces,
    piece.token.text ≠ "" ∧ between text.toList piece.token.position.offset piece.token.stop =
      piece.token.text.toList :=
  h.cuts.between_eq [] rfl

/-- A text is cut in one way. -/
theorem unique {pieces' : List Piece} {gap' rest' : List Char} (h : IsCut text pieces gap rest)
    (h' : IsCut text pieces' gap' rest') : pieces = pieces' ∧ gap = gap' ∧ rest = rest' :=
  h.cuts.unique rfl h.filler h.ended h'.cuts rfl h'.filler h'.ended

end IsCut

/-- A text is cut in one way into tokens, each the longest lexeme where it starts, with filler in
front of each, up to the end of the text or to the first place where neither a token nor filler can
be. The stream of the text has the tokens, each of them with its place, and then an end of input or
the fault, placed behind the last stretch of filler. -/
theorem TokenStream.ofText_exact (text : String) :
    ∃ pieces gap rest, IsCut text pieces gap rest ∧
      (∀ pieces' gap' rest', IsCut text pieces' gap' rest' →
        pieces' = pieces ∧ gap' = gap ∧ rest' = rest) ∧
      text.toList = pieces.flatMap Piece.chars ++ (gap ++ rest) ∧
      (∀ piece ∈ pieces, piece.token.text ≠ "" ∧ between text.toList piece.token.position.offset
        piece.token.stop = piece.token.text.toList) ∧
      ((rest = [] ∧ (placeBehind pieces gap).offset = text.length ∧ ofText text =
          ⟨pieces.map Piece.token ++ [⟨.endOfInput, "", placeBehind pieces gap⟩], none⟩) ∨
        (∃ fault, IsFaulty fault rest ∧ (placeBehind pieces gap).offset < text.length ∧
          ofText text = ⟨pieces.map Piece.token, some ⟨fault, placeBehind pieces gap⟩⟩)) := by
  obtain ⟨pieces, gap, rest, h⟩ := exists_isCut text
  have hlength := congrArg List.length h.toList_eq
  have hoffset : (placeBehind pieces gap).offset =
      (pieces.flatMap Piece.chars ++ gap).length := by
    rw [placeBehind, Position.offset_after]
    exact Int.zero_add _
  rw [← List.append_assoc, List.length_append, String.length_toList] at hlength
  refine ⟨pieces, gap, rest, h, fun _ _ _ h' => h'.unique h, h.toList_eq, h.between_eq, ?_⟩
  rcases h.ended with rfl | ⟨fault, hfault⟩
  · exact .inl ⟨rfl, by rw [hoffset, hlength]; simp, h.ofText_of_end⟩
  · refine .inr ⟨fault, hfault, ?_, h.ofText_of_fault hfault⟩
    have hpos := List.length_pos_iff.2 hfault.ne_nil
    rw [hoffset, hlength]
    omega

end Sigil
