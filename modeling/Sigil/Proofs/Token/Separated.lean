import Sigil.Proofs.Token.Shift

/-!
# Texts with filler between them

Two texts with filler between them have the tokens of the one and then those of the other, if the
filler starts with a blank and is complete. No token goes on behind a blank, strings apart, and a
string that is closed does not go on at all; so the blank protects the first text from what follows.
The only thing that it does not end is a comment to the end of the line.

## Main definitions

* `IsCompleteUnit`, `IsSeparator`: filler that ends where it ends, whatever follows.
* `EndsInComment`: texts that end in a comment to the end of the line.

## Main results

* `IsLongest.extend`, `IsFiller.extend`, `Cuts.extend`: what is cut in front of a blank.
* `TokenStream.ofText_separated`: the stream of two texts with filler between them.
-/

namespace Sigil

/-! ### Filler that is complete -/

/-- The stretch is a piece of filler that ends where it ends, whatever follows. A comment to the end
of the line has the newline with it. -/
inductive IsCompleteUnit : List Char → Prop
  | blank {c : Char} (hc : isBlank c = true) : IsCompleteUnit [c]
  | continuation : IsCompleteUnit ['\\', '\n']
  | returnContinuation : IsCompleteUnit ['\\', '\r', '\n']
  | lineComment {body : List Char} (h : IsLineComment body ['\n']) :
      IsCompleteUnit ('/' :: '/' :: (body ++ ['\n']))
  | blockComment {body : List Char} (h : NoClose (body ++ ['*'])) :
      IsCompleteUnit ('/' :: '*' :: (body ++ ['*', '/']))

/-- The stretch is a blank with complete pieces of filler behind it. -/
def IsSeparator (cs : List Char) : Prop :=
  ∃ (c : Char) (units : List (List Char)), isBlank c = true ∧ (∀ u ∈ units, IsCompleteUnit u) ∧
    cs = c :: units.flatten

/-- The last piece of filler of a text is a comment that goes up to the end of the text. -/
def EndsInComment (text : String) : Prop :=
  ∃ pieces gap body, IsCut text pieces (gap ++ '/' :: '/' :: body) [] ∧
    IsFiller gap ('/' :: '/' :: body) ∧ IsLineComment body []

section

variable {c : Char} {u cs gap rest : List Char} (more : List Char)

theorem IsLineComment.extend {body : List Char} (h : IsLineComment body rest) (hne : rest ≠ []) :
    IsLineComment body (rest ++ more) := by
  obtain ⟨d, ds, rfl⟩ := List.exists_cons_of_ne_nil hne
  exact ⟨h.hidden, fun _ => h.ends (by simp)⟩

/-- A complete piece is filler in front of everything. -/
theorem IsCompleteUnit.isFiller (h : IsCompleteUnit u) (rest : List Char) : IsFiller u rest := by
  have hunit {v : List Char} (h : IsFillerUnit v rest) : IsFiller v rest := by
    have hall : IsFiller (v ++ []) rest := .unit h .empty
    rwa [List.append_nil] at hall
  cases h with
  | blank hc => exact hunit (.blank hc)
  | continuation => exact hunit .continuation
  | returnContinuation => exact hunit .returnContinuation
  | @lineComment body h =>
      have hnewline : IsFiller ['\n'] rest := hunit (.blank (by decide))
      exact .unit (u := '/' :: '/' :: body) (.lineComment (h.extend rest (by simp))) hnewline
  | blockComment h => exact hunit (.blockComment h)

/-- A separator is filler in front of everything. -/
theorem IsSeparator.isFiller (h : IsSeparator cs) (rest : List Char) : IsFiller cs rest := by
  obtain ⟨c, units, hc, hunits, rfl⟩ := h
  have hflatten : IsFiller units.flatten rest := by
    induction units with
    | nil => exact .empty
    | cons u units ih =>
        obtain ⟨hu, hunits⟩ := List.forall_mem_cons.1 hunits
        exact (hu.isFiller _).append (ih hunits)
  exact .unit (u := [c]) (.blank hc) hflatten

/-! ### Filler in front of more text -/

/-- A piece of filler with something behind it is a piece of filler in front of more as well. -/
theorem IsFillerUnit.extend (h : IsFillerUnit u rest) (hne : rest ≠ []) :
    IsFillerUnit u (rest ++ more) := by
  cases h with
  | blank hc => exact .blank hc
  | continuation => exact .continuation
  | returnContinuation => exact .returnContinuation
  | lineComment h => exact .lineComment (h.extend more hne)
  | blockComment h => exact .blockComment h

theorem IsFiller.extend (h : IsFiller gap rest) (hne : rest ≠ []) :
    IsFiller gap (rest ++ more) := by
  induction h with
  | empty => exact .empty
  | unit hu _ ih =>
      refine .unit ?_ (ih hne)
      rw [← List.append_assoc]
      exact hu.extend more (by simp [hne])

/-- Filler at the end of a text is filler in front of more text, unless it ends in a comment to the
end of the line. -/
theorem IsFiller.extend_end (h : IsFiller gap [])
    (hopen : ∀ v body, gap = v ++ '/' :: '/' :: body → IsFiller v ('/' :: '/' :: body) →
      ¬ IsLineComment body []) : IsFiller gap more := by
  generalize hrest : ([] : List Char) = rest at h
  induction h with
  | empty => exact .empty
  | @unit u v rest hu hv ih =>
      subst hrest
      rw [List.append_nil] at hu
      refine .unit ?_ (ih (fun v' body hv' hfiller => ?_) rfl)
      · cases v with
        | cons c v => exact hu.extend more (by simp)
        | nil =>
            cases hu with
            | blank hc => exact .blank hc
            | continuation => exact .continuation
            | returnContinuation => exact .returnContinuation
            | lineComment h => exact absurd h (hopen [] _ (by simp) .empty)
            | blockComment h => exact .blockComment h
      · refine hopen (u ++ v') body (by rw [hv', List.append_assoc]) (.unit ?_ hfiller)
        rwa [← hv']

/-! ### Lexemes in front of more text -/

/-- Where no filler starts, none starts if a blank and more text are put behind. -/
theorem StartsNoFiller.extend (h : StartsNoFiller cs) (hne : cs ≠ []) (hc : isBlank c = true) :
    StartsNoFiller (cs ++ c :: more) := by
  intro d r heq
  obtain ⟨e, cs, rfl⟩ := List.exists_cons_of_ne_nil hne
  obtain ⟨rfl, rfl⟩ := List.cons.inj heq
  obtain ⟨hblank, hbackslash, hslash⟩ := h e cs rfl
  refine ⟨hblank, hbackslash, fun he => ?_⟩
  cases cs with
  | cons d cs => exact hslash he
  | nil =>
      constructor
      · rintro ⟨⟩
        exact absurd hc (by decide)
      · rintro ⟨⟩
        exact absurd hc (by decide)

/-- Only strings hold blanks. -/
theorem IsLexeme.isBlank_of_mem {kind : TokenKind} {w : List Char} (h : IsLexeme kind w)
    (hkind : kind ≠ .string) : ∀ c ∈ w, isBlank c = false := by
  have hdigits {ds : List Char} (hds : ∀ d ∈ ds, isDigit d = true) :
      ∀ d ∈ ds, isBlank d = false :=
    fun d hd => (isBlank_of_isWordPart (isWordPart_of_isDigit (hds d hd))).1
  cases h with
  | word hc hcs =>
      refine List.forall_mem_cons.2 ⟨?_, fun d hd => (isBlank_of_isWordPart (hcs d hd)).1⟩
      exact (isBlank_of_isWordPart (isWordPart_of_isWordStart hc)).1
  | integer _ hds => exact hdigits hds
  | fraction _ hds _ hfs =>
      exact List.forall_mem_append.2
        ⟨hdigits hds, List.forall_mem_cons.2 ⟨by decide, hdigits hfs⟩⟩
  | string => exact absurd rfl hkind
  | symbol s =>
      have hall : (s.chars.all fun c => !isBlank c) = true := by cases s <;> decide
      simpa using hall

/-- The longest lexeme in front of a text is the longest one if a blank and more text are put
behind. -/
theorem IsLongest.extend {kind : TokenKind} {w : List Char} (h : IsLongest kind w rest)
    (hc : isBlank c = true) : IsLongest kind w (rest ++ c :: more) := by
  obtain ⟨d, ds, hw⟩ := List.exists_cons_of_ne_nil h.isLexeme.ne_nil
  by_cases hquote : isQuote d = true
  · -- a string is closed by its second quotation mark
    have hstring := h.isLexeme
    rw [hw] at hstring
    obtain ⟨rfl, body, rfl, hbody⟩ := hstring.of_isQuote hquote
    rw [hw]
    exact isLongest_string hquote hbody
  · refine ⟨h.isLexeme, fun k v r heq hv => ?_⟩
    have hkind : k ≠ .string := by
      rintro rfl
      obtain ⟨q, body, hq, -, rfl⟩ := hv.of_string
      rw [hw] at heq
      obtain ⟨rfl, -⟩ := List.cons.inj heq
      exact hquote hq
    rw [← List.append_assoc] at heq
    obtain ⟨x, hx, hr⟩ | ⟨x, hx, hr⟩ := List.append_eq_append_iff.1 heq
    · exact h.longest k v x (by rw [hx]) hv
    · cases x with
      | nil => exact h.longest k v [] (by simpa using hx) hv
      | cons y x =>
          obtain ⟨rfl, -⟩ := List.cons.inj hr
          have hblank := hv.isBlank_of_mem hkind c (by simp [hx])
          exact absurd hc (by simp [hblank])

/-- What is cut from the front of a text is cut from it as well if a blank and more text are put
behind. -/
theorem Cuts.extend {r left : Remaining} {pieces : List Piece} (h : Cuts r pieces left)
    (hc : isBlank c = true) :
    Cuts ⟨r.position, r.chars ++ c :: more⟩ pieces ⟨left.position, left.chars ++ c :: more⟩ := by
  induction h with
  | none => exact .none
  | @piece p gap rest t pieces left hgap hstart ht hposition _ ih =>
      have hne : t.text.toList ++ rest ≠ [] := by simp [ht.isLexeme.ne_nil]
      have hgap' := hgap.extend (c :: more) hne
      have hstart' := hstart.extend more hne hc
      simp only [List.append_assoc] at hgap' hstart' ⊢
      exact .piece hgap' hstart' (ht.extend more hc) hposition ih

end

/-! ### Streams -/

namespace TokenStream

variable {p : Position} {gap cs : List Char}

/-- Filler in front of a text only shifts the place where the text starts. -/
theorem ofRemaining_of_isFiller (h : IsFiller gap cs) :
    ofRemaining ⟨p, gap ++ cs⟩ = ofRemaining ⟨p.after gap, cs⟩ := by
  have htoken : Scan.token ⟨p, gap ++ cs⟩ = Scan.token ⟨p.after gap, cs⟩ := by
    simp only [Scan.token, bind, EStateM.bind, Scan.filler, Scan.pass, h.skipFiller_eq,
      Remaining.behind, Position.after_append]
  cases hscan : Scan.token ⟨p.after gap, cs⟩ with
  | error e r => rw [ofRemaining_of_error hscan, ofRemaining_of_error (htoken.trans hscan)]
  | ok t r =>
      by_cases ht : t.kind = .endOfInput
      · rw [ofRemaining_of_end hscan ht, ofRemaining_of_end (htoken.trans hscan) ht]
      · rw [ofRemaining_of_token hscan ht, ofRemaining_of_token (htoken.trans hscan) ht]

/-- The stream of two texts with complete filler between them, that starts with a blank: the tokens
of the first text without its end of input, and then the stream of the second text, shifted by what
stands in front of it. The first text has to be cut up to its end, and must not end in a comment
that would go on. -/
theorem ofText_separated (u f w : String) (hu : (ofText u).failure = none)
    (hopen : ¬ EndsInComment u) (hf : IsSeparator f.toList) :
    ofText (u ++ f ++ w) =
      ⟨(ofText u).tokens.dropLast ++ (ofText w).tokens.map (Token.shift (u ++ f).toList),
        (ofText w).failure.map (LexError.shift (u ++ f).toList)⟩ := by
  obtain ⟨pieces, gap, rest, hcut⟩ := exists_isCut u
  obtain rfl := hcut.rest_eq_nil hu
  have hseparator := hf.isFiller w.toList
  obtain ⟨c, units, hc, -, hchars⟩ := hf
  have hgap : IsFiller (gap ++ f.toList) w.toList := by
    refine (hcut.filler.extend_end (f.toList ++ w.toList) fun v body hv hfiller hbody => ?_).append
      hseparator
    exact hopen ⟨pieces, v, body, hv ▸ hcut, hfiller, hbody⟩
  have hcuts := hcut.cuts.extend (units.flatten ++ w.toList) hc
  rw [← List.cons_append, ← hchars] at hcuts
  have hbefore : (Position.start.after (pieces.flatMap Piece.chars)).after (gap ++ f.toList) =
      Position.start.shift (u ++ f).toList := by
    rw [← Position.after_append, ← Position.after_eq_shift, String.toList_append, hcut.toList_eq]
    simp only [List.append_nil, List.append_assoc]
  have hwhole : Remaining.ofText (u ++ f ++ w) =
      ⟨(Remaining.ofText u).position, (Remaining.ofText u).chars ++ (f.toList ++ w.toList)⟩ := by
    simp only [Remaining.ofText, String.toList_append, List.append_assoc]
  have hbehind : ofRemaining ⟨Position.start.after (pieces.flatMap Piece.chars),
      gap ++ [] ++ (f.toList ++ w.toList)⟩ = (ofText w).shift (u ++ f).toList := by
    rw [List.append_nil, ← List.append_assoc, ofRemaining_of_isFiller hgap, hbefore]
    exact ofRemaining_shift _ (.ofText w) (Int.le_refl 1)
  rw [ofText, hwhole, ofRemaining_of_cuts hcuts, hbehind, hcut.ofText_of_end,
    List.dropLast_concat]
  rfl

/-- A line comment and the newline behind it stand between two texts. -/
theorem ofText_separated_comment :
    ofText ("a" ++ " // b\n" ++ "-c") =
      ⟨[⟨.identifier, "a", ⟨0, 1, 1⟩⟩, ⟨.symbol .minus, "-", ⟨7, 2, 1⟩⟩,
        ⟨.identifier, "c", ⟨8, 2, 2⟩⟩, ⟨.endOfInput, "", ⟨9, 2, 3⟩⟩], none⟩ := by
  have hfirst : ofText "a" =
      ⟨[⟨.identifier, "a", ⟨0, 1, 1⟩⟩, ⟨.endOfInput, "", ⟨1, 1, 2⟩⟩], none⟩ := by decide +kernel
  have hsecond : ofText "-c" = ⟨[⟨.symbol .minus, "-", ⟨0, 1, 1⟩⟩,
      ⟨.identifier, "c", ⟨1, 1, 2⟩⟩, ⟨.endOfInput, "", ⟨2, 1, 3⟩⟩], none⟩ := by decide +kernel
  have hopen : ¬ EndsInComment "a" := by
    rintro ⟨pieces, gap, body, hcut, -⟩
    have hmem : '/' ∈ "a".toList := by rw [hcut.toList_eq]; simp
    simp at hmem
  have hseparator : IsSeparator " // b\n".toList := by
    have hbody : IsLineComment [' ', 'b'] ['\n'] := by
      refine ⟨fun a b hab => ?_, fun _ => ⟨rfl, ?_⟩⟩
      · have hmem : '\n' ∈ [' ', 'b'] := by rw [hab]; simp
        simp at hmem
      · rintro (hodd | ⟨b, hb, -⟩)
        · exact absurd hodd (by decide)
        · have hlast : [' '] ++ ['b'] = b ++ ['\r'] := hb
          exact absurd (List.append_singleton_inj.1 hlast).2 (by decide)
    exact ⟨' ', [['/', '/', ' ', 'b', '\n']], by decide,
      List.forall_mem_singleton.2 (.lineComment hbody), rfl⟩
  rw [ofText_separated _ _ _ (by rw [hfirst]) hopen hseparator, hfirst, hsecond]
  decide

end TokenStream

end Sigil
