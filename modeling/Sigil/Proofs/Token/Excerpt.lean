import Sigil.Proofs.Parser.Run
import Sigil.Proofs.Token.Shift

/-!
# Excerpts of a text

An excerpt from the start of one token up to the end of another has the tokens that stand between
them, and no others. Where the text ends earlier no token gets longer and no filler goes on: what
is the longest lexeme, filler, or no filler in front of more text is the same in front of less.

## Main definitions

* `excerpt`: the text between two offsets.

## Main results

* `Cuts.alone`: what is cut from the front of a text is cut from that front by itself.
* `IsCut.ofText_excerpt`: the stream of an excerpt.
-/

namespace Sigil

/-- The text between two offsets. -/
def excerpt (text : String) (start stop : Int) : String :=
  String.ofList (between text.toList start stop)

/-! ### Less text behind -/

section

variable {u gap rest more : List Char}

/-- A comment stays one if less follows. -/
theorem IsLineComment.shorten {body : List Char} (h : IsLineComment body (rest ++ more)) :
    IsLineComment body rest := by
  refine ⟨h.hidden, fun hne => ?_⟩
  obtain ⟨c, rest, rfl⟩ := List.exists_cons_of_ne_nil hne
  exact h.ends (by simp)

/-- A unit of filler stays one if less follows. -/
theorem IsFillerUnit.shorten (h : IsFillerUnit u (rest ++ more)) : IsFillerUnit u rest := by
  cases h with
  | blank hc => exact .blank hc
  | continuation => exact .continuation
  | returnContinuation => exact .returnContinuation
  | lineComment h => exact .lineComment h.shorten
  | blockComment h => exact .blockComment h

/-- Filler stays filler if less follows. -/
theorem IsFiller.shorten (h : IsFiller gap (rest ++ more)) : IsFiller gap rest := by
  generalize hwhole : rest ++ more = whole at h
  induction h with
  | empty => exact .empty
  | unit hu _ ih =>
      subst hwhole
      rw [← List.append_assoc] at hu
      exact .unit hu.shorten (ih rfl)

/-- Where no filler starts none does with less behind it. -/
theorem StartsNoFiller.shorten (h : StartsNoFiller (rest ++ more)) : StartsNoFiller rest := by
  rintro c cs rfl
  obtain ⟨hblank, hbackslash, hslash⟩ := h c (cs ++ more) rfl
  refine ⟨hblank, hbackslash, fun hc => ?_⟩
  cases cs with
  | nil => simp
  | cons d cs => exact hslash hc

/-- The longest lexeme is the longest with less behind it. -/
theorem IsLongest.shorten {kind : TokenKind} {w : List Char} (h : IsLongest kind w (rest ++ more)) :
    IsLongest kind w rest := by
  refine ⟨h.isLexeme, fun k v r heq hv => h.longest k v (r ++ more) ?_ hv⟩
  rw [← List.append_assoc, heq, List.append_assoc]

end

section

variable {r left : Remaining} {pieces before behind : List Piece}

/-- What is cut from the front of a text is cut from that front by itself. -/
theorem Cuts.alone (h : Cuts r pieces left) :
    Cuts ⟨r.position, pieces.flatMap Piece.chars⟩ pieces ⟨left.position, []⟩ := by
  induction h with
  | none => exact .none
  | @piece p gap rest t pieces left hgap hstart ht hposition h ih =>
      have hrest : rest = pieces.flatMap Piece.chars ++ left.chars := h.chars_eq
      rw [hrest] at ht
      rw [hrest, ← List.append_assoc] at hgap hstart
      simp only [List.flatMap_cons, Piece.chars, List.append_assoc]
      exact .piece hgap.shorten hstart.shorten ht.shorten hposition ih

/-- A text is cut into some pieces and then into others. -/
theorem Cuts.split (h : Cuts r (before ++ behind) left) :
    ∃ m, Cuts r before m ∧ Cuts m behind left := by
  induction before generalizing r with
  | nil => exact ⟨r, .none, h⟩
  | cons piece before ih =>
      cases h with
      | piece hgap hstart ht hposition h =>
          obtain ⟨m, hbefore, hbehind⟩ := ih h
          exact ⟨m, .piece hgap hstart ht hposition hbefore, hbehind⟩

/-- The last token of some pieces ends where what is left of the text starts. -/
theorem Cuts.lastStop_eq (h : Cuts r pieces left) (hne : pieces ≠ []) :
    lastStop (pieces.map Piece.token) = left.position.offset := by
  obtain ⟨piece, hlast⟩ := Option.ne_none_iff_exists'.1 (mt List.getLast?_eq_none_iff.1 hne)
  rw [lastStop, List.getLast?_map, hlast, h.position_of_getLast hlast, Token.finish,
    Position.offset_after, String.length_toList]
  rfl

/-! ### The tokens of an excerpt -/

section

variable {g x : List Char} {o : Token} {inside : List Piece}

/-- Behind some text `x` and the filler in front of it, the first token of some pieces stands. -/
theorem Cuts.position_eq_shift (h : Cuts r (⟨g, o⟩ :: inside) left)
    (hr : r.position = Position.start.after x) : o.position = Position.start.shift (x ++ g) := by
  cases h with
  | piece _ _ _ hposition =>
      rw [hposition, ← Position.after_eq_shift, Position.after_append]
      exact congrArg (fun p => p.after g) hr

/-- Without the filler in front of the first token, what is cut from the front of a text is a text
by itself. It has the same tokens, seen from its start. -/
theorem Cuts.ofText_inside (h : Cuts r (⟨g, o⟩ :: inside) left)
    (hr : r.position = Position.start.after x) :
    (TokenStream.ofText (String.ofList (o.text.toList ++ inside.flatMap Piece.chars))).shift
      (x ++ g) = ⟨o :: inside.map Piece.token ++ [.endAt left.position], .none⟩ := by
  have hplace := h.position_eq_shift hr
  have hcuts : Cuts ⟨o.position, o.text.toList ++ inside.flatMap Piece.chars⟩ (⟨[], o⟩ :: inside)
      ⟨left.position, []⟩ := by
    cases h with
    | @piece p _ rest _ _ _ _ hstart ht _ h =>
        have hrest : rest = inside.flatMap Piece.chars ++ left.chars := h.chars_eq
        rw [hrest] at ht
        rw [hrest, ← List.append_assoc] at hstart
        exact .piece .empty hstart.shorten ht.shorten rfl h.alone
  have hwhole : (Remaining.ofText (String.ofList (o.text.toList ++
      inside.flatMap Piece.chars))).shift (x ++ g) =
        ⟨o.position, o.text.toList ++ inside.flatMap Piece.chars⟩ := by
    rw [hplace, Remaining.ofText, String.toList_ofList, Remaining.shift]
  rw [TokenStream.ofText, ← TokenStream.ofRemaining_shift _ _ (Int.le_refl 1), hwhole,
    TokenStream.ofRemaining_of_ended hcuts .empty]
  rfl

/-- Tokens end where the characters of their pieces do. -/
theorem Cuts.lastStop_inside (h : Cuts r (⟨g, o⟩ :: inside) left)
    (hr : r.position = Position.start.after x) : lastStop (o :: inside.map Piece.token) =
      (x ++ g).length + (o.text.toList ++ inside.flatMap Piece.chars).length := by
  have hstop := h.lastStop_eq (by simp)
  rw [List.map_cons, h.position_eq, hr, Position.offset_after, Position.offset_after] at hstop
  rw [hstop]
  simp only [List.flatMap_cons, Piece.chars, List.length_append, Position.start]
  omega

end

/-- The stream of an excerpt from the start of one token up to the end of another has the tokens of
the text between them, seen from the start of the excerpt. -/
theorem IsCut.ofText_excerpt {text : String} {gap rest : List Char} {o : Token} {v : List Token}
    (h : IsCut text pieces gap rest) (hv : o :: v <:+: pieces.map Piece.token) :
    ∃ x e, e.kind = .endOfInput ∧
      (TokenStream.ofText (excerpt text o.position.offset (lastStop (o :: v)))).shift x =
        ⟨o :: v ++ [e], none⟩ := by
  obtain ⟨ts, us, hts⟩ := hv
  obtain ⟨front, behind, rfl, hfront, rfl⟩ := List.map_eq_append_iff.1 hts.symm
  obtain ⟨front, inside, rfl, rfl, hinside⟩ := List.map_eq_append_iff.1 hfront
  obtain ⟨⟨g, o⟩, inside, rfl, rfl, rfl⟩ := List.map_eq_cons_iff.1 hinside
  obtain ⟨m', hcuts, -⟩ := h.cuts.split
  obtain ⟨m, hfront, hcuts⟩ := hcuts.split
  have hinside := hcuts.ofText_inside hfront.position_eq
  have hstop := hcuts.lastStop_inside hfront.position_eq
  have hstart : o.position.offset = (front.flatMap Piece.chars ++ g).length := by
    rw [hcuts.position_eq_shift hfront.position_eq]
    exact Int.zero_add _
  have hchars : text.toList = front.flatMap Piece.chars ++ g ++
      (o.text.toList ++ inside.flatMap Piece.chars ++
        (behind.flatMap Piece.chars ++ (gap ++ rest))) := by
    rw [h.toList_eq]
    simp only [List.flatMap_append, List.flatMap_cons, Piece.chars, List.append_assoc]
  rw [excerpt, hchars, between_append hstart hstop]
  exact ⟨_, .endAt m'.position, rfl, hinside⟩

end

end Sigil
