import Sigil.Proofs.Token.Stream

/-!
# Texts put together

The tokens of a text that is put together from parts. A part is cut in front of what follows it,
since its last token might go on there; for each kind of token this depends on one or two characters
behind it.

## Main definitions

* `Lexes`: the tokens of a part of a text.
* `Symbol.Stands`, `EndsWord`: what may stand behind a symbol, and behind any other token.
* `Yields`: what a text is cut into, wherever it stands.

## Main results

* `Lexes.append`, `Lexes.gap`: parts one after the other, and blanks in front of a part.
* `Lexes.symbol`, `Lexes.word`: the parts that are a single token.
* `Yields.line`: what a text of lines is cut into.
-/

namespace Sigil

/-- At the place `p`, and in front of `rest`, the part `cs` of a text is cut into the tokens. -/
def Lexes (p : Position) (cs rest : List Char) (ts : List Token) : Prop :=
  ∃ pieces, Cuts ⟨p, cs ++ rest⟩ pieces ⟨p.after cs, rest⟩ ∧ pieces.map Piece.token = ts

/-! ### Parts one after the other -/

/-- Pieces are cut off behind other pieces. -/
theorem Cuts.append {r m left : Remaining} {pieces pieces' : List Piece} (h : Cuts r pieces m)
    (h' : Cuts m pieces' left) : Cuts r (pieces ++ pieces') left := by
  induction h with
  | none => exact h'
  | piece hgap hstart ht hposition _ ih => exact .piece hgap hstart ht hposition (ih h')

/-- Filler behind filler is filler. -/
theorem IsFiller.append {u v rest : List Char} (hu : IsFiller u (v ++ rest))
    (hv : IsFiller v rest) : IsFiller (u ++ v) rest := by
  generalize hcs : v ++ rest = cs at hu
  induction hu with
  | empty => exact hv
  | unit hunit _ ih =>
      subst hcs
      rw [List.append_assoc]
      exact .unit (by rw [List.append_assoc]; exact hunit) (ih rfl)

/-- Blanks are filler. -/
theorem isFiller_of_blanks {gap : List Char} (h : ∀ c ∈ gap, isBlank c = true)
    (rest : List Char) : IsFiller gap rest := by
  induction gap with
  | nil => exact .empty
  | cons c gap ih =>
      obtain ⟨hc, hgap⟩ := List.forall_mem_cons.1 h
      exact .unit (u := [c]) (.blank hc) (ih hgap)

namespace Lexes

variable {p : Position} {cs v w rest : List Char} {ts us : List Token}

/-- Nothing is cut into no tokens. -/
theorem nil : Lexes p [] rest [] :=
  ⟨[], .none, rfl⟩

/-- One part after the other. -/
theorem append (hv : Lexes p v (w ++ rest) ts) (hw : Lexes (p.after v) w rest us) :
    Lexes p (v ++ w) rest (ts ++ us) := by
  obtain ⟨pieces, hv, rfl⟩ := hv
  obtain ⟨pieces', hw, rfl⟩ := hw
  refine ⟨pieces ++ pieces', ?_, List.map_append⟩
  rw [List.append_assoc, Position.after_append]
  exact hv.append hw

/-- Filler in front of a part changes nothing but the gap in front of the first token. -/
theorem gap {gap : List Char} (hgap : IsFiller gap (cs ++ rest))
    (h : Lexes (p.after gap) cs rest ts)
    (hne : ts ≠ []) : Lexes p (gap ++ cs) rest ts := by
  obtain ⟨pieces, h, rfl⟩ := h
  rw [← Position.after_append] at h
  generalize hr : (⟨p.after gap, cs ++ rest⟩ : Remaining) = r at h
  cases h with
  | none => exact absurd rfl hne
  | @piece q g rest' t pieces _ hgap' hstart ht hposition h =>
      obtain ⟨rfl, hcs⟩ := Remaining.mk.inj hr
      refine ⟨⟨gap ++ g, t⟩ :: pieces, ?_, rfl⟩
      rw [hcs] at hgap
      rw [List.append_assoc, hcs, ← List.append_assoc gap]
      exact .piece (hgap.append hgap') hstart ht (by rw [hposition, Position.after_append]) h

/-- A part that is a single token. -/
theorem token {kind : TokenKind} (hstart : StartsNoFiller (cs ++ rest))
    (h : IsLongest kind cs rest) : Lexes p cs rest [⟨kind, String.ofList cs, p⟩] := by
  have htext : (String.ofList cs).toList = cs := String.toList_ofList
  generalize ht : (⟨kind, String.ofList cs, p⟩ : Token) = t
  have hposition : t.position = p := by rw [← ht]
  have hchars : t.text.toList = cs := by rw [← ht]; exact htext
  have hkind : t.kind = kind := by rw [← ht]
  have hcuts : Cuts ⟨p, [] ++ (t.text.toList ++ rest)⟩ [⟨[], t⟩] ⟨t.finish, rest⟩ :=
    .piece .empty (by rw [hchars]; exact hstart) (by rw [hchars, hkind]; exact h) hposition .none
  rw [Token.finish, hchars, hposition, List.nil_append] at hcuts
  exact ⟨[⟨[], t⟩], hcuts, rfl⟩

/-- Where a part starts with no filler, its first token starts. -/
theorem head_eq {c : Char} {r : List Char} {o : Token} (h : Lexes p (c :: r) rest (o :: ts))
    (hstart : StartsNoFiller (c :: r ++ rest)) :
    IsLexeme o.kind o.text.toList ∧ o.text.toList.head? = some c := by
  obtain ⟨pieces, hcuts, hmap⟩ := h
  generalize hr : (⟨p, c :: r ++ rest⟩ : Remaining) = source at hcuts
  cases hcuts with
  | none => cases hmap
  | @piece q gap behind t pieces _ hgap _ ht _ _ =>
      obtain ⟨rfl, -⟩ := List.cons.inj hmap
      obtain ⟨rfl, hchars⟩ := Remaining.mk.inj hr
      refine ⟨ht.isLexeme, ?_⟩
      rw [hchars] at hstart
      cases hgap with
      | empty =>
          obtain ⟨d, ds, hd⟩ := List.exists_cons_of_ne_nil ht.isLexeme.ne_nil
          rw [hd] at hchars ⊢
          rw [(List.cons.inj hchars).1]
          rfl
      | unit hunit _ =>
          rw [List.append_assoc] at hstart
          exact absurd hstart hunit.not_startsNoFiller

/-- A whole text that is a part has the tokens of the part and an end of input. -/
theorem ofText_eq {text : String} (h : Lexes .start text.toList [] ts) :
    ∃ e, e.kind = .endOfInput ∧ TokenStream.ofText text = ⟨ts ++ [e], none⟩ := by
  obtain ⟨pieces, hcuts, rfl⟩ := h
  have hchars : text.toList = pieces.flatMap Piece.chars := by
    simpa only [List.append_nil] using hcuts.chars_eq
  rw [List.append_nil, hchars] at hcuts
  have hcut : IsCut text pieces [] [] :=
    ⟨by rw [Remaining.ofText, hchars]; exact hcuts, .empty, .inl rfl⟩
  exact ⟨_, rfl, hcut.ofText_of_end⟩

/-- The tokens of a part are no ends of input. -/
theorem kind_ne (h : Lexes p cs rest ts) : ∀ t ∈ ts, t.kind ≠ .endOfInput := by
  obtain ⟨pieces, hcuts, rfl⟩ := h
  intro t ht
  obtain ⟨piece, hpiece, rfl⟩ := List.mem_map.1 ht
  exact hcuts.kind_ne piece hpiece

end Lexes

/-! ### Symbols -/

namespace Symbol

/-- The characters that make something else of a symbol when they follow it. -/
def extensions : Symbol → List Char
  | lt | not => ['=']
  | gt => ['=', '>']
  | colon => [':']
  | divide => ['/', '*']
  | _ => []

/-- The text may follow the symbol. -/
def Stands (s : Symbol) (rest : List Char) : Prop :=
  ∀ c, rest.head? = some c → c ∉ s.extensions

/-- A symbol that is the start of another one is made the other one by a character. -/
theorem mem_extensions {s s' : Symbol} {c : Char} (h : s'.chars = s.chars ++ [c]) :
    c ∈ s.extensions := by
  have hfront := ofChars?_chars s
  have hchars : s.chars = s'.chars.dropLast := by rw [h, List.dropLast_concat]
  have hlast : s'.chars.getLast? = some c := by rw [h, List.getLast?_concat]
  rw [hchars] at hfront
  cases s' <;> first
    | (cases hfront; cases hlast; decide)
    | cases hfront

/-- A symbol that stands where it is neither is filler nor starts a comment. -/
theorem Stands.startsNoFiller {s : Symbol} {rest : List Char} (h : s.Stands rest) :
    StartsNoFiller (s.chars ++ rest) := by
  have hdivide : s ≠ .divide → ∀ c cs, s.chars = c :: cs →
      isBlank c = false ∧ c ≠ '\\' ∧ c ≠ '/' := by
    intro hs c cs hcs
    cases s <;> simp only [chars, List.cons.injEq] at hcs <;> obtain ⟨rfl, -⟩ := hcs <;>
      first
        | exact absurd rfl hs
        | decide
  intro c r heq
  by_cases hs : s = .divide
  · subst hs
    obtain ⟨rfl, rfl⟩ := List.cons.inj heq
    refine ⟨by decide, by decide, fun _ => ⟨fun hr => ?_, fun hr => ?_⟩⟩
    · exact h _ hr (by decide)
    · exact h _ hr (by decide)
  · obtain ⟨d, cs, hcs, -⟩ := s.chars_eq_cons
    obtain ⟨hblank, hbackslash, hslash⟩ := hdivide hs d cs hcs
    rw [hcs] at heq
    obtain ⟨rfl, -⟩ := List.cons.inj heq
    exact ⟨hblank, hbackslash, fun hc => absurd hc hslash⟩

/-- A symbol that no longer one could be in the place of is the longest lexeme. -/
theorem Stands.isLongest {s : Symbol} {rest : List Char} (h : s.Stands rest) :
    IsLongest (.symbol s) s.chars rest := by
  obtain ⟨c, cs, hs, hpart, hquote⟩ := s.chars_eq_cons
  have hfront : c :: (cs ++ rest) = s.chars ++ rest := by rw [hs]; rfl
  refine isLongest_symbol hpart hquote hfront ?_
  intro s' r heq
  rw [hfront] at heq
  rcases s.chars_cases with ⟨a, ha⟩ | ⟨a, b, hab⟩
  · rcases s'.chars_cases with ⟨a', ha'⟩ | ⟨a', b', hab'⟩
    · exact Nat.le_of_eq (by rw [ha, ha']; rfl)
    · -- A longer symbol would end with a character that may not follow.
      rw [ha, hab'] at heq
      obtain ⟨rfl, rfl⟩ := List.cons.inj heq
      exact absurd (mem_extensions (by rw [hab', ha]; rfl)) (h b' rfl)
  · rcases s'.chars_cases with ⟨a', ha'⟩ | ⟨a', b', hab'⟩
    · simp [hab, ha']
    · simp [hab, hab']

end Symbol

/-- Symbols that start no other symbol stand in front of everything. -/
theorem Symbol.stands_of_closed {s : Symbol} (hs : s.extensions = []) (rest : List Char) :
    s.Stands rest := by
  intro c _ hc
  rw [hs] at hc
  cases hc

/-- A symbol stands in front of a character that does not extend it. -/
theorem Symbol.stands_cons {s : Symbol} {c : Char} (hc : c ∉ s.extensions) (rest : List Char) :
    s.Stands (c :: rest) := by
  intro d hd
  obtain rfl := Option.some.inj hd
  exact hc

/-- A symbol in front of a text that may follow it. -/
theorem Lexes.symbol {p : Position} {rest : List Char} (s : Symbol) (h : s.Stands rest) :
    Lexes p s.chars rest [⟨.symbol s, s.spelling, p⟩] :=
  .token h.startsNoFiller h.isLongest

namespace Lexes

variable {p : Position} {cs rest : List Char} {ts : List Token}

/-- A closing mark. -/
theorem closing (s : Symbol) (hs : s.extensions = []) :
    Lexes p s.chars rest [⟨.symbol s, s.spelling, p⟩] :=
  .symbol s (Symbol.stands_of_closed hs rest)

/-- A symbol that starts no other one, in front of a part. -/
theorem behind_closed (s : Symbol) (hs : s.extensions = [])
    (hcs : Lexes (p.after s.chars) cs rest ts) :
    Lexes p (s.chars ++ cs) rest (⟨.symbol s, s.spelling, p⟩ :: ts) :=
  (Lexes.closing s hs).append hcs

/-- A symbol in front of a part. -/
theorem behind_symbol (s : Symbol) (h : s.Stands (cs ++ rest))
    (hcs : Lexes (p.after s.chars) cs rest ts) :
    Lexes p (s.chars ++ cs) rest (⟨.symbol s, s.spelling, p⟩ :: ts) :=
  (Lexes.symbol s h).append hcs

/-- A blank in front of a part. -/
theorem behind_blank {c : Char} (hc : isBlank c = true) (h : Lexes (p.after [c]) cs rest ts)
    (hne : ts ≠ []) : Lexes p (c :: cs) rest ts :=
  .gap (.unit (v := []) (.blank hc) .empty) h hne

end Lexes

/-! ### Words, numbers and strings -/

/-- The text may follow a word, a number or a string: it goes on with none of their characters, and
with no point that has a digit behind it. -/
def EndsWord (rest : List Char) : Prop :=
  ∀ c r, rest = c :: r → isWordPart c = false ∧
    (c = '.' → ∀ d, r.head? = some d → isDigit d = false)

/-- At the end of a text a word ends. -/
theorem endsWord_nil : EndsWord [] :=
  fun c r heq => by cases heq

/-- A character that no word or number goes on with ends them. -/
theorem endsWord_cons {c : Char} {rest : List Char} (hc : isWordPart c = false) (hpoint : c ≠ '.') :
    EndsWord (c :: rest) := by
  intro d r heq
  obtain ⟨rfl, rfl⟩ := List.cons.inj heq
  exact ⟨hc, fun hd => absurd hd hpoint⟩

/-- A bracket, a comma, a colon or a blank ends every word. -/
theorem endsWord_mark {c : Char}
    (hc : c ∈ ['(', ')', '[', ']', '\x7b', '\x7d', ',', ':', ' ', '\n']) (rest : List Char) :
    EndsWord (c :: rest) := by
  simp only [List.mem_cons, List.not_mem_nil, or_false] at hc
  rcases hc with rfl | rfl | rfl | rfl | rfl | rfl | rfl | rfl | rfl | rfl <;>
    exact endsWord_cons (by decide) (by decide)

/-- A name behind a point ends a number in front of the point. -/
theorem endsWord_point {c : Char} {rest : List Char} (hc : isWordStart c = true) :
    EndsWord ('.' :: c :: rest) := by
  intro d r heq
  obtain ⟨rfl, rfl⟩ := List.cons.inj heq
  refine ⟨by decide, fun _ e he => ?_⟩
  obtain rfl := Option.some.inj he
  exact isDigit_of_isWordStart hc

/-- A character of a word is no filler. -/
theorem isBlank_of_isWordPart {c : Char} (h : isWordPart c = true) :
    isBlank c = false ∧ c ≠ '\\' ∧ c ≠ '/' := by
  refine ⟨?_, by rintro rfl; exact absurd h (by decide), by rintro rfl; exact absurd h (by decide)⟩
  have hnat : c.toNat = c.val.toNat := rfl
  simp only [isWordPart, isWordStart, isDigit, Bool.or_eq_true, Bool.and_eq_true, beq_iff_eq,
    decide_eq_true_eq, Char.le_def, UInt32.le_iff_toNat_le] at h
  simp only [isBlank, Bool.or_eq_false_iff, Bool.and_eq_false_iff, decide_eq_false_iff_not,
    beq_eq_false_iff_ne, hnat]
  rcases h with ((rfl | h) | h) | h
  · decide
  · simp at h
    omega
  · simp at h
    omega
  · simp at h
    omega

/-- A quote starts no filler. -/
theorem isBlank_of_isQuote {c : Char} (h : isQuote c = true) :
    isBlank c = false ∧ c ≠ '\\' ∧ c ≠ '/' := by
  simp only [isQuote, Bool.or_eq_true, beq_iff_eq] at h
  rcases h with rfl | rfl <;> decide

/-- What is no blank, slash or backslash starts no filler. -/
theorem startsNoFiller_cons {c : Char} {cs : List Char}
    (h : isBlank c = false ∧ c ≠ '\\' ∧ c ≠ '/') : StartsNoFiller (c :: cs) := by
  intro d r heq
  obtain ⟨rfl, -⟩ := List.cons.inj heq
  exact ⟨h.1, h.2.1, fun hc => absurd hc h.2.2⟩

section

variable {rest : List Char}

/-- No character of a word follows. -/
theorem EndsWord.word (h : EndsWord rest) : ∀ c, rest.head? = some c → isWordPart c = false := by
  intro c hc
  obtain ⟨r, rfl⟩ := List.head?_eq_some_iff.1 hc
  exact (h c r rfl).1

/-- No digit follows. -/
theorem EndsWord.digit (h : EndsWord rest) : ∀ c, rest.head? = some c → isDigit c = false := by
  intro c hc
  cases hd : isDigit c with
  | false => rfl
  | true => exact absurd (isWordPart_of_isDigit hd) (by simp [h.word c hc])

/-- A name or keyword goes on to the last letter or digit. -/
theorem isLongest_of_word {c : Char} {cs : List Char} (hc : isWordStart c = true)
    (hcs : ∀ d ∈ cs, isWordPart d = true) (hrest : EndsWord rest) :
    IsLongest (kindOfWord (c :: cs)) (c :: cs) rest := by
  have hall : ∀ d ∈ c :: cs, isWordPart d = true :=
    List.forall_mem_cons.2 ⟨isWordPart_of_isWordStart hc, hcs⟩
  have hlongest : IsLongest _ (stretch isWordPart (c :: (cs ++ rest))).taken _ := isLongest_word hc
  rw [← List.cons_append, stretch_of_stops hall hrest.word] at hlongest
  exact hlongest

/-- A number goes on to the last digit. -/
theorem isLongest_of_integer {d : Char} {ds : List Char} (hds : ∀ e ∈ d :: ds, isDigit e = true)
    (hrest : EndsWord rest) : IsLongest .number (d :: ds) rest := by
  have hstretch := stretch_of_stops hds hrest.digit
  have hnumeral : numeral (d :: ds ++ rest) = ⟨d :: ds, rest⟩ := by
    rw [numeral_of_stops, hstretch]
    intro e es heq
    rw [hstretch] at heq
    exact (hrest '.' (e :: es) heq).2 rfl e rfl
  have hlongest : IsLongest .number (numeral (d :: (ds ++ rest))).taken _ :=
    isLongest_number (hds d (by simp))
  rw [← List.cons_append, hnumeral] at hlongest
  exact hlongest

/-- A number with a point goes on to the last digit behind it. -/
theorem isLongest_of_fraction {d f : Char} {ds fs : List Char}
    (hds : ∀ e ∈ d :: ds, isDigit e = true) (hfs : ∀ e ∈ f :: fs, isDigit e = true)
    (hrest : EndsWord rest) : IsLongest .number (d :: ds ++ '.' :: f :: fs) rest := by
  have hfront : stretch isDigit (d :: ds ++ '.' :: f :: (fs ++ rest)) =
      ⟨d :: ds, '.' :: f :: (fs ++ rest)⟩ := by
    refine stretch_of_stops hds fun c hc => ?_
    obtain rfl := Option.some.inj hc
    decide
  have hbehind : stretch isDigit (f :: (fs ++ rest)) = ⟨f :: fs, rest⟩ :=
    stretch_of_stops hfs hrest.digit
  have hnumeral := numeral_of_point hfront (hfs f (by simp))
  rw [hbehind] at hnumeral
  have hlongest : IsLongest .number (numeral (d :: (ds ++ '.' :: f :: (fs ++ rest)))).taken _ :=
    isLongest_number (hds d (by simp))
  rw [← List.cons_append, hnumeral] at hlongest
  exact hlongest

/-- A lexeme other than a symbol is the longest one in front of a text that may follow it. -/
theorem IsLexeme.isLongest {kind : TokenKind} {w : List Char} (h : IsLexeme kind w)
    (hkind : ∀ s, kind ≠ .symbol s) (hrest : EndsWord rest) :
    IsLongest kind w rest ∧ StartsNoFiller (w ++ rest) := by
  cases h with
  | word hc hcs =>
      exact ⟨isLongest_of_word hc hcs hrest,
        startsNoFiller_cons (isBlank_of_isWordPart (isWordPart_of_isWordStart hc))⟩
  | integer hne hds =>
      obtain ⟨d, ds, rfl⟩ := List.exists_cons_of_ne_nil hne
      exact ⟨isLongest_of_integer hds hrest,
        startsNoFiller_cons (isBlank_of_isWordPart (isWordPart_of_isDigit (hds d (by simp))))⟩
  | fraction hne hds hne' hfs =>
      obtain ⟨d, ds, rfl⟩ := List.exists_cons_of_ne_nil hne
      obtain ⟨f, fs, rfl⟩ := List.exists_cons_of_ne_nil hne'
      exact ⟨isLongest_of_fraction hds hfs hrest,
        startsNoFiller_cons (isBlank_of_isWordPart (isWordPart_of_isDigit (hds d (by simp))))⟩
  | string hq hbody =>
      exact ⟨isLongest_string hq hbody, startsNoFiller_cons (isBlank_of_isQuote hq)⟩
  | symbol s => exact absurd rfl (hkind s)

end

/-- A word, a number or a string in front of a text that may follow it. -/
theorem Lexes.word {p : Position} {kind : TokenKind} {cs rest : List Char} (h : IsLexeme kind cs)
    (hkind : ∀ s, kind ≠ .symbol s) (hrest : EndsWord rest) :
    Lexes p cs rest [⟨kind, String.ofList cs, p⟩] := by
  obtain ⟨hlongest, hstart⟩ := h.isLongest hkind hrest
  exact .token hstart hlongest

/-- A point and a name end a number in front of them. -/
theorem IsLexeme.endsWord {w : List Char} (h : IsLexeme .identifier w) (rest : List Char) :
    EndsWord ('.' :: w ++ rest) := by
  obtain ⟨c, r, rfl⟩ := List.exists_cons_of_ne_nil h.ne_nil
  rcases h.cases_head with ⟨hc, -⟩ | ⟨-, hk⟩ | ⟨-, hk, -⟩ | ⟨-, -, s, hk, -⟩
  · exact endsWord_point hc
  · cases hk
  · cases hk
  · cases hk

/-! ### Symbols between operands -/

/-- The text starts with a character that starts no filler and makes nothing else of a symbol in
front of it. -/
def StartsOperand (w : List Char) : Prop :=
  ∃ c r, w = c :: r ∧ c ∉ ['=', ':', '\\', '/'] ∧ isBlank c = false

/-- A letter or a digit may start an operand. -/
theorem startsOperand_of_isWordPart {c : Char} (hc : isWordPart c = true) (r : List Char) :
    StartsOperand (c :: r) := by
  obtain ⟨hblank, hescape, hslash⟩ := isBlank_of_isWordPart hc
  refine ⟨c, r, rfl, ?_, hblank⟩
  have heq : c ≠ '=' := by
    rintro rfl
    exact absurd hc (by decide)
  have hcolon : c ≠ ':' := by
    rintro rfl
    exact absurd hc (by decide)
  simp [heq, hcolon, hescape, hslash]

/-- A quote may start an operand. -/
theorem startsOperand_of_isQuote {c : Char} (hc : isQuote c = true) (r : List Char) :
    StartsOperand (c :: r) := by
  simp only [isQuote, Bool.or_eq_true, beq_iff_eq] at hc
  rcases hc with rfl | rfl <;> exact ⟨_, _, rfl, by decide, by decide⟩

section

variable {s : Symbol} {w : List Char}

/-- What is read first stands in front of everything that follows. -/
theorem StartsOperand.append {cs : List Char} (h : StartsOperand w) : StartsOperand (w ++ cs) := by
  obtain ⟨c, r, rfl, hc⟩ := h
  exact ⟨c, r ++ cs, rfl, hc⟩

/-- An operand makes nothing else of the symbol in front of it. -/
theorem StartsOperand.stands (h : StartsOperand w)
    (hs : ∀ c ∈ s.extensions, c ∈ ['=', ':', '\\', '/']) : s.Stands w := by
  obtain ⟨c, r, rfl, hc, -⟩ := h
  exact Symbol.stands_cons (fun hmem => hc (hs c hmem)) r

/-- A single colon stands in front of an operand, and in front of another mark if there is none. -/
theorem stands_colon (h : w = [] ∨ StartsOperand w) {c : Char} (hc : c ≠ ':') (rest : List Char) :
    Symbol.colon.Stands (w ++ c :: rest) := by
  rcases h with rfl | hstart
  · exact Symbol.stands_cons (by simpa [Symbol.extensions] using hc) _
  · exact hstart.append.stands (by simp [Symbol.extensions])

/-- In front of a colon a word ends. -/
theorem endsWord_colon (rest : List Char) : EndsWord (':' :: rest) :=
  endsWord_mark (by simp) rest

end

/-- The place behind a symbol with a blank on each side. -/
def Position.beyond (p : Position) (s : Symbol) : Position :=
  ((p.after [' ']).after s.chars).after [' ']

/-- A symbol with a blank on each side, in front of a part. -/
theorem Lexes.between_blanks {p : Position} {cs rest : List Char} {ts : List Token} (s : Symbol)
    (hs : ' ' ∉ s.extensions) (h : Lexes (p.beyond s) cs rest ts) (hne : ts ≠ []) :
    Lexes p (' ' :: (s.chars ++ ' ' :: cs)) rest
      (⟨.symbol s, s.spelling, p.after [' ']⟩ :: ts) :=
  .behind_blank rfl (.behind_symbol s (Symbol.stands_cons hs _) (.behind_blank rfl h hne)) (by simp)

/-! ### Texts and what they are cut into -/

/-- The token is a symbol as it is spelled. -/
def Token.IsSymbol (t : Token) (s : Symbol) : Prop :=
  t.kind = .symbol s ∧ t.text = s.spelling

/-- Wherever the text stands in front of something that ends a word, it is cut into tokens with the
property. -/
def Yields (Q : List Token → Prop) (cs : List Char) : Prop :=
  ∀ p rest, EndsWord rest → ∃ ts, Lexes p cs rest ts ∧ Q ts

namespace Yields

variable {Q Q' : List Token → Prop} {cs v w gap : List Char}

/-- A larger set of tokens is yielded as well. -/
theorem mono (h : Yields Q cs) (hQ : ∀ ts, Q ts → Q' ts) : Yields Q' cs := by
  intro p rest hrest
  obtain ⟨ts, hts, hq⟩ := h p rest hrest
  exact ⟨ts, hts, hQ ts hq⟩

/-- Nothing yields no tokens. -/
theorem nil (h : Q []) : Yields Q [] :=
  fun _ _ _ => ⟨[], .nil, h⟩

/-- Blanks in front of a text make no difference. -/
theorem behind_blanks (h : Yields Q cs) (hgap : ∀ c ∈ gap, isBlank c = true)
    (hne : ∀ ts, Q ts → ts ≠ []) : Yields Q (gap ++ cs) := by
  intro p rest hrest
  obtain ⟨ts, hts, hq⟩ := h (p.after gap) rest hrest
  exact ⟨ts, .gap (isFiller_of_blanks hgap _) hts (hne ts hq), hq⟩

/-- One line behind the other. -/
theorem line (hv : Yields Q v) (hw : Yields Q' w) (hne : ∀ ts, Q' ts → ts ≠ []) :
    Yields (fun ts => ∃ vs ws, ts = vs ++ ws ∧ Q vs ∧ Q' ws) (v ++ '\n' :: w) := by
  intro p rest hrest
  obtain ⟨vs, hvs, hq⟩ := hv p ('\n' :: w ++ rest) (endsWord_mark (by simp) _)
  obtain ⟨ws, hws, hq'⟩ := hw ((p.after v).after ['\n']) rest hrest
  exact ⟨vs ++ ws, hvs.append (.behind_blank rfl hws (hne ws hq')), vs, ws, rfl, hq, hq'⟩

end Yields

end Sigil
