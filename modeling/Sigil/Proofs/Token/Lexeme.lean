import Sigil.Proofs.Token.Filler
import Sigil.Token.Lexeme

/-!
# What lexemes are

The lexemes of the language as sets of texts, one for each kind of token, and the choice among those
that a text starts with: the longest.

## Main definitions

* `IsLexeme`: the texts of each kind.
* `IsLongest`: a lexeme that no other lexeme in front of the same text exceeds.

## Main results

* `IsLexeme.kind_unique`: a text is a lexeme of one kind.
* `lexeme_sound`, `IsLongest.lexeme_eq`: the longest lexeme is what is read.
-/

namespace Sigil

/-- The texts of the lexemes of each kind. -/
inductive IsLexeme : TokenKind → List Char → Prop
  | word {c : Char} {cs : List Char} (hc : isWordStart c = true)
      (hcs : ∀ d ∈ cs, isWordPart d = true) : IsLexeme (kindOfWord (c :: cs)) (c :: cs)
  | integer {ds : List Char} (hne : ds ≠ []) (hds : ∀ d ∈ ds, isDigit d = true) :
      IsLexeme .number ds
  | fraction {ds fs : List Char} (hne : ds ≠ []) (hds : ∀ d ∈ ds, isDigit d = true)
      (hne' : fs ≠ []) (hfs : ∀ d ∈ fs, isDigit d = true) : IsLexeme .number (ds ++ '.' :: fs)
  | string {q : Char} {body : List Char} (hq : isQuote q = true) (hbody : q ∉ body) :
      IsLexeme .string (q :: (body ++ [q]))
  | symbol (s : Symbol) : IsLexeme (.symbol s) s.chars

/-- In front of `rest`, the text `w` is a lexeme, and no lexeme in front of the whole is longer. -/
structure IsLongest (kind : TokenKind) (w rest : List Char) : Prop where
  isLexeme : IsLexeme kind w
  longest : ∀ k v r, v ++ r = w ++ rest → IsLexeme k v → v.length ≤ w.length

/-! ### First characters -/

theorem isDigit_of_isWordStart {c : Char} (h : isWordStart c = true) : isDigit c = false := by
  simp only [isWordStart, isDigit, Bool.or_eq_true, Bool.and_eq_true, beq_iff_eq,
    decide_eq_true_eq, Bool.and_eq_false_iff, decide_eq_false_iff_not] at h ⊢
  simp only [Char.le_def, UInt32.le_iff_toNat_le] at h ⊢
  obtain (rfl | h) | h := h
  · decide
  · simp at h ⊢
    omega
  · simp at h ⊢
    omega

/-- Neither a letter nor a digit is a quotation mark. -/
theorem isQuote_of_isWordPart {c : Char} (h : isWordPart c = true) : isQuote c = false := by
  cases hquote : isQuote c with
  | false => rfl
  | true =>
      simp only [isQuote, Bool.or_eq_true, beq_iff_eq] at hquote
      obtain rfl | rfl := hquote <;> exact absurd h (by decide)

/-- A symbol starts with a character that starts no other lexeme. -/
theorem Symbol.chars_eq_cons (s : Symbol) :
    ∃ c cs, s.chars = c :: cs ∧ isWordPart c = false ∧ isQuote c = false := by
  cases s <;> exact ⟨_, _, rfl, by decide, by decide⟩

/-- What a lexeme is, by its first character. -/
theorem IsLexeme.cases_head {kind : TokenKind} {c : Char} {cs : List Char}
    (h : IsLexeme kind (c :: cs)) :
    (isWordStart c = true ∧ (∀ d ∈ cs, isWordPart d = true) ∧ kind = kindOfWord (c :: cs)) ∨
      (isDigit c = true ∧ kind = .number) ∨
      (isQuote c = true ∧ kind = .string ∧ ∃ body, cs = body ++ [c] ∧ c ∉ body) ∨
      (isWordPart c = false ∧ isQuote c = false ∧ ∃ s : Symbol, kind = .symbol s ∧
        s.chars = c :: cs) := by
  generalize hw : c :: cs = w at h
  cases h with
  | word hc hcs =>
      obtain ⟨rfl, rfl⟩ := List.cons.inj hw
      exact .inl ⟨hc, hcs, rfl⟩
  | integer _ hds => exact .inr (.inl ⟨hds c (by simp [← hw]), rfl⟩)
  | @fraction ds fs hne hds =>
      obtain ⟨d, ds, rfl⟩ := List.exists_cons_of_ne_nil hne
      obtain ⟨rfl, -⟩ := List.cons.inj hw
      exact .inr (.inl ⟨hds c (by simp), rfl⟩)
  | string hq hbody =>
      obtain ⟨rfl, rfl⟩ := List.cons.inj hw
      exact .inr (.inr (.inl ⟨hq, rfl, _, rfl, hbody⟩))
  | symbol s =>
      obtain ⟨d, ds, hs, hword, hquote⟩ := s.chars_eq_cons
      obtain ⟨rfl, rfl⟩ := List.cons.inj (hw.trans hs)
      exact .inr (.inr (.inr ⟨hword, hquote, s, rfl, rfl⟩))

theorem IsLexeme.ne_nil {kind : TokenKind} {w : List Char} (h : IsLexeme kind w) : w ≠ [] := by
  cases h with
  | integer hne => exact hne
  | symbol s =>
      obtain ⟨c, cs, hs, -⟩ := s.chars_eq_cons
      simp [hs]
  | _ => simp

section

variable {kind : TokenKind} {c : Char} {cs : List Char}

theorem isWordPart_of_isWordStart (h : isWordStart c = true) : isWordPart c = true := by
  simp [isWordPart, h]

theorem isWordPart_of_isDigit (h : isDigit c = true) : isWordPart c = true := by
  simp [isWordPart, h]

/-- Only words start with a letter. -/
theorem IsLexeme.of_isWordStart (hc : isWordStart c = true) (h : IsLexeme kind (c :: cs)) :
    (∀ d ∈ cs, isWordPart d = true) ∧ kind = kindOfWord (c :: cs) := by
  obtain ⟨-, h⟩ | ⟨hdigit, -⟩ | ⟨hquote, -⟩ | ⟨hpart, -⟩ := h.cases_head
  · exact h
  · simp [isDigit_of_isWordStart hc] at hdigit
  · simp [isQuote_of_isWordPart (isWordPart_of_isWordStart hc)] at hquote
  · simp [isWordPart_of_isWordStart hc] at hpart

/-- Only numbers start with a digit. -/
theorem IsLexeme.of_isDigit (hc : isDigit c = true) (h : IsLexeme kind (c :: cs)) :
    kind = .number := by
  obtain ⟨hword, -⟩ | ⟨-, h⟩ | ⟨hquote, -⟩ | ⟨hpart, -⟩ := h.cases_head
  · simp [isDigit_of_isWordStart hword] at hc
  · exact h
  · simp [isQuote_of_isWordPart (isWordPart_of_isDigit hc)] at hquote
  · simp [isWordPart_of_isDigit hc] at hpart

/-- Only strings start with a quotation mark. -/
theorem IsLexeme.of_isQuote (hc : isQuote c = true) (h : IsLexeme kind (c :: cs)) :
    kind = .string ∧ ∃ body, cs = body ++ [c] ∧ c ∉ body := by
  obtain ⟨hword, -⟩ | ⟨hdigit, -⟩ | ⟨-, h⟩ | ⟨-, hquote, -⟩ := h.cases_head
  · simp [isQuote_of_isWordPart (isWordPart_of_isWordStart hword)] at hc
  · simp [isQuote_of_isWordPart (isWordPart_of_isDigit hdigit)] at hc
  · exact h
  · simp [hc] at hquote

/-- A string is a text between two equal quotation marks that does not hold the mark. -/
theorem IsLexeme.of_string {w : List Char} (h : IsLexeme .string w) :
    ∃ q body, isQuote q = true ∧ q ∉ body ∧ w = q :: (body ++ [q]) := by
  generalize hkind : TokenKind.string = kind at h
  cases h with
  | word => unfold kindOfWord at hkind; split at hkind <;> cases hkind
  | string hq hbody => exact ⟨_, _, hq, hbody, rfl⟩
  | _ => cases hkind

/-- A single letter is a name. -/
theorem IsLexeme.letter {c : Char} (hc : isWordStart c = true) : IsLexeme .identifier [c] := by
  have hkind : kindOfWord [c] = .identifier := by simp [kindOfWord]
  rw [← hkind]
  exact .word hc (by simp)

/-- Only symbols start with any other character. -/
theorem IsLexeme.of_other (hpart : isWordPart c = false) (hquote : isQuote c = false)
    (h : IsLexeme kind (c :: cs)) : ∃ s : Symbol, kind = .symbol s ∧ s.chars = c :: cs := by
  obtain ⟨hword, -⟩ | ⟨hdigit, -⟩ | ⟨hc, -⟩ | ⟨-, -, h⟩ := h.cases_head
  · simp [isWordPart_of_isWordStart hword] at hpart
  · simp [isWordPart_of_isDigit hdigit] at hpart
  · simp [hc] at hquote
  · exact h

end

/-- A text is a lexeme of one kind. -/
theorem IsLexeme.kind_unique {k k' : TokenKind} {w : List Char} (h : IsLexeme k w)
    (h' : IsLexeme k' w) : k = k' := by
  obtain ⟨c, cs, rfl⟩ := List.exists_cons_of_ne_nil h.ne_nil
  obtain ⟨hc, -, rfl⟩ | ⟨hc, rfl⟩ | ⟨hc, rfl, -⟩ | ⟨hc, hq, s, rfl, hs⟩ := h.cases_head
  · exact (h'.of_isWordStart hc).2.symm
  · exact (h'.of_isDigit hc).symm
  · exact (h'.of_isQuote hc).1.symm
  · obtain ⟨s', rfl, hs'⟩ := h'.of_other hc hq
    have hsame := Symbol.ofChars?_chars s
    rw [hs, ← hs', Symbol.ofChars?_chars] at hsame
    rw [Option.some.inj hsame]

/-- In front of a text one lexeme is the longest. -/
theorem IsLongest.unique {k k' : TokenKind} {w v r r' : List Char} (h : IsLongest k w r)
    (h' : IsLongest k' v r') (heq : w ++ r = v ++ r') : k = k' ∧ w = v ∧ r = r' := by
  have hle := h.longest k' v r' heq.symm h'.isLexeme
  have hge := h'.longest k w r heq h.isLexeme
  obtain ⟨rfl, rfl⟩ := List.append_inj heq (by omega)
  exact ⟨h.isLexeme.kind_unique h'.isLexeme, rfl, rfl⟩

/-! ### Longest stretches -/

/-- A stretch of characters with a property is no longer than the longest one. -/
theorem length_le_stretch {p : Char → Bool} {v r : List Char} (h : ∀ c ∈ v, p c = true) :
    v.length ≤ (stretch p (v ++ r)).taken.length := by
  rw [stretch, List.takeWhile_append_of_pos h, List.length_append]
  omega

theorem of_mem_stretch {p : Char → Bool} {cs : List Char} :
    ∀ c ∈ (stretch p cs).taken, p c = true :=
  List.all_eq_true.1 List.all_takeWhile

/-- What a stretch of characters with a property leaves does not go on with one. -/
theorem stretch_of_stops {p : Char → Bool} {v r : List Char} (h : ∀ c ∈ v, p c = true)
    (hstop : ∀ c, r.head? = some c → p c = false) : stretch p (v ++ r) = ⟨v, r⟩ := by
  have hr : r.takeWhile p = [] ∧ r.dropWhile p = r := by
    cases r with
    | nil => exact ⟨rfl, rfl⟩
    | cons c r => simp [hstop c rfl]
  rw [stretch, List.takeWhile_append_of_pos h, List.dropWhile_append_of_pos h, hr.1, hr.2,
    List.append_nil]

/-- The longest word in front of a text. -/
theorem isLongest_word {c : Char} {cs : List Char} (hc : isWordStart c = true) :
    IsLongest (kindOfWord (stretch isWordPart (c :: cs)).taken)
      (stretch isWordPart (c :: cs)).taken (stretch isWordPart (c :: cs)).rest := by
  have hwhole := whole_stretch isWordPart (c :: cs)
  have htaken : (stretch isWordPart (c :: cs)).taken = c :: (stretch isWordPart cs).taken := by
    simp [stretch, isWordPart_of_isWordStart hc]
  refine ⟨htaken ▸ .word hc of_mem_stretch, fun k v r heq h => ?_⟩
  rw [Split.whole] at hwhole
  rw [hwhole] at heq
  obtain ⟨d, v, rfl⟩ := List.exists_cons_of_ne_nil h.ne_nil
  obtain ⟨rfl, rfl⟩ := List.cons.inj heq
  obtain ⟨hv, -⟩ := h.of_isWordStart hc
  have hpart : ∀ e ∈ d :: v, isWordPart e = true :=
    List.forall_mem_cons.2 ⟨isWordPart_of_isWordStart hc, hv⟩
  exact length_le_stretch (r := r) hpart

/-! ### Longest numbers -/

/-- A number goes on behind a point with a digit behind it. -/
theorem numeral_of_point {cs ds es : List Char} {d : Char}
    (h : stretch isDigit cs = ⟨ds, '.' :: d :: es⟩) (hd : isDigit d = true) :
    numeral cs = ⟨ds ++ '.' :: (stretch isDigit (d :: es)).taken,
      (stretch isDigit (d :: es)).rest⟩ := by
  simp only [numeral, h, hd, if_true, Split.prepend, List.append_assoc, List.singleton_append]

/-- A number ends behind its first digits if no point with a digit behind it follows. -/
theorem numeral_of_stops {cs : List Char}
    (h : ∀ d es, (stretch isDigit cs).rest = '.' :: d :: es → isDigit d = false) :
    numeral cs = stretch isDigit cs := by
  simp only [numeral]
  split
  · next d es heq => simp [h d es heq]
  · rfl

theorem length_stretch_le_numeral (cs : List Char) :
    (stretch isDigit cs).taken.length ≤ (numeral cs).taken.length := by
  simp only [numeral]
  split
  · split
    · simp only [Split.prepend, List.length_append]
      omega
    · exact Nat.le_refl _
  · exact Nat.le_refl _

/-- A number in front of a text is no longer than the one read. -/
theorem length_le_numeral {v r : List Char} (h : IsLexeme .number v) :
    v.length ≤ (numeral (v ++ r)).taken.length := by
  generalize hk : TokenKind.number = k at h
  cases h with
  | @word c cs => exact absurd hk (by unfold kindOfWord; split <;> simp)
  | integer _ hds => exact Nat.le_trans (length_le_stretch hds) (length_stretch_le_numeral _)
  | @fraction ds fs _ hds hne' hfs =>
      obtain ⟨d, fs, rfl⟩ := List.exists_cons_of_ne_nil hne'
      have hdigits : stretch isDigit (ds ++ '.' :: d :: (fs ++ r)) = ⟨ds, '.' :: d :: (fs ++ r)⟩ :=
        stretch_of_stops hds fun c hc => by
          obtain rfl := Option.some.inj hc
          decide
      have hfraction : (d :: fs).length ≤ (stretch isDigit (d :: (fs ++ r))).taken.length :=
        length_le_stretch hfs
      rw [List.append_assoc, List.cons_append, List.cons_append,
        numeral_of_point hdigits (hfs d (by simp))]
      simp only [List.length_append, List.length_cons] at hfraction ⊢
      omega
  | string | symbol => cases hk

/-- The longest number in front of a text. -/
theorem isLongest_number {c : Char} {cs : List Char} (hc : isDigit c = true) :
    IsLongest .number (numeral (c :: cs)).taken (numeral (c :: cs)).rest := by
  have hne : (stretch isDigit (c :: cs)).taken ≠ [] := stretch_cons hc cs
  have hwhole := whole_numeral (c :: cs)
  rw [Split.whole] at hwhole
  refine ⟨?_, fun k v r heq h => ?_⟩
  · by_cases hpoint :
        ∃ d es, (stretch isDigit (c :: cs)).rest = '.' :: d :: es ∧ isDigit d = true
    · obtain ⟨d, es, hrest, hd⟩ := hpoint
      have hdigits : stretch isDigit (c :: cs) =
          ⟨(stretch isDigit (c :: cs)).taken, '.' :: d :: es⟩ := by rw [← hrest]
      rw [numeral_of_point hdigits hd]
      exact .fraction hne of_mem_stretch (stretch_cons hd es) of_mem_stretch
    · have hnumeral : numeral (c :: cs) = stretch isDigit (c :: cs) := by
        refine numeral_of_stops fun d es hrest => ?_
        cases hd : isDigit d with
        | false => rfl
        | true => exact absurd ⟨d, es, hrest, hd⟩ hpoint
      rw [hnumeral]
      exact .integer hne of_mem_stretch
  · rw [hwhole] at heq
    obtain ⟨d, v, rfl⟩ := List.exists_cons_of_ne_nil h.ne_nil
    obtain ⟨rfl, rfl⟩ := List.cons.inj heq
    obtain rfl := h.of_isDigit hc
    exact length_le_numeral (r := r) h

/-! ### Strings and symbols -/

/-- A string ends with the next mark of its sort. -/
theorem closeString_of_body {q : Char} {body rest : List Char} (h : q ∉ body) :
    closeString q (body ++ q :: rest) = some ⟨body ++ [q], rest⟩ := by
  have hbody : stretch (· != q) (body ++ q :: rest) = ⟨body, q :: rest⟩ :=
    stretch_of_stops (fun c hc => by simpa using fun heq : c = q => h (heq ▸ hc))
      (fun c hc => by simpa using (Option.some.inj hc).symm)
  simp only [closeString, hbody]

/-- A string is open if no mark of its sort follows. -/
theorem closeString_sound (q : Char) (cs : List Char) :
    match closeString q cs with
    | some s => ∃ body, s.taken = body ++ [q] ∧ q ∉ body
    | none => q ∉ cs := by
  by_cases hmem : q ∈ cs
  · obtain ⟨body, rest, rfl, hbody⟩ := List.eq_append_cons_of_mem hmem
    rw [closeString_of_body hbody]
    exact ⟨body, rfl, hbody⟩
  · have hbody : stretch (· != q) cs = ⟨cs, []⟩ := by
      have hall : ∀ c ∈ cs, (c != q) = true :=
        fun c hc => by simpa using fun heq : c = q => hmem (heq ▸ hc)
      simpa using stretch_of_stops (r := []) hall (by simp)
    simp only [closeString, hbody]
    exact hmem

/-- The longest string in front of a text. -/
theorem isLongest_string {q : Char} {body rest : List Char} (hq : isQuote q = true)
    (hbody : q ∉ body) : IsLongest .string (q :: (body ++ [q])) rest := by
  refine ⟨.string hq hbody, fun k v r heq h => ?_⟩
  obtain ⟨c, v, rfl⟩ := List.exists_cons_of_ne_nil h.ne_nil
  obtain ⟨rfl, heq⟩ := List.cons.inj heq
  obtain ⟨-, body', rfl, hbody'⟩ := h.of_isQuote hq
  have hclose : closeString c (body' ++ c :: r) = some ⟨body' ++ [c], r⟩ :=
    closeString_of_body hbody'
  have heq : body' ++ c :: r = body ++ c :: rest := by simpa using heq
  rw [heq, closeString_of_body hbody] at hclose
  obtain ⟨hsame, -⟩ := Split.mk.inj (Option.some.inj hclose)
  exact Nat.le_of_eq (by rw [hsame])

theorem Symbol.ofChars?_eq_some {cs : List Char} {s : Symbol} :
    ofChars? cs = some s ↔ s.chars = cs := by
  constructor
  · intro h
    simpa using List.find?_some h
  · rintro rfl
    exact ofChars?_chars s

/-- A symbol is one character or two. -/
theorem Symbol.chars_cases (s : Symbol) :
    (∃ c, s.chars = [c]) ∨ ∃ c d, s.chars = [c, d] := by
  cases s <;> simp [chars]

/-- A symbol in front of a text is its first character, or its first two. -/
theorem Symbol.chars_of_front {s : Symbol} {c : Char} {cs r : List Char}
    (h : c :: cs = s.chars ++ r) : s.chars = [c] ∨ ∃ d ds, cs = d :: ds ∧ s.chars = [c, d] := by
  obtain ⟨a, hs⟩ | ⟨a, b, hs⟩ := s.chars_cases
  · rw [hs] at h
    exact .inl (by rw [hs, (List.cons.inj h).1])
  · rw [hs] at h
    obtain ⟨rfl, rfl⟩ := List.cons.inj h
    exact .inr ⟨b, r, rfl, hs⟩

/-- The symbol, if there is one, is the longest in front of the text. -/
def IsLongestSymbol (cs : List Char) : Option Symbol → Prop
  | some s => (∃ r, cs = s.chars ++ r) ∧
      ∀ (s' : Symbol) r, cs = s'.chars ++ r → s'.chars.length ≤ s.chars.length
  | none => ∀ (s : Symbol) r, cs ≠ s.chars ++ r

/-- Where all symbols have one character, one look at the first character finds the symbol. -/
theorem isLongestSymbol_of_one {c : Char} {cs : List Char}
    (hone : ∀ (s : Symbol) r, c :: cs = s.chars ++ r → s.chars = [c]) :
    IsLongestSymbol (c :: cs) (Symbol.ofChars? [c]) := by
  cases hfound : Symbol.ofChars? [c] with
  | none =>
      intro s r heq
      rw [Symbol.ofChars?_eq_some.2 (hone s r heq)] at hfound
      cases hfound
  | some s =>
      have hs := Symbol.ofChars?_eq_some.1 hfound
      refine ⟨⟨cs, by rw [hs]; rfl⟩, fun s' r heq => ?_⟩
      exact Nat.le_of_eq (by rw [hone s' r heq, hs])

/-- The symbol found in front of a text is the longest one there. -/
theorem atFront?_sound (c : Char) (cs : List Char) :
    IsLongestSymbol (c :: cs) (Symbol.atFront? (c :: cs)) := by
  rcases cs with _ | ⟨d, ds⟩
  · refine isLongestSymbol_of_one fun s r heq => ?_
    obtain hs | ⟨d, ds, hds, -⟩ := Symbol.chars_of_front heq
    · exact hs
    · cases hds
  · simp only [Symbol.atFront?]
    cases htwo : Symbol.ofChars? [c, d] with
    | some s =>
        have hs := Symbol.ofChars?_eq_some.1 htwo
        refine ⟨⟨ds, by rw [hs]; rfl⟩, fun s' r heq => ?_⟩
        obtain ⟨a, hs'⟩ | ⟨a, b, hs'⟩ := s'.chars_cases <;> simp [hs, hs']
    | none =>
        refine isLongestSymbol_of_one fun s r heq => ?_
        obtain hs | ⟨e, es, hes, hs⟩ := Symbol.chars_of_front heq
        · exact hs
        · obtain ⟨rfl, rfl⟩ := List.cons.inj hes
          rw [Symbol.ofChars?_eq_some.2 hs] at htwo
          cases htwo

/-- The longest symbol in front of a text that starts with no other lexeme. -/
theorem isLongest_symbol {s : Symbol} {c : Char} {cs r : List Char} (hpart : isWordPart c = false)
    (hquote : isQuote c = false) (hs : c :: cs = s.chars ++ r)
    (hlongest : ∀ (s' : Symbol) r', c :: cs = s'.chars ++ r' →
      s'.chars.length ≤ s.chars.length) : IsLongest (.symbol s) s.chars r := by
  refine ⟨.symbol s, fun k v r' heq h => ?_⟩
  obtain ⟨d, v, rfl⟩ := List.exists_cons_of_ne_nil h.ne_nil
  rw [← hs] at heq
  obtain ⟨rfl, rfl⟩ := List.cons.inj heq
  obtain ⟨s', rfl, hs'⟩ := h.of_other hpart hquote
  rw [← hs']
  exact hlongest s' r' (by rw [hs']; rfl)

/-! ### The lexeme in front of a text -/

/-- No lexeme is in front of the text. -/
def StartsNoLexeme (cs : List Char) : Prop :=
  ∀ kind v r, v ++ r = cs → ¬ IsLexeme kind v

/-- The text starts with no lexeme, for a reason. -/
inductive IsFaultyWord : LexFault → List Char → Prop
  | openString {q : Char} {cs : List Char} (hq : isQuote q = true) (h : q ∉ cs) :
      IsFaultyWord .openString (q :: cs)
  | lonePart {c : Char} {cs : List Char} (hquote : isQuote c = false)
      (h : StartsNoLexeme (c :: cs)) (hc : Symbol.isLoneStart c = true) :
      IsFaultyWord (.lonePart c) (c :: cs)
  | unrecognized {c : Char} {cs : List Char} (hquote : isQuote c = false)
      (h : StartsNoLexeme (c :: cs)) (hc : Symbol.isLoneStart c = false) :
      IsFaultyWord (.unrecognized c) (c :: cs)

theorem IsFaultyWord.startsNoLexeme {fault : LexFault} {cs : List Char}
    (h : IsFaultyWord fault cs) : StartsNoLexeme cs := by
  cases h with
  | openString hq hopen =>
      intro kind v r heq h
      obtain ⟨c, v, rfl⟩ := List.exists_cons_of_ne_nil h.ne_nil
      obtain ⟨rfl, rfl⟩ := List.cons.inj heq
      obtain ⟨-, body, rfl, -⟩ := h.of_isQuote hq
      exact hopen (by simp)
  | lonePart _ h => exact h
  | unrecognized _ h => exact h

/-- What is read in front of a text is the longest lexeme there, if there is any. -/
theorem lexeme_sound (c : Char) (cs : List Char) :
    match lexeme c cs with
    | .ok l => IsLongest l.kind l.taken l.rest
    | .error fault => IsFaultyWord fault (c :: cs) := by
  unfold lexeme
  by_cases hword : isWordStart c = true
  · simp only [hword, if_true]
    exact isLongest_word hword
  by_cases hdigit : isDigit c = true
  · simp only [hword, hdigit, if_true]
    exact isLongest_number hdigit
  by_cases hquote : isQuote c = true
  · have hclose := closeString_sound c cs
    simp only [hword, hdigit, hquote, if_true]
    cases hs : closeString c cs with
    | none =>
        rw [hs] at hclose
        exact .openString hquote hclose
    | some s =>
        rw [hs] at hclose
        obtain ⟨body, htaken, hbody⟩ := hclose
        simp only [Split.prepend, htaken]
        exact isLongest_string hquote hbody
  · have hpart : isWordPart c = false := by simp [isWordPart, hword, hdigit]
    have hquote' : isQuote c = false := by simpa using hquote
    have hfront := atFront?_sound c cs
    simp only [hword, hdigit, hquote, symbolLexeme?]
    cases hs : Symbol.atFront? (c :: cs) with
    | some s =>
        rw [hs] at hfront
        obtain ⟨⟨r, hr⟩, hlongest⟩ := hfront
        simp only [Option.map_some, hr, List.take_left, List.drop_left]
        exact isLongest_symbol hpart hquote' hr hlongest
    | none =>
        rw [hs] at hfront
        have hno : StartsNoLexeme (c :: cs) := fun kind v r heq h => by
          obtain ⟨d, v, rfl⟩ := List.exists_cons_of_ne_nil h.ne_nil
          obtain ⟨rfl, rfl⟩ := List.cons.inj heq
          obtain ⟨s, -, hs⟩ := h.of_other hpart hquote'
          exact hfront s r (by rw [hs]; rfl)
        cases hlone : Symbol.isLoneStart c with
        | true => exact .lonePart hquote' hno hlone
        | false => exact .unrecognized hquote' hno hlone

/-- The longest lexeme in front of a text is read. -/
theorem IsLongest.lexeme_eq {kind : TokenKind} {c : Char} {cs w rest : List Char}
    (h : IsLongest kind w rest) (heq : w ++ rest = c :: cs) :
    lexeme c cs = .ok ⟨⟨w, rest⟩, kind⟩ := by
  have hsound := lexeme_sound c cs
  cases hl : lexeme c cs with
  | error fault =>
      rw [hl] at hsound
      exact absurd h.isLexeme (hsound.startsNoLexeme kind w rest heq)
  | ok l =>
      rw [hl] at hsound
      have hwhole := whole_lexeme hl
      obtain ⟨hkind, hw, hrest⟩ := h.unique hsound (heq.trans hwhole.symm)
      rw [hkind, hw, hrest]

/-- Where no lexeme starts, the reason is one. -/
theorem IsFaultyWord.unique {f f' : LexFault} {cs : List Char} (h : IsFaultyWord f cs)
    (h' : IsFaultyWord f' cs) : f = f' := by
  cases h with
  | openString hq =>
      cases h' with
      | openString => rfl
      | lonePart hq' | unrecognized hq' => simp [hq] at hq'
  | lonePart hq _ hc =>
      cases h' with
      | openString hq' => simp [hq] at hq'
      | lonePart => rfl
      | unrecognized _ _ hc' => simp [hc] at hc'
  | unrecognized hq _ hc =>
      cases h' with
      | openString hq' => simp [hq] at hq'
      | lonePart _ _ hc' => simp [hc] at hc'
      | unrecognized => rfl

/-- Where no lexeme starts, none is read. -/
theorem IsFaultyWord.lexeme_eq {fault : LexFault} {c : Char} {cs : List Char}
    (h : IsFaultyWord fault (c :: cs)) : lexeme c cs = .error fault := by
  have hsound := lexeme_sound c cs
  cases hl : lexeme c cs with
  | error fault' =>
      rw [hl] at hsound
      rw [h.unique hsound]
  | ok l =>
      rw [hl] at hsound
      exact absurd hsound.isLexeme (h.startsNoLexeme _ _ _ (whole_lexeme hl))

end Sigil
