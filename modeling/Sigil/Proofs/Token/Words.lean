import Sigil.Parser.Expression
import Sigil.Proofs.Token.Part

/-!
# Words

What is left of tokens without the choices that a writer has for a single one. Two colons are two
words, whether they are written as one token or as two, and the quotation marks of a string are no
part of its word. The place of a token is not part of its word either.

A text spells some tokens if it is cut into the same words. Texts that are put together spell the
tokens of their parts.

## Main definitions

* `words`: the words of tokens.
* `Spells`: the texts with the words of some tokens.

## Main results

* `Spells.append`, `Spells.behind`, `Spells.between`: texts put together.
* `Spells.word`: a text that is a single word.
-/

namespace Sigil

/-- A kind of tokens, and the text that a token of the kind stands for. -/
abbrev Word := TokenKind × String

/-- The words of a token: a pair of colons is two words, any other token is one. -/
def Token.words (t : Token) : List Word :=
  if t.kind = .symbol .alt then [(.symbol .colon, ":"), (.symbol .colon, ":")]
  else [(t.kind, Parser.literalText t)]

/-- The words of tokens. -/
def words (ts : List Token) : List Word :=
  ts.flatMap Token.words

section

variable {o o' : Token} {v w : List Token} {s : Symbol}

/-- No tokens have no words. -/
@[simp] theorem words_nil : words [] = [] := rfl

/-- The words of a token are in front of those of the others. -/
@[simp] theorem words_cons : words (o :: w) = o.words ++ words w := rfl

/-- The words of some tokens are in front of those of the others. -/
@[simp] theorem words_append : words (v ++ w) = words v ++ words w :=
  List.flatMap_append

/-- A token is one word. -/
theorem Token.words_of_ne (h : o.kind ≠ .symbol .alt) :
    o.words = [(o.kind, Parser.literalText o)] :=
  if_neg h

/-- Only a double colon is two. -/
theorem Token.words_of_alt (h : o.kind = .symbol .alt) :
    o.words = [(.symbol .colon, ":"), (.symbol .colon, ":")] :=
  if_pos h

/-- Every token has a word. -/
theorem Token.words_ne_nil : o.words ≠ [] := by
  rw [Token.words]
  split
  · simp
  · simp

/-- Without words there are no tokens. -/
theorem words_eq_nil_iff : words w = [] ↔ w = [] := by
  cases w with
  | nil => simp
  | cons o w => simp [Token.words_ne_nil]

/-- The words of a token depend on its kind and on the text it stands for. -/
theorem Token.words_congr (hkind : o.kind = o'.kind)
    (htext : Parser.literalText o = Parser.literalText o') : o.words = o'.words := by
  rw [Token.words, Token.words, hkind, htext]

/-- Tokens of the same symbol are the same words. -/
theorem Token.IsSymbol.words_eq (h : o.IsSymbol s) (h' : o'.IsSymbol s) : o.words = o'.words :=
  Token.words_congr (h.1.trans h'.1.symm) (by simp [Parser.literalText, h.1, h.2, h'.1, h'.2])

/-- The kind of the first word of a token. -/
theorem Token.words_eq_cons (o : Token) :
    ∃ text r, o.words = (if o.kind = .symbol .alt then .symbol .colon else o.kind, text) :: r := by
  by_cases ho : o.kind = .symbol .alt
  · exact ⟨_, _, by rw [Token.words_of_alt ho, if_pos ho]⟩
  · exact ⟨_, _, by rw [Token.words_of_ne ho, if_neg ho]⟩

/-- Tokens with the same words start with tokens of the same kind, except for colons. -/
theorem kind_eq_of_words_eq (h : words (o :: v) = words (o' :: w))
    (ho : o.kind ≠ .symbol .colon ∧ o.kind ≠ .symbol .alt) : o'.kind = o.kind := by
  obtain ⟨text, r, hwords⟩ := o.words_eq_cons
  obtain ⟨text', r', hwords'⟩ := o'.words_eq_cons
  rw [words_cons, words_cons, hwords, hwords', if_neg ho.2] at h
  have hkind := congrArg Prod.fst (List.cons.inj h).1
  dsimp only at hkind
  split at hkind
  · exact absurd hkind ho.1
  · exact hkind.symm

/-- Tokens of some kinds, colons not among them, are counted by their words. -/
theorem countP_words {f : TokenKind → Bool} (hcolon : f (.symbol .colon) = false)
    (halt : f (.symbol .alt) = false) :
    (words w).countP (fun word => f word.1) = w.countP (fun t => f t.kind) := by
  induction w with
  | nil => rfl
  | cons o w ih =>
      rw [words_cons, List.countP_append, ih, List.countP_cons, Nat.add_comm]
      by_cases ho : o.kind = .symbol .alt
      · rw [Token.words_of_alt ho, ho, halt]
        simp [hcolon]
      · rw [Token.words_of_ne ho, List.countP_singleton]

end

/-! ### Texts of words -/

/-- Wherever the text stands, it is cut into tokens with the words of the given ones. -/
def Spells (cs : List Char) (v : List Token) : Prop :=
  Yields (fun ts => words ts = words v) cs

namespace Spells

variable {cs ds : List Char} {o : Token} {v w : List Token} {s : Symbol}

/-- What spells some tokens spells others with the same words. -/
theorem congr (h : Spells cs v) (hwords : words v = words w) : Spells cs w :=
  h.mono fun _ hts => hts.trans hwords

/-- Nothing spells no tokens. -/
theorem nil : Spells [] [] :=
  Yields.nil rfl

/-- One text in front of another one that ends every word. -/
theorem append (hv : Spells cs v) (hw : Spells ds w) (hend : ∀ rest, EndsWord (ds ++ rest)) :
    Spells (cs ++ ds) (v ++ w) := by
  intro p rest hrest
  obtain ⟨ts, hts, hv⟩ := hv p (ds ++ rest) (hend rest)
  obtain ⟨us, hus, hw⟩ := hw (p.after cs) rest hrest
  exact ⟨ts ++ us, hts.append hus, by simp only [words_append, hv, hw]⟩

/-- A symbol in front of a text that makes nothing else of it. -/
theorem behind (ho : o.IsSymbol s) (h : Spells cs v) (hs : ∀ rest, s.Stands (cs ++ rest)) :
    Spells (s.chars ++ cs) (o :: v) := by
  intro p rest hrest
  obtain ⟨ts, hts, hv⟩ := h (p.after s.chars) rest hrest
  refine ⟨_, .behind_symbol s (hs rest) hts, ?_⟩
  have hwords : (⟨.symbol s, s.spelling, p⟩ : Token).words = o.words :=
    Token.IsSymbol.words_eq ⟨rfl, rfl⟩ ho
  simp only [words_cons, hv, hwords]

/-- A symbol that starts no other one. -/
theorem closing (ho : o.IsSymbol s) (hs : s.extensions = []) : Spells s.chars [o] := by
  have h := behind ho nil fun rest => Symbol.stands_of_closed hs _
  rwa [List.append_nil] at h

/-- A colon in front of a text that does not make a pair of it. -/
theorem colon (ho : o.IsSymbol .colon) (h : Spells cs v)
    (hs : ∀ rest, Symbol.colon.Stands (cs ++ rest)) : Spells (':' :: cs) (o :: v) :=
  behind ho h hs

/-- A text in brackets. -/
theorem bracketed {c : Token} {s' : Symbol} (ho : o.IsSymbol s) (hs : s.extensions = [])
    (h : Spells cs v) (hc : c.IsSymbol s') (hs' : s'.extensions = [])
    (hend : ∀ rest, EndsWord (s'.chars ++ rest)) :
    Spells (s.chars ++ (cs ++ s'.chars)) (o :: (v ++ [c])) :=
  .behind ho (.append h (.closing hc hs') hend) fun _ => Symbol.stands_of_closed hs _

/-- A blank in front of a text. -/
theorem blank (h : Spells cs v) (hne : v ≠ []) : Spells (' ' :: cs) v := by
  have hblank : ∀ c ∈ [' '], isBlank c = true := by simp [isBlank]
  refine Yields.behind_blanks h hblank fun ts hts hnil => hne ?_
  rwa [hnil, words_nil, eq_comm, words_eq_nil_iff] at hts

/-- Two texts and a symbol with a blank on each side between them. -/
theorem between (hv : Spells cs v) (ho : o.IsSymbol s) (hs : ' ' ∉ s.extensions)
    (hw : Spells ds w) (hne : w ≠ []) :
    Spells (cs ++ ' ' :: (s.chars ++ ' ' :: ds)) (v ++ o :: w) := by
  have hright : Spells (' ' :: (s.chars ++ ' ' :: ds)) (o :: w) :=
    .blank (.behind ho (.blank hw hne) fun _ => Symbol.stands_cons hs _) (by simp)
  exact .append hv hright fun rest => endsWord_mark (by simp) _

/-- A name, a number, a truth value or a string. -/
theorem word {kind : TokenKind} (h : IsLexeme kind cs) (hkind : ∀ s, kind ≠ .symbol s)
    (ho : o.kind = kind) (htext : Parser.literalText o =
      if kind = .string then Parser.unquoted (String.ofList cs) else String.ofList cs) :
    Spells cs [o] := by
  intro p rest hrest
  refine ⟨_, .word h hkind hrest, ?_⟩
  have hwords : o.words = (⟨kind, String.ofList cs, p⟩ : Token).words :=
    Token.words_congr ho htext
  simp only [words_cons, hwords]

end Spells

end Sigil
