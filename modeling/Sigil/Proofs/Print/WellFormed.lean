import Sigil.Proofs.Grammar.Exact
import Sigil.Proofs.Parser.Unlimited
import Sigil.Proofs.Print.Expression

/-!
# Well-formed expressions

Trees that are made by hand need not stand for anything. The well-formed ones are those that the
layouts of their kinds allow: each has the parts of its kind, its texts are lexemes, and bounds that
are left out stand in slices only. All of them are printed, for every place, and what is printed is
read back with the same shape. Parentheses make no difference: the same holds with more of them
around the expression and around the expressions in it.

## Main definitions

* `WellFormed`: the shapes of well-formed expressions.
* `IsWritten`: the texts of an expression, with parentheses wherever one likes.
* `Parser.ofLevel`: the routine for expressions of a level.

## Main results

* `WellFormed.isPrinted`: well-formed expressions are printed at every place.
* `Source.expression_transparent`: what is printed is read back, with or without more parentheses.
-/

namespace Sigil

/-! ### Well-formed shapes -/

/-- The parts that an expression is made of. -/
inductive Role where
  | expression
  | bound
  | entry
  deriving DecidableEq, Repr

/-- A shape is well-formed in a role. -/
inductive WellFormed : Role → Shape → Prop
  /-- Names, numbers and truth values are lexemes of their kind. -/
  | word {token : TokenKind} {kind : NodeKind} {cs : List Char} (h : IsLexeme token cs)
      (hkind : Parser.literal? token = some kind) (hstring : token ≠ .string) :
      WellFormed .expression ⟨kind, .text (String.ofList cs), [], ()⟩
  /-- One of the quotation marks is not in a string. -/
  | string {text : String} (h : '"' ∉ text.toList ∨ '\'' ∉ text.toList) :
      WellFormed .expression ⟨.string, .text text, [], ()⟩
  | array {σs : List Shape} (h : ∀ σ ∈ σs, WellFormed .expression σ) :
      WellFormed .expression ⟨.array, .none, σs, ()⟩
  | map {σs : List Shape} (h : ∀ σ ∈ σs, WellFormed .entry σ) :
      WellFormed .expression ⟨.map, .none, σs, ()⟩
  | call {σ : Shape} {σs : List Shape} (hf : WellFormed .expression σ)
      (h : ∀ τ ∈ σs, WellFormed .expression τ) :
      WellFormed .expression ⟨.call, .node σ, σs, ()⟩
  | index {σ τ : Shape} (ht : WellFormed .expression σ) (h : WellFormed .expression τ) :
      WellFormed .expression ⟨.index, .none, [σ, τ], ()⟩
  | slice {σ start stop step : Shape} (ht : WellFormed .expression σ)
      (ha : WellFormed .bound start) (hb : WellFormed .bound stop) (hc : WellFormed .bound step) :
      WellFormed .expression ⟨.slice, .none, [σ, start, stop, step], ()⟩
  | member {σ : Shape} {cs : List Char} (ht : WellFormed .expression σ)
      (hname : IsLexeme .identifier cs) :
      WellFormed .expression ⟨.member, .text (String.ofList cs), [σ], ()⟩
  | prefixed {σ : Shape} {s : Symbol} {kind : NodeKind} (hs : s.prefixed? = some kind)
      (h : WellFormed .expression σ) :
      WellFormed .expression ⟨kind, .text s.spelling, [σ], ()⟩
  | iteration {σ τ : Shape} (ha : WellFormed .expression σ) (hb : WellFormed .expression τ) :
      WellFormed .expression ⟨.iteration, .none, [σ, τ], ()⟩
  | operation {σ τ : Shape} {s : Symbol} {level : Int} {kind : NodeKind}
      (ha : WellFormed .expression σ) (hs : s.binary? = some (level, kind))
      (hb : WellFormed .expression τ) :
      WellFormed .expression ⟨kind, .text s.spelling, [σ, τ], ()⟩
  | conditional {σ τ υ : Shape} (ha : WellFormed .expression σ) (hb : WellFormed .expression τ)
      (hc : WellFormed .expression υ) :
      WellFormed .expression ⟨.conditional, .none, [σ, τ, υ], ()⟩
  | leftOut : WellFormed .bound ⟨.absent, .none, [], ()⟩
  | bound {σ : Shape} (h : WellFormed .expression σ) : WellFormed .bound σ
  /-- The key of an entry is a name or a string. -/
  | entry {key σ : Shape} (hkey : WellFormed .expression key)
      (hkind : key.kind = .identifier ∨ key.kind = .string) (h : WellFormed .expression σ) :
      WellFormed .entry ⟨.mapEntry, .node σ, [key], ()⟩

/-- The text is a way to write an expression at a place that asks for a level. -/
def IsWritten (least : Int) (σ : Shape) (text : String) : Prop :=
  ∃ r, Written r (.expression least σ) text.toList

namespace Source

/-! ### Printing -/

/-- Trees of the shape are printed, whatever place they stand at, given enough room to read them. -/
def IsPrinted : Role → Shape → Prop
  | .expression, σ => ∃ n level, Prints (.plain n) level False σ
  | .bound, σ => ∃ n, FitsBound (.plain n) σ
  | .entry, σ => ∃ n, FitsEntry (.plain n) σ

section

variable {σ : Shape} {σs : List Shape}

/-- What is printed fits every place, given some more room: it may need parentheses there. -/
theorem IsPrinted.fits (h : IsPrinted .expression σ) (least : Int)
    (hl : least ≤ Level.primary) : ∃ k, ∀ r, .plain k ≤ r → Fits r least False σ := by
  obtain ⟨n, level, h⟩ := h
  have hgrouped : Fits (.plain (n + 6)) least False σ := Prints.fits_grouped h hl id
  exact ⟨n + 6, fun r hr => hgrouped.mono hr id⟩

theorem FitsEntry.mono {r q : Room} (h : FitsEntry r σ) (hr : r ≤ q) : FitsEntry q σ := by
  obtain ⟨kind, text, υ, hσ, hkind, hkey, hvalue⟩ := h
  exact ⟨kind, text, υ, hσ, hkind, hkey, hvalue.mono hr id⟩

theorem FitsBound.mono {r q : Room} (h : FitsBound r σ) (hr : r ≤ q) : FitsBound q σ := by
  rcases h with h | h
  · exact .inl h
  · exact .inr (h.mono hr id)

/-- Room that is enough for each item is enough for all of them. -/
theorem exists_room {P : Room → Shape → Prop} (h : ∀ σ ∈ σs, ∃ k, ∀ r, .plain k ≤ r → P r σ) :
    ∃ k, ∀ r, .plain k ≤ r → ∀ σ ∈ σs, P r σ := by
  induction σs with
  | nil => exact ⟨0, fun r _ σ hσ => by cases hσ⟩
  | cons τ τs ih =>
      obtain ⟨⟨j, hfirst⟩, hrest⟩ := List.forall_mem_cons.1 h
      obtain ⟨k, hall⟩ := ih hrest
      refine ⟨j + k, fun r hr => List.forall_mem_cons.2 ⟨hfirst r ?_, hall r ?_⟩⟩
      · exact Room.le_trans (Room.plain_mono (Nat.le_add_right j k)) hr
      · exact Room.le_trans (Room.plain_mono (Nat.le_add_left k j)) hr

/-- The key of an entry is printed as the literal it is. -/
theorem printsLiteral_of_key (hkey : WellFormed .expression σ)
    (hkind : σ.kind = .identifier ∨ σ.kind = .string) :
    ∃ kind text, σ = ⟨kind, .text text, [], ()⟩ ∧ PrintsLiteral kind text := by
  cases hkey with
  | word h hliteral hstring => exact ⟨_, _, rfl, printsLiteral_word h hliteral hstring⟩
  | string h => exact ⟨_, _, rfl, printsLiteral_string h⟩
  | @prefixed _ s _ hs => rcases hkind with rfl | rfl <;> cases s <;> cases hs
  | @operation _ _ s _ _ _ hs => rcases hkind with rfl | rfl <;> cases s <;> cases hs
  | _ => rcases hkind with h | h <;> cases h

end

end Source

open Source

/-- Well-formed expressions are printed at every place. -/
theorem WellFormed.isPrinted {role : Role} {σ : Shape} (h : WellFormed role σ) :
    IsPrinted role σ := by
  have hplain {n m : Nat} (h : n ≤ m) : Room.plain n ≤ Room.plain m := Room.plain_mono h
  have hresumed {n m : Nat} (h : n ≤ m) : Room.plain n ≤ Room.resumed m :=
    Room.plain_le_resumed h
  -- Each case adds up what its parts need, and twelve frames are enough to get to any of them.
  induction h with
  | @word token kind cs h hkind hstring =>
      refine ⟨12, Level.primary, .literal (by decide) (printsLiteral_word h hkind hstring) ?_⟩
      cases token <;> cases hkind <;> rfl
  | string h => exact ⟨12, Level.primary, .literal (by decide) (printsLiteral_string h) rfl⟩
  | array _ ih =>
      obtain ⟨k, hall⟩ := exists_room fun σ hσ => (ih σ hσ).fits Level.conditional (by decide)
      refine ⟨k + 12, _, .array ?_ (hall _ (hplain ?_))⟩ <;> simp only [Room.plain] <;> omega
  | @map σs _ ih =>
      have hentries : ∀ σ ∈ σs, ∃ k, ∀ r, .plain k ≤ r → FitsEntry r σ := by
        intro σ hσ
        obtain ⟨k, h⟩ := ih σ hσ
        exact ⟨k, fun r hr => h.mono hr⟩
      obtain ⟨k, hall⟩ := exists_room hentries
      refine ⟨k + 12, _, .map ?_ (hall _ (hplain ?_))⟩ <;> simp only [Room.plain] <;> omega
  | call _ _ ihf ih =>
      obtain ⟨j, hf⟩ := ihf.fits Level.suffixed (by decide)
      obtain ⟨k, hall⟩ := exists_room fun σ hσ => (ih σ hσ).fits Level.conditional (by decide)
      refine ⟨j + k + 12, _, .call (hf _ (hplain (by omega))) (hall _ (hplain ?_))⟩
      simp only [Room.plain]
      omega
  | index _ _ iht ih =>
      obtain ⟨j, ht⟩ := iht.fits Level.suffixed (by decide)
      obtain ⟨k, h⟩ := ih.fits Level.conditional (by decide)
      refine ⟨j + k + 12, _, .index ?_ (ht _ (hplain (by omega))) (h _ (hresumed ?_))⟩ <;>
        simp only [Room.plain] <;> omega
  | slice _ _ _ _ iht iha ihb ihc =>
      obtain ⟨j, ht⟩ := iht.fits Level.suffixed (by decide)
      obtain ⟨k, ha⟩ := iha
      obtain ⟨l, hb⟩ := ihb
      obtain ⟨m, hc⟩ := ihc
      refine ⟨j + k + l + m + 12, _, .slice ?_ (ht _ (hplain (by omega)))
        (ha.mono (hresumed ?_)) (hb.mono (hresumed ?_)) (hc.mono (hresumed ?_))⟩ <;>
        simp only [Room.plain] <;> omega
  | member _ hname iht =>
      obtain ⟨j, ht⟩ := iht.fits Level.suffixed (by decide)
      exact ⟨j, _, .member (ht _ (Room.le_refl _)) hname⟩
  | prefixed hs _ ih =>
      obtain ⟨j, h⟩ := ih.fits Level.unary (by decide)
      exact ⟨j, _, .prefixed hs (h _ (Room.le_refl _)) False.elim⟩
  | iteration _ _ iha ihb =>
      obtain ⟨j, ha⟩ := iha.fits Level.suffixed (by decide)
      obtain ⟨k, hb⟩ := ihb.fits Level.unary (by decide)
      refine ⟨j + k + 12, _, .iteration (ha _ (hplain ?_)) (hb _ (hplain ?_))⟩ <;>
        simp only [Room.plain] <;> omega
  | @operation _ _ _ level _ _ hs _ iha ihb =>
      obtain ⟨-, -, hlevel⟩ := Symbol.level_of_binary? hs
      have hlow : level ≤ Level.primary := Int.le_trans hlevel (by decide)
      have hhigh : level + 1 ≤ Level.primary := Int.le_trans (Int.add_le_add_right hlevel 1)
        (by decide)
      obtain ⟨j, ha⟩ := iha.fits level hlow
      obtain ⟨k, hb⟩ := ihb.fits (level + 1) hhigh
      refine ⟨j + k + 12, _, .operation (ha _ (hplain (by omega))) hs (hb _ (hplain ?_))⟩
      simp only [Room.plain]
      omega
  | conditional _ _ _ iha ihb ihc =>
      obtain ⟨j, ha⟩ := iha.fits Level.logicalOr (by decide)
      obtain ⟨k, hb⟩ := ihb.fits Level.conditional (by decide)
      obtain ⟨l, hc⟩ := ihc.fits Level.conditional (by decide)
      refine ⟨j + k + l + 12, _, .conditional (ha _ (hplain (by omega))) (hb _ (hplain ?_))
        (hc _ (hplain ?_))⟩ <;> simp only [Room.plain] <;> omega
  | leftOut => exact ⟨0, .inl rfl⟩
  | bound _ ih =>
      obtain ⟨k, h⟩ := ih.fits Level.primary (by decide)
      exact ⟨k, .inr (h _ (Room.le_refl _))⟩
  | entry hkey hkind _ _ ih =>
      obtain ⟨kind, text, rfl, hprints⟩ := printsLiteral_of_key hkey hkind
      obtain ⟨k, h⟩ := ih.fits Level.conditional (by decide)
      exact ⟨k, kind, text, _, rfl, hkind, hprints, h _ (Room.le_refl _)⟩

/-! ### Reading what is printed -/

/-- The routine for expressions of a level. What is asked for below the level of a conditional may
be any expression. -/
def Parser.ofLevel (least : Int) : Routine :=
  if least ≤ Level.conditional then .expression none
  else if least ≤ Level.multiplicative then .binary least none
  else if least ≤ Level.unary then .unary
  else if least ≤ Level.suffixed then .suffixed none
  else .primary

section

open Sigil.Parse Sigil.Parser

variable {n : Nat} {least : Int} {t : Node} {s s' : State}

/-- In front of a token that carries on no expression, the routine of a level stops with the
expression. -/
theorem Parser.ParsedAt.unlimited_ofLevel (h : ParsedAt (.plain n) least t s s')
    (hstop : s'.current.kind.extension? = none) : unlimited (ofLevel least) s = .ok t s' := by
  have hstops : ∀ k, s'.current.kind.Stops k := fun k => stops_of_extension? hstop
  unfold ofLevel
  split
  · exact unlimited_of_run (h.run_expression (hstops _))
  split
  · next hlow hhigh =>
    have hle : Level.logicalOr ≤ least := by
      simp only [Level.conditional, Level.logicalOr] at hlow ⊢
      omega
    exact unlimited_of_run (h.run_binary hle (Int.le_trans hhigh (by decide)) (hstops _))
  split
  · next hlow _ =>
    refine unlimited_of_run (h.run_unary ?_ (hstops _))
    simp only [Level.multiplicative, Level.unary] at hlow ⊢
    omega
  split
  · next hlow _ =>
    refine unlimited_of_run (h.run_suffixed ?_ (hstops _))
    simp only [Level.suffixed, Level.unary] at hlow ⊢
    omega
  · next hlow =>
    refine unlimited_of_run (h.primary ?_)
    simp only [Level.suffixed, Level.primary] at hlow ⊢
    omega

end

/-- A written text has the tokens of an expression of the shape. -/
theorem IsWritten.derives {least : Int} {σ : Shape} {text : String} (h : IsWritten least σ text) :
    ∃ n ts t e, TokenStream.ofText text = ⟨ts ++ [e], none⟩ ∧ e.kind = .endOfInput ∧ t.shape = σ ∧
      ∀ next, Derives (.plain n) ts next (.expression least t) := by
  obtain ⟨r, h⟩ := h
  obtain ⟨n, hn⟩ := r.exists_le_plain
  obtain ⟨ts, t, hts, hshape, hderives⟩ := h.read.2 .start [] endsWord_nil
  obtain ⟨e, he, htext⟩ := hts.ofText_eq
  exact ⟨n, ts, t, e, htext, he, hshape, fun next => (hderives next).mono hn⟩

/-- A well-formed expression is printed at the place of every level. What is printed, and what it
becomes with more parentheses around the expressions in it, has tokens that the routine of the level
consumes in front of any token that carries on no expression. The routine gives a tree of the same
shape, unless the stack overflows, and with enough room for the tokens that are left it does not. -/
theorem Source.expression_transparent (t : Node) (ht : WellFormed .expression t.shape) (least : Int)
    (hl : least ≤ Level.primary) :
    (∃ text, Source.expression t least = .ok text ∧ IsWritten least t.shape text) ∧
      ∀ text, IsWritten least t.shape text → ∃ ts e,
        TokenStream.ofText text = ⟨ts ++ [e], none⟩ ∧ e.kind = .endOfInput ∧
          ∀ room (s s' : Parser.State), s.Reads ts s' → s'.current.kind.extension? = none →
            (∃ u : Node, u.shape = t.shape ∧
              Parser.run room (Parser.ofLevel least) s = .ok u s') ∨
              (room ≤ 8 * s.pending + (Parser.ofLevel least).rank ∧
                (Parser.run room (Parser.ofLevel least)).Overflows s) := by
  constructor
  · obtain ⟨k, h⟩ := ht.isPrinted.fits least hl
    obtain ⟨-, text, hprint, -, hwritten⟩ := h _ (Room.le_refl _)
    exact ⟨text, hprint t rfl, _, hwritten⟩
  · intro text h
    obtain ⟨n, ts, u, e, htext, he, hshape, hderives⟩ := h.derives
    refine ⟨ts, e, htext, he, fun room s s' hreads hstop => ?_⟩
    have hok := ((hderives s'.current).parsed s s' hreads rfl).unlimited_ofLevel hstop
    obtain heq | hoverflow := Parser.run_eq_or_overflows room (Parser.ofLevel least) s
    · exact .inl ⟨u, hshape, heq.trans hok⟩
    · exact .inr hoverflow

/-- A sum that is printed as `(a + b)` where a factor is asked for is read from `((a) + b)` as
well. -/
theorem Source.expression_transparent_sum :
    ∃ t : Node, Source.expression t Level.multiplicative = .ok "(a + b)" ∧
      WellFormed .expression t.shape ∧
        ∃ ts e, TokenStream.ofText "((a) + b)" = ⟨ts ++ [e], none⟩ ∧ e.kind = .endOfInput ∧
          ∀ room (s s' : Parser.State), s.Reads ts s' → s'.current.kind.extension? = none →
            (∃ u : Node, u.shape = t.shape ∧
              Parser.run room (Parser.ofLevel Level.multiplicative) s = .ok u s') ∨
              (room ≤ 8 * s.pending + (Parser.ofLevel Level.multiplicative).rank ∧
                (Parser.run room (Parser.ofLevel Level.multiplicative)).Overflows s) := by
  have ha : IsLexeme .identifier ['a'] := .letter (by decide)
  have hb : IsLexeme .identifier ['b'] := .letter (by decide)
  let t : Node := ⟨.additive, .text "+", [⟨.identifier, .text "a", [], default⟩,
    ⟨.identifier, .text "b", [], default⟩], default⟩
  have hwell : WellFormed .expression t.shape :=
    .operation (s := .plus) (.word ha rfl (by decide)) rfl (.word hb rfl (by decide))
  -- Any room that is large enough will do.
  let r : Room := .plain 100
  have hsum : Written (.plain (r.primary - 1)) (.expression Level.additive t.shape)
      ("(a) + b".toList) :=
    .operation (s := .plus)
      (.looser (.group (.looser (.name (by decide) ha) (by decide))) (by decide)) rfl
      (.looser (.name (by decide) hb) (by decide))
  have hwritten : IsWritten Level.multiplicative t.shape "((a) + b)" :=
    ⟨r, .looser (.group (.looser hsum (by decide))) (by decide)⟩
  exact ⟨t, rfl, hwell, (Source.expression_transparent t hwell _ (by decide)).2 _ hwritten⟩

end Sigil
