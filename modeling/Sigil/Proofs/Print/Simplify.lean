import Mathlib.Logic.Relation
import Sigil.Proofs.Grammar.Language
import Sigil.Proofs.Print.Written
import Sigil.Proofs.Token.Words

/-!
# Simpler ways to write the same

Three kinds of tokens can be left out of a program without a change of its shape: parentheses that
group an expression, a comma behind the last item of an array or a map, and a colon in front of a
step that is left out. Which of them can be left out at a place depends on what is around them, so
tokens are simplified in steps, and they are the same phrase before and after each of them.

## Main definitions

* `Drops`: tokens without one of the marks that may be redundant.
* `Tidies`: tokens that are simplified step by step.
* `MadeOf`: the tokens of the parts of expressions, by their shapes.

## Main results

* `Tidies.sublist`: no word is added.
* `Tidies.pair`: parts are simplified where they stand.
-/

namespace Sigil

/-! ### Steps -/

/-- The second tokens are the first ones without a mark that may be redundant. -/
inductive Drops : List Token → List Token → Prop
  /-- Parentheses around an expression. -/
  | parentheses {o c : Token} {u v w : List Token} (ho : o.kind = .symbol .lparen)
      (hv : IsExpression Level.conditional v) (hc : c.kind = .symbol .rparen) :
      Drops (u ++ o :: (v ++ c :: w)) (u ++ (v ++ w))
  /-- A comma in front of the end of an array or a map. These marks end other things as well, but
  no comma stands there. -/
  | comma {o c : Token} {u w : List Token} (ho : o.kind = .symbol .comma)
      (hc : c.kind = .symbol .rbracket ∨ c.kind = .symbol .rbrace) :
      Drops (u ++ o :: c :: w) (u ++ c :: w)
  /-- A colon in front of the end of a slice. If it is the only one, then what is left is no
  slice. -/
  | colon {o c : Token} {u w : List Token} (ho : o.kind = .symbol .colon)
      (hc : c.kind = .symbol .rbracket) : Drops (u ++ o :: c :: w) (u ++ c :: w)

/-- The second tokens are spelled differently at most, or lack a mark that may be redundant. -/
def Changes (a b : List Token) : Prop :=
  words b = words a ∨ Drops a b

/-- Both lists of tokens have the property, and the second one is the first one after a change. -/
structure Simplifies (P : List Token → Prop) (a b : List Token) : Prop where
  source : P a
  target : P b
  changes : Changes a b

/-- The tokens are simplified step by step. All of the lists on the way have the property. -/
structure Tidies (P : List Token → Prop) (a b : List Token) : Prop where
  source : P a
  steps : Relation.ReflTransGen (Simplifies P) a b

section

variable {P Q R : List Token → Prop} {a b c v w x z : List Token}

/-- A mark that is redundant is so behind other tokens. -/
theorem Drops.behind (h : Drops a b) (x : List Token) : Drops (x ++ a) (x ++ b) := by
  cases h with
  | @parentheses _ _ u _ _ ho hv hc =>
      rw [← List.append_assoc, ← List.append_assoc]
      exact .parentheses ho hv hc
  | comma ho hc =>
      rw [← List.append_assoc, ← List.append_assoc]
      exact .comma ho hc
  | colon ho hc =>
      rw [← List.append_assoc, ← List.append_assoc]
      exact .colon ho hc

/-- A mark that is redundant is so in front of other tokens. -/
theorem Drops.before (h : Drops a b) (z : List Token) : Drops (a ++ z) (b ++ z) := by
  cases h with
  | parentheses ho hv hc =>
      simp only [List.append_assoc, List.cons_append]
      exact .parentheses ho hv hc
  | comma ho hc =>
      simp only [List.append_assoc, List.cons_append]
      exact .comma ho hc
  | colon ho hc =>
      simp only [List.append_assoc, List.cons_append]
      exact .colon ho hc

/-- What is left out are words, and nothing else changes. -/
theorem Drops.sublist (h : Drops a b) : (words b).Sublist (words a) := by
  cases h with
  | parentheses =>
      simp only [words_append, words_cons]
      refine .append (.refl _) (.trans ?_ (List.sublist_append_right ..))
      exact .append (.refl _) (List.sublist_append_right ..)
  | comma =>
      simp only [words_append, words_cons]
      exact .append (.refl _) (List.sublist_append_right ..)
  | colon =>
      simp only [words_append, words_cons]
      exact .append (.refl _) (List.sublist_append_right ..)

/-- A change behind other tokens. -/
theorem Changes.behind (h : Changes a b) (x : List Token) : Changes (x ++ a) (x ++ b) := by
  refine h.imp (fun hwords => ?_) (Drops.behind · x)
  rw [words_append, words_append, hwords]

/-- A change in front of other tokens. -/
theorem Changes.before (h : Changes a b) (z : List Token) : Changes (a ++ z) (b ++ z) := by
  refine h.imp (fun hwords => ?_) (Drops.before · z)
  rw [words_append, words_append, hwords]

namespace Tidies

/-- No change at all. -/
theorem refl (h : P a) : Tidies P a a :=
  ⟨h, .refl⟩

/-- The last tokens have the property too. -/
theorem target (h : Tidies P a b) : P b := by
  obtain ⟨ha, hsteps⟩ := h
  cases hsteps with
  | refl => exact ha
  | tail _ hlast => exact hlast.target

/-- One more change. -/
theorem step (h : Tidies P a b) (hc : P c) (hchanges : Changes b c) : Tidies P a c :=
  ⟨h.source, h.steps.tail ⟨h.target, hc, hchanges⟩⟩

/-- Changes after other changes. -/
theorem trans (h : Tidies P a b) (h' : Tidies P b c) : Tidies P a c :=
  ⟨h.source, h.steps.trans h'.steps⟩

/-- Whatever is put around the tokens at every step. -/
theorem map (f : List Token → List Token) (h : Tidies P a b) (hf : ∀ v, P v → Q (f v))
    (hchanges : ∀ v w, Changes v w → Changes (f v) (f w)) : Tidies Q (f a) (f b) :=
  ⟨hf a h.source, h.steps.lift f fun v w hvw =>
    ⟨hf v hvw.source, hf w hvw.target, hchanges v w hvw.changes⟩⟩

/-- A property that follows from the first may be put in its place. -/
theorem mono (h : Tidies P a b) (hQ : ∀ v, P v → Q v) : Tidies Q a b :=
  h.map id hQ fun _ _ => id

/-- The same changes behind other tokens. -/
theorem behind (x : List Token) (h : Tidies P a b) (hQ : ∀ v, P v → Q (x ++ v)) :
    Tidies Q (x ++ a) (x ++ b) :=
  h.map (x ++ ·) hQ fun _ _ hvw => hvw.behind x

/-- The same changes in front of other tokens. -/
theorem before (z : List Token) (h : Tidies P a b) (hQ : ∀ v, P v → Q (v ++ z)) :
    Tidies Q (a ++ z) (b ++ z) :=
  h.map (· ++ z) hQ fun _ _ hvw => hvw.before z

/-- Two parts, one after the other, with some tokens in front of each. -/
theorem pair (x z : List Token) (hv : Tidies P v a) (hw : Tidies Q w b)
    (hR : ∀ v w, P v → Q w → R (x ++ (v ++ (z ++ w)))) :
    Tidies R (x ++ (v ++ (z ++ w))) (x ++ (a ++ (z ++ b))) := by
  have hfirst : Tidies R (x ++ (v ++ (z ++ w))) (x ++ (a ++ (z ++ w))) :=
    hv.map (fun v => x ++ (v ++ (z ++ w))) (fun v hv => hR v w hv hw.source)
      fun _ _ h => (h.before _).behind x
  refine hfirst.trans ?_
  exact hw.map (fun w => x ++ (a ++ (z ++ w))) (fun w hw => hR a w hv.target hw)
    fun _ _ h => ((h.behind z).behind a).behind x

/-- No word is added. -/
theorem sublist (h : Tidies P a b) : (words b).Sublist (words a) := by
  obtain ⟨-, hsteps⟩ := h
  induction hsteps with
  | refl => exact .refl _
  | tail _ hlast ih =>
      refine .trans ?_ ih
      rcases hlast.changes with hwords | hdrops
      · exact hwords ▸ .refl _
      · exact hdrops.sublist

/-- What each step preserves holds of all the tokens on the way. -/
theorem preserves (h : Tidies P a b) (ha : Q a)
    (hstep : ∀ v w, Simplifies P v w → Q v → Q w) : Tidies (fun v => P v ∧ Q v) a b := by
  obtain ⟨hP, hsteps⟩ := h
  induction hsteps with
  | refl => exact .refl ⟨hP, ha⟩
  | tail _ hlast ih =>
      have hv := ih.target
      exact ih.step ⟨hlast.target, hstep _ _ hlast hv.2⟩ hlast.changes

end Tidies

end

/-! ### Parts of expressions -/

/-- The tokens are the part of an expression, whatever stands behind them. -/
def MadeOf (r : Room) (form : Form) (w : List Token) : Prop :=
  match form with
  | .expression least σ => ∃ t : Node, t.shape = σ ∧ ∀ next, Derives r w next (.expression least t)
  | .bound σ => ∀ next, ∃ t : Node, t.shape = σ ∧ Derives r w next (.bound t)
  | .bounds σ τ υ => ∀ next, ∃ a b c : Node, a.shape = σ ∧ b.shape = τ ∧ c.shape = υ ∧
      Derives r w next (.bounds a b c)
  | .item s σ => ∃ t : Node, t.shape = σ ∧ ∀ next, Derives r w next (.item s t)
  | .series s σs => ∃ ts : List Node, ts.map Tree.shape = σs ∧
      ∀ next, Derives r w next (.series s ts)

/-- The tokens with the property, and a last one behind them. -/
def Closed (P : List Token → Prop) (c : Token) (x : List Token) : Prop :=
  ∃ w, x = w ++ [c] ∧ P w

/-- What stands in front of a closing mark is simplified there. -/
theorem Tidies.closed {P : List Token → Prop} {a b : List Token} (h : Tidies P a b) (c : Token) :
    Tidies (Closed P c) (a ++ [c]) (b ++ [c]) :=
  h.before [c] fun v hv => ⟨v, rfl, hv⟩

namespace MadeOf

variable {r q : Room} {k l level : Int} {o m c name : Token} {u v w x : List Token} {t : Node}
  {σ τ υ start stop step : Shape} {σs : List Shape} {kind : NodeKind} {s : Series}

/-! #### Expressions -/

/-- A tight expression may stand where a looser one is asked for. -/
theorem looser (h : MadeOf r (.expression k σ) w) (hl : l ≤ k) : MadeOf r (.expression l σ) w := by
  obtain ⟨t, ht, h⟩ := h
  exact ⟨t, ht, fun next => .looser (h next) hl⟩

/-- More room allows no less. -/
theorem mono (h : MadeOf r (.expression k σ) w) (hr : r ≤ q) : MadeOf q (.expression k σ) w := by
  obtain ⟨t, ht, h⟩ := h
  exact ⟨t, ht, fun next => (h next).mono hr⟩

/-- The tokens of an expression of some shape are an expression. -/
theorem isExpression (h : MadeOf r (.expression k σ) w) : IsExpression k w := by
  obtain ⟨t, -, h⟩ := h
  exact .of_derives (h (.endAt .start))

/-- An expression is made of a token at least. -/
theorem ne_nil (h : MadeOf r (.expression k σ) w) : w ≠ [] :=
  h.isExpression.ne_nil

/-- Parentheses do not change the shape. -/
theorem group (ho : o.kind = .symbol .lparen) (hc : c.kind = .symbol .rparen)
    (h : MadeOf (.plain (r.primary - 1)) (.expression Level.conditional σ) w) :
    MadeOf r (.expression Level.primary σ) (o :: (w ++ [c])) := by
  obtain ⟨t, ht, h⟩ := h
  exact ⟨t, ht, fun _ => .group ho (h c) hc⟩

/-- Items and the closing mark, behind the opening mark of an array. -/
theorem array (hr : 1 < r.primary) (ho : o.kind = .symbol .arrayOpen)
    (hc : c.kind = .symbol .rbracket)
    (h : Closed (MadeOf (.plain (r.primary - 2)) (.series .elements σs)) c x) :
    MadeOf r (.expression Level.primary ⟨.array, .none, σs, ()⟩) (o :: x) := by
  obtain ⟨w, rfl, ts, rfl, h⟩ := h
  exact ⟨_, Tree.shape_none .., fun _ => .array hr ho (h c) hc⟩

/-- Entries and the closing mark, behind the opening mark of a map. -/
theorem map (hr : 1 < r.primary) (ho : o.kind = .symbol .mapOpen) (hc : c.kind = .symbol .rbrace)
    (h : Closed (MadeOf (.plain (r.primary - 2)) (.series .entries σs)) c x) :
    MadeOf r (.expression Level.primary ⟨.map, .none, σs, ()⟩) (o :: x) := by
  obtain ⟨w, rfl, ts, rfl, h⟩ := h
  exact ⟨_, Tree.shape_none .., fun _ => .map hr ho (h c) hc⟩

/-- Arguments and the closing mark, behind an expression and the opening mark. -/
theorem call (ho : o.kind = .symbol .lparen) (hc : c.kind = .symbol .rparen)
    (hf : MadeOf r (.expression Level.suffixed σ) v)
    (h : Closed (MadeOf (.plain (r.suffixed - 1)) (.series .arguments σs)) c x) :
    MadeOf r (.expression Level.suffixed ⟨.call, .node σ, σs, ()⟩) (v ++ o :: x) := by
  obtain ⟨t, rfl, hf⟩ := hf
  obtain ⟨w, rfl, ts, rfl, h⟩ := h
  exact ⟨_, Tree.shape_node .., fun _ => .call (hf o) ho (h c) hc⟩

/-- An index and the closing bracket, behind an expression and the opening one. -/
theorem index (hr : 3 < r.suffixed) (ho : o.kind = .symbol .lbracket)
    (hc : c.kind = .symbol .rbracket)
    (ht : MadeOf r (.expression Level.suffixed σ) v)
    (h : Closed (MadeOf (.resumed (r.suffixed - 2)) (.expression Level.conditional τ)) c x) :
    MadeOf r (.expression Level.suffixed ⟨.index, .none, [σ, τ], ()⟩) (v ++ o :: x) := by
  obtain ⟨t, rfl, ht⟩ := ht
  obtain ⟨w, rfl, i, rfl, h⟩ := h
  exact ⟨_, Tree.shape_none .., fun _ => .index hr (ht o) ho (h c) hc⟩

/-- The bounds and the closing bracket, behind an expression and the opening one. -/
theorem slice (hr : 3 < r.suffixed) (ho : o.kind = .symbol .lbracket)
    (hc : c.kind = .symbol .rbracket)
    (ht : MadeOf r (.expression Level.suffixed σ) v)
    (h : Closed (MadeOf (.resumed (r.suffixed - 2)) (.bounds start stop step)) c x) :
    MadeOf r (.expression Level.suffixed ⟨.slice, .none, [σ, start, stop, step], ()⟩)
      (v ++ o :: x) := by
  obtain ⟨t, rfl, ht⟩ := ht
  obtain ⟨w, rfl, hw⟩ := h
  obtain ⟨a, b, d, rfl, rfl, rfl, hbounds⟩ := hw c
  exact ⟨_, Tree.shape_none .., fun _ => .slice hr (ht o) ho hbounds hc⟩

/-- A name behind an expression and a point. -/
theorem member (ho : o.kind = .symbol .dot) (hname : name.kind = .identifier)
    (ht : MadeOf r (.expression Level.suffixed σ) v) :
    MadeOf r (.expression Level.suffixed ⟨.member, .text name.text, [σ], ()⟩)
      (v ++ [o, name]) := by
  obtain ⟨t, rfl, ht⟩ := ht
  exact ⟨_, Tree.shape_text .., fun _ => .member (ht o) ho hname⟩

/-- An operand behind a prefix operator. -/
theorem prefixed (ho : Parser.prefixed? o.kind = some kind)
    (h : MadeOf (.plain r.expression) (.expression Level.unary σ) w) :
    MadeOf r (.expression Level.unary ⟨kind, .text o.text, [σ], ()⟩) (o :: w) := by
  obtain ⟨t, rfl, h⟩ := h
  exact ⟨_, Tree.shape_text .., fun next => .prefixed ho (h next)⟩

/-- The two expressions of an iteration. -/
theorem iteration (ho : o.kind = .symbol .iter) (hm : m.kind = .symbol .pipe)
    (hv : MadeOf (.plain r.expression) (.expression Level.suffixed σ) v)
    (hw : MadeOf (.plain (r.expression - 2)) (.expression Level.unary τ) w) :
    MadeOf r (.expression Level.unary ⟨.iteration, .none, [σ, τ], ()⟩)
      (o :: (v ++ m :: w)) := by
  obtain ⟨a, rfl, hv⟩ := hv
  obtain ⟨b, rfl, hw⟩ := hw
  exact ⟨_, Tree.shape_none .., fun next => .iteration ho (hv m) hm (hw next)⟩

/-- The two operands of an operator. -/
theorem operation (ho : Parser.binary? o.kind = some (level, kind))
    (hv : MadeOf r (.expression level σ) v)
    (hw : MadeOf (.plain (r.expression - 1)) (.expression (level + 1) τ) w) :
    MadeOf r (.expression level ⟨kind, .text o.text, [σ, τ], ()⟩) (v ++ o :: w) := by
  obtain ⟨a, rfl, hv⟩ := hv
  obtain ⟨b, rfl, hw⟩ := hw
  exact ⟨_, Tree.shape_text .., fun next => .operation (hv o) ho (hw next)⟩

/-- The branches of a conditional with the mark between them. -/
def Branches (r : Room) (m : Token) (τ υ : Shape) (x : List Token) : Prop :=
  ∃ v w, x = v ++ m :: w ∧ MadeOf r (.expression Level.conditional τ) v ∧
    MadeOf r (.expression Level.conditional υ) w

/-- The branches behind a condition. -/
theorem conditional (ho : o.kind = .symbol .cond) (hm : m.kind = .symbol .alt)
    (hu : MadeOf r (.expression Level.logicalOr σ) u)
    (h : Branches (.plain (r.expression - 1)) m τ υ x) :
    MadeOf r (.expression Level.conditional ⟨.conditional, .none, [σ, τ, υ], ()⟩)
      (u ++ o :: x) := by
  obtain ⟨a, rfl, hu⟩ := hu
  obtain ⟨v, w, rfl, ⟨b, rfl, hv⟩, d, rfl, hw⟩ := h
  exact ⟨_, Tree.shape_none .., fun next => .conditional (hu o) ho (hv m) hm (hw next)⟩

/-! #### Bounds and items -/

/-- A bound that is left out is made of nothing. -/
theorem leftOut : MadeOf r (.bound ⟨.absent, .none, [], ()⟩) [] :=
  fun _ => ⟨_, Tree.shape_none .., .leftOut⟩

/-- A primary is a bound. -/
theorem bound (h : MadeOf r (.expression Level.primary σ) w) : MadeOf r (.bound σ) w := by
  obtain ⟨t, ht, h⟩ := h
  exact fun next => ⟨t, ht, .bound (h next)⟩

/-- Two bounds with a colon between them. -/
theorem twoBounds (ho : o.kind = .symbol .colon) (hv : MadeOf r (.bound σ) v)
    (hw : MadeOf (.resumed (r.primary - 2)) (.bound τ) w) :
    MadeOf r (.bounds σ τ ⟨.absent, .none, [], ()⟩) (v ++ o :: w) := by
  intro next
  obtain ⟨a, ha, hv⟩ := hv o
  obtain ⟨b, hb, hw⟩ := hw next
  exact ⟨a, b, _, ha, hb, Tree.shape_none .., .twoBounds hv ho hw⟩

/-- Three bounds, each colon a token of its own. -/
theorem threeBounds (ho : o.kind = .symbol .colon) (hm : m.kind = .symbol .colon)
    (hu : MadeOf r (.bound σ) u) (hv : MadeOf (.resumed (r.primary - 2)) (.bound τ) v)
    (hw : MadeOf (.resumed (r.primary - 2)) (.bound υ) w) :
    MadeOf r (.bounds σ τ υ) (u ++ o :: (v ++ m :: w)) := by
  intro next
  obtain ⟨a, ha, hu⟩ := hu o
  obtain ⟨b, hb, hv⟩ := hv m
  obtain ⟨d, hd, hw⟩ := hw next
  exact ⟨a, b, d, ha, hb, hd, .threeBounds hu ho hv hm hw⟩

/-- The first and the third bound, both colons one token. -/
theorem outerBounds (ho : o.kind = .symbol .alt) (hv : MadeOf r (.bound σ) v)
    (hw : MadeOf (.resumed (r.primary - 2)) (.bound υ) w) :
    MadeOf r (.bounds σ ⟨.absent, .none, [], ()⟩ υ) (v ++ o :: w) := by
  intro next
  obtain ⟨a, ha, hv⟩ := hv o
  obtain ⟨d, hd, hw⟩ := hw next
  exact ⟨a, _, d, ha, Tree.shape_none .., hd, .outerBounds hv ho hw⟩

/-- An expression is an item, except in a map. -/
theorem item (hs : s ≠ .entries) (h : MadeOf r (.expression Level.conditional σ) w) :
    MadeOf r (.item s σ) w := by
  obtain ⟨t, ht, h⟩ := h
  exact ⟨t, ht, fun next => .item hs (h next)⟩

/-- A key, a colon and a value. -/
theorem entry (hname : name.kind = .identifier ∨ name.kind = .string)
    (ho : o.kind = .symbol .colon) (h : MadeOf r (.expression Level.conditional σ) w) :
    MadeOf r
      (.item .entries ⟨.mapEntry, .node σ,
        [⟨if name.kind = .string then .string else .identifier,
          .text (Parser.literalText name), [], ()⟩], ()⟩) (name :: o :: w) := by
  obtain ⟨t, rfl, h⟩ := h
  refine ⟨_, ?_, fun next => .entry hname ho (h next)⟩
  rw [Tree.shape_node, List.map_singleton, Tree.shape_text]
  rfl

/-- Items are made of a token at least. -/
theorem ne_nil_of_series (h : MadeOf r (.series s σs) w) (hσs : σs ≠ []) : w ≠ [] := by
  obtain ⟨ts, rfl, h⟩ := h
  exact (h (.endAt .start)).ne_nil_of_series fun hts => hσs (by rw [hts, List.map_nil])

/-- No items are made of nothing. -/
theorem noItem : MadeOf r (.series s []) [] :=
  ⟨[], rfl, fun _ => .noItem⟩

/-- The last item has no comma behind it. -/
theorem lastItem (h : MadeOf r (.item s σ) w) : MadeOf r (.series s [σ]) w := by
  obtain ⟨t, rfl, h⟩ := h
  exact ⟨[t], rfl, fun next => .lastItem (h next)⟩

/-- A comma may stand behind the last item, except in a list of arguments. -/
theorem moreItems (ho : o.kind = .symbol .comma) (hv : MadeOf r (.item s σ) v)
    (hw : MadeOf r (.series s σs) w) (hlast : s = .arguments → σs ≠ []) :
    MadeOf r (.series s (σ :: σs)) (v ++ o :: w) := by
  obtain ⟨t, rfl, hv⟩ := hv
  obtain ⟨ts, rfl, hw⟩ := hw
  refine ⟨t :: ts, rfl, fun next => .moreItems (hv o) ho (hw next) fun hs hts => ?_⟩
  exact hlast hs (by rw [hts, List.map_nil])

end MadeOf

/-! ### The first token of an expression -/

/-- A simpler expression still stands behind every statement: its first token is of the same kind,
since it is neither a mark that is left out nor a colon. -/
theorem Simplifies.clear {r : Room} {least : Int} {σ : Shape} {a b : List Token} {next : Token}
    (h : Simplifies (MadeOf r (.expression least σ)) a b)
    (ha : (a.headD next).kind.EndsStatement) : (b.headD next).kind.EndsStatement := by
  obtain ⟨⟨t, -, ht⟩, ⟨u, -, hu⟩, hchanges⟩ := h
  obtain ⟨o, a, rfl, ho, -⟩ := (ht next).opensWith
  obtain ⟨o', b, rfl, -⟩ := (hu next).opensWith
  suffices hkind : o'.kind = o.kind by
    rw [List.headD_cons, hkind]
    exact ha
  have hmark : o.kind ≠ .symbol .comma ∧ o.kind ≠ .symbol .colon ∧ o.kind ≠ .symbol .alt := by
    refine ⟨?_, ?_, ?_⟩ <;> intro hk <;> rw [hk] at ho <;> revert ho <;> decide
  have hparen : o.kind ≠ .symbol .lparen := by
    intro hk
    rw [List.headD_cons, hk] at ha
    cases ha.2
  rcases hchanges with hwords | hdrops
  · exact kind_eq_of_words_eq hwords.symm hmark.2
  · generalize hx : o :: a = x at hdrops
    generalize hy : o' :: b = y at hdrops
    cases hdrops with
    | @parentheses p c u v w hp =>
        cases u with
        | nil => exact absurd ((List.cons.inj hx).1 ▸ hp) hparen
        | cons p u => rw [(List.cons.inj hx).1, (List.cons.inj hy).1]
    | @comma p c u w hp =>
        cases u with
        | nil => exact absurd ((List.cons.inj hx).1 ▸ hp) hmark.1
        | cons p u => rw [(List.cons.inj hx).1, (List.cons.inj hy).1]
    | @colon p c u w hp =>
        cases u with
        | nil => exact absurd ((List.cons.inj hx).1 ▸ hp) hmark.2.1
        | cons p u => rw [(List.cons.inj hx).1, (List.cons.inj hy).1]

end Sigil
