import Sigil.Proofs.Grammar.Language

/-!
# Nesting

How deep the parts of a program are nested can be told from its first tokens on. In front of a part
stand the opening marks of the phrases that hold it, and the other parts of those phrases, which are
complete. Some of these phrases put what they hold one level further in: brackets of all sorts, the
transform of an iteration and the branches of a conditional. An operator, a suffix or a comma does
not, whatever the number of them, and neither does a part that is complete.

So levels are counted along a path of parts, and a list of tokens opens as many levels as there are
on a path that it leads along. Nothing has to be known about what stands behind the tokens: they may
be the start of a program or of no program at all.

A parser is bounded by frames and not by levels, and what a level takes of them depends on the
phrases on the way. The most is twelve: for the expression, for the binary operators of all levels
with an operand on the right of each, for the operators in front of an operand, the operand, the
suffixes and the primary, and for the array or map that it is. So there is room for a phrase in
twelve frames for each level, and a few for the last, or its tokens lead along a path with more
levels. There is one lemma for each rule of the grammar.

## Main definitions

* `Front`: what may stand in front of a part of a phrase.
* `Leads`: the paths of parts, with the number of levels on them.
* `Opens`, `NestsWithin`: the levels that tokens open, and the nesting of a list of tokens.
* `Category.Fits`: there is room for a number of levels in a phrase.

## Main results

* `Leads.reaches`: behind each level but the last there is something one level further in.
* `Derives.bounded`: a phrase has enough room, or a path with many levels.
* `NestsWithin.derives`: the nesting of a program bounds the room that it takes.
-/

namespace Sigil

open Sigil.Parser

/-! ### Parts of phrases -/

/-- The categories of phrases. -/
inductive Category where
  | expression (least : Int)
  | bound
  | bounds
  | item (s : Series)
  | series (s : Series)
  | statement
  | statements
  deriving DecidableEq, Repr

/-- The category of a phrase. -/
@[simp] def Phrase.category : Phrase → Category
  | expression least _ => .expression least
  | bound _ => .bound
  | bounds _ _ _ => .bounds
  | item s _ => .item s
  | series s _ => .series s
  | statement _ => .statement
  | statements _ => .statements

/-- The tokens, in front of the token `next`, may stand between the start of a phrase of the first
category and a part of it that is of the second category. The number says how many levels further in
the part is, none or one. -/
inductive Front : Nat → List Token → Token → Category → Category → Prop
  | looser {next : Token} {k l : Int} (hl : l ≤ k) :
      Front 0 [] next (.expression l) (.expression k)
  | group {o next : Token} (ho : o.kind = .symbol .lparen) :
      Front 1 [o] next (.expression Level.primary) (.expression Level.conditional)
  | array {o next : Token} (ho : o.kind = .symbol .arrayOpen) :
      Front 1 [o] next (.expression Level.primary) (.series .elements)
  | map {o next : Token} (ho : o.kind = .symbol .mapOpen) :
      Front 1 [o] next (.expression Level.primary) (.series .entries)
  | arguments {r : Room} {o next : Token} {v : List Token} {t : Node}
      (hf : Derives r v o (.expression Level.suffixed t)) (ho : o.kind = .symbol .lparen) :
      Front 1 (v ++ [o]) next (.expression Level.suffixed) (.series .arguments)
  | index {r : Room} {o next : Token} {v : List Token} {t : Node}
      (ht : Derives r v o (.expression Level.suffixed t)) (ho : o.kind = .symbol .lbracket) :
      Front 1 (v ++ [o]) next (.expression Level.suffixed) (.expression Level.conditional)
  | slice {r : Room} {o next : Token} {v : List Token} {t : Node}
      (ht : Derives r v o (.expression Level.suffixed t)) (ho : o.kind = .symbol .lbracket) :
      Front 1 (v ++ [o]) next (.expression Level.suffixed) .bounds
  | operand {o next : Token} {kind : NodeKind} (ho : prefixed? o.kind = some kind) :
      Front 0 [o] next (.expression Level.unary) (.expression Level.unary)
  | collection {o next : Token} (ho : o.kind = .symbol .iter) :
      Front 0 [o] next (.expression Level.unary) (.expression Level.suffixed)
  | transform {r : Room} {o p next : Token} {v : List Token} {a : Node}
      (ho : o.kind = .symbol .iter) (ha : Derives r v p (.expression Level.suffixed a))
      (hp : p.kind = .symbol .pipe) :
      Front 1 (o :: (v ++ [p])) next (.expression Level.unary) (.expression Level.unary)
  | right {r : Room} {o next : Token} {v : List Token} {a : Node} {level : Int} {kind : NodeKind}
      (ha : Derives r v o (.expression level a)) (ho : binary? o.kind = some (level, kind)) :
      Front 0 (v ++ [o]) next (.expression level) (.expression (level + 1))
  | consequence {r : Room} {o next : Token} {u : List Token} {a : Node}
      (ha : Derives r u o (.expression Level.logicalOr a)) (ho : o.kind = .symbol .cond) :
      Front 1 (u ++ [o]) next (.expression Level.conditional) (.expression Level.conditional)
  | alternative {r q : Room} {o p next : Token} {u v : List Token} {a b : Node}
      (ha : Derives r u o (.expression Level.logicalOr a)) (ho : o.kind = .symbol .cond)
      (hb : Derives q v p (.expression Level.conditional b)) (hp : p.kind = .symbol .alt) :
      Front 1 (u ++ o :: (v ++ [p])) next (.expression Level.conditional)
        (.expression Level.conditional)
  | bound {next : Token} : Front 0 [] next .bound (.expression Level.primary)
  | start {next : Token} : Front 0 [] next .bounds .bound
  | stop {r : Room} {o next : Token} {v : List Token} {a : Node} (ha : Derives r v o (.bound a))
      (ho : o.kind = .symbol .colon) : Front 0 (v ++ [o]) next .bounds .bound
  | step {r q : Room} {o p next : Token} {u v : List Token} {a b : Node}
      (ha : Derives r u o (.bound a)) (ho : o.kind = .symbol .colon)
      (hb : Derives q v p (.bound b)) (hp : p.kind = .symbol .colon) :
      Front 0 (u ++ o :: (v ++ [p])) next .bounds .bound
  | outerStep {r : Room} {o next : Token} {v : List Token} {a : Node}
      (ha : Derives r v o (.bound a)) (ho : o.kind = .symbol .alt) :
      Front 0 (v ++ [o]) next .bounds .bound
  | item {next : Token} {s : Series} (hs : s ≠ .entries) :
      Front 0 [] next (.item s) (.expression Level.conditional)
  | value {key o next : Token} (hkey : key.kind = .identifier ∨ key.kind = .string)
      (ho : o.kind = .symbol .colon) :
      Front 0 [key, o] next (.item .entries) (.expression Level.conditional)
  | firstItem {next : Token} {s : Series} : Front 0 [] next (.series s) (.item s)
  | moreItems {r : Room} {o next : Token} {v : List Token} {s : Series} {t : Node}
      (h : Derives r v o (.item s t)) (ho : o.kind = .symbol .comma) :
      Front 0 (v ++ [o]) next (.series s) (.series s)
  | block {o next : Token} (ho : o.kind = .symbol .lbrace) :
      Front 1 [o] next .statement .statements
  /-- The expression of a bare statement or the one that a dataflow defines. -/
  | bare {next : Token} : Front 0 [] next .statement (.expression Level.conditional)
  | firstStatement {next : Token} : Front 0 [] next .statements .statement
  | moreStatements {r : Room} {v : List Token} {next : Token} {t : Node}
      (h : Derives r v next (.statement t)) : Front 0 v next .statements .statements

/-- From the start of a phrase of the first category the tokens, in front of the token `next`, lead
to the start of a part of the second category, a number of levels further in. -/
inductive Leads : Nat → List Token → Token → Category → Category → Prop
  | here {next : Token} {c : Category} : Leads 0 [] next c c
  | inside {d k : Nat} {u v : List Token} {next : Token} {b c e : Category}
      (hfront : Front d u (v.headD next) b c) (h : Leads k v next c e) :
      Leads (k + d) (u ++ v) next b e

/-- The tokens start statements and leave a number of levels open. -/
def Opens (k : Nat) (w : List Token) : Prop :=
  ∃ next c, Leads k w next .statements c

/-- The tokens nest within a number of levels: no more are open anywhere. -/
def NestsWithin (levels : Nat) (w : List Token) : Prop :=
  ∀ k v, v <+: w → Opens k v → k ≤ levels

/-- A weaker bound on the levels. -/
theorem NestsWithin.mono {k n : Nat} {w : List Token} (h : NestsWithin k w) (hn : k ≤ n) :
    NestsWithin n w :=
  fun l v hv hopens => Nat.le_trans (h l v hv hopens) hn

/-! ### First tokens -/

/-- A token of the kind may start a phrase of the category. The bounds of a slice may also start
with a colon. -/
def Category.StartsWith (kind : TokenKind) : Category → Prop
  | expression least => kind.StartsExpression ∧ (Level.suffixed ≤ least → kind ∈ primaryStarts)
  | bound => kind ∈ primaryStarts
  | bounds => True
  | item _ | series _ => kind.StartsExpression
  | statement | statements => kind.StartsExpression ∨ kind = .symbol .lbrace

/-- The category is one of those that take a level. -/
def Category.TakesLevel : Category → Prop
  | expression _ | statement => True
  | _ => False

section

variable {d k m n : Nat} {r : Room} {u v w : List Token} {next x y : Token} {b c e : Category}
  {phrase : Phrase}

/-- The first token of a primary may start every expression. -/
theorem startsWith_of_primaryStarts {kind : TokenKind} {least : Int} (h : kind ∈ primaryStarts) :
    (Category.expression least).StartsWith kind :=
  ⟨.inl h, fun _ => h⟩

/-- What starts a tight expression starts a looser one. -/
theorem Category.StartsWith.looser {kind : TokenKind} {l least : Int}
    (h : (expression least).StartsWith kind) (hl : l ≤ least) : (expression l).StartsWith kind :=
  ⟨h.1, fun hle => h.2 (Int.le_trans hle hl)⟩

/-- The first token of two parts is that of the first part, if it has one. -/
theorem headD_append (v w : List Token) (y : Token) : (v ++ w).headD y = v.headD (w.headD y) := by
  cases v <;> rfl

/-- An expression starts with a token that may start one of its level. -/
theorem Derives.startsWith_of_expression {least : Int} {t : Node}
    (h : Derives r w next (.expression least t)) (y : Token) :
    (Category.expression least).StartsWith (w.headD y).kind := by
  obtain ⟨o, v, rfl, hstart⟩ := h.opensWith
  exact hstart

/-- What stands in front of a part starts like the phrase, and so does the part if nothing does. -/
theorem Front.startsWith (h : Front d u y b c) (hc : c.StartsWith y.kind) :
    b.StartsWith (u.headD y).kind := by
  cases h with
  | looser hl => exact hc.looser hl
  | group ho | array ho | map ho =>
      exact startsWith_of_primaryStarts (by simp [ho, primaryStarts])
  | arguments ha | index ha | slice ha | right ha =>
      rw [headD_append]
      exact ha.startsWith_of_expression _
  | consequence ha | alternative ha =>
      rw [headD_append]
      exact (ha.startsWith_of_expression _).looser (by decide)
  | operand ho => exact ⟨.inr (.inl (by simp [ho])), fun h => absurd h (by decide)⟩
  | collection ho | transform ho => exact ⟨.inr (.inr ho), fun h => absurd h (by decide)⟩
  | bound => exact hc.2 (by decide)
  | start | stop | step | outerStep => trivial
  | item => exact hc.1
  | value hkey => exact .inl (by obtain hkey | hkey := hkey <;> simp [hkey, primaryStarts])
  | firstItem => exact hc
  | moreItems h =>
      obtain ⟨o, v, rfl, hstart⟩ := h.opensWith
      exact hstart
  | block ho => exact .inr ho
  | bare => exact .inl hc.1
  | firstStatement => exact hc
  | moreStatements h =>
      obtain ⟨o, v, rfl, hstart⟩ := h.opensWith
      exact hstart

/-- What stands in front of a part enters one level at most. -/
theorem Front.levels_eq (h : Front d u y b c) : d = 0 ∨ d = 1 := by
  cases h <;> first
    | exact .inl rfl
    | exact .inr rfl

/-- A phrase that holds its part one level further in takes a level itself, and starts in front of
the part. -/
theorem Front.opens (h : Front 1 u y b c) :
    ∃ o v, u = o :: v ∧ b.TakesLevel ∧ b.StartsWith o.kind := by
  cases h with
  | group ho | array ho | map ho =>
      exact ⟨_, _, rfl, trivial, startsWith_of_primaryStarts (by simp [ho, primaryStarts])⟩
  | arguments ha | index ha | slice ha | consequence ha | alternative ha =>
      obtain ⟨o, v, rfl, hstart⟩ := ha.opensWith
      exact ⟨o, _, rfl, trivial, Category.StartsWith.looser hstart (by decide)⟩
  | transform ho =>
      exact ⟨_, _, rfl, trivial, .inr (.inr ho), fun h => absurd h (by decide)⟩
  | block ho => exact ⟨_, _, rfl, trivial, .inr ho⟩

/-- The end of input stands in front of no part. -/
theorem Front.kind_ne (h : Front d u y b c) : ∀ t ∈ u, t.kind ≠ .endOfInput := by
  have hmark {v : List Token} {o : Token} {s : Symbol} (hv : ∀ t ∈ v, t.kind ≠ .endOfInput)
      (ho : o.kind = .symbol s) : ∀ t ∈ v ++ [o], t.kind ≠ .endOfInput := by
    simpa [or_imp, forall_and, ho] using hv
  cases h with
  | looser | bound | start | item | firstItem | bare | firstStatement => simp
  | group ho | array ho | map ho | collection ho | block ho => simp [ho]
  | arguments ha ho | index ha ho | slice ha ho | consequence ha ho | stop ha ho
  | outerStep ha ho | moreItems ha ho => exact hmark ha.kind_ne ho
  | operand ho =>
      obtain ⟨s, hs, -⟩ := symbol_of_prefixed? ho
      simp [hs]
  | right ha ho =>
      obtain ⟨s, hs, -⟩ := symbol_of_binary? ho
      exact hmark ha.kind_ne hs
  | transform ho ha hp => exact List.forall_mem_cons.2 ⟨by simp [ho], hmark ha.kind_ne hp⟩
  | alternative ha ho hb hp | step ha ho hb hp =>
      exact List.forall_mem_append.2
        ⟨ha.kind_ne, List.forall_mem_cons.2 ⟨by simp [ho], hmark hb.kind_ne hp⟩⟩
  | value hkey ho => obtain hkey | hkey := hkey <;> simp [hkey, ho]
  | moreStatements h => exact h.kind_ne

/-- The way to a part starts like the phrase, whatever the part starts with. -/
theorem Leads.startsWith (h : Leads k w next b e) (he : e.StartsWith next.kind) :
    b.StartsWith (w.headD next).kind := by
  induction h with
  | here => exact he
  | inside hfront _ ih =>
      rw [headD_append]
      exact hfront.startsWith (ih he)

/-- The end of input stands on no way to a part. -/
theorem Leads.kind_ne (h : Leads k w next b e) : ∀ t ∈ w, t.kind ≠ .endOfInput := by
  induction h with
  | here => simp
  | inside hfront _ ih => exact List.forall_mem_append.2 ⟨hfront.kind_ne, ih⟩

/-! ### Something that far in -/

/-- The tokens lead to an expression or a statement, at least a number of levels further in, and
the first token of that is among them. -/
def Reaches (n : Nat) (w : List Token) (c : Category) : Prop :=
  ∃ u x rest k e, w = u ++ x :: rest ∧ Leads k u x c e ∧ n ≤ k ∧ e.TakesLevel ∧ e.StartsWith x.kind

/-- Tokens behind do not take back what has been reached. -/
theorem Reaches.append (h : Reaches n v c) (w : List Token) : Reaches n (v ++ w) c := by
  obtain ⟨u, x, rest, k, e, rfl, h⟩ := h
  exact ⟨u, x, rest ++ w, k, e, by simp, h⟩

/-- In front of a part that reaches far in, the tokens reach as far, and one level further where
they enter one. -/
theorem Reaches.of_front (h : Reaches n w c) (hfront : Front d u (w.headD y) b c)
    (hm : m ≤ n + d) : Reaches m (u ++ w) b := by
  obtain ⟨v, x, rest, k, e, rfl, h, hk, hstart⟩ := h
  rw [headD_append] at hfront
  exact ⟨u ++ v, x, rest, k + d, e, by simp, .inside hfront h, by omega, hstart⟩

/-- The same in front of a part on the same level. -/
theorem Reaches.along (h : Reaches n w c) (hfront : ∀ y, Front 0 u y b c) :
    Reaches n (u ++ w) b :=
  h.of_front (hfront (w.headD (.endAt .start))) (by omega)

/-- The same in front of a part one level further in. -/
theorem Reaches.inside (h : Reaches n w c) (hfront : ∀ y, Front 1 u y b c) :
    Reaches (n + 1) (u ++ w) b :=
  h.of_front (hfront (w.headD (.endAt .start))) (by omega)

/-- A phrase that takes a level reaches itself. -/
theorem Derives.reaches_zero (h : Derives r w next phrase) (hlevel : phrase.category.TakesLevel) :
    Reaches 0 w phrase.category := by
  have hstart := h.opensWith
  cases phrase with
  | expression | statement =>
      obtain ⟨o, v, rfl, hstart⟩ := hstart
      exact ⟨[], o, v, 0, _, rfl, .here, Nat.le_refl _, trivial, hstart⟩
  | _ => cases hlevel

/-- Behind each level but the last there is something that takes the level. -/
theorem Leads.reaches (h : Leads k w next b e) (hn : n < k) : Reaches n w b := by
  induction h generalizing n with
  | here => exact absurd hn (Nat.not_lt_zero n)
  | @inside d k u v next b c e hfront h ih =>
      obtain rfl | rfl := hfront.levels_eq
      · exact (ih (n := n) (by omega)).of_front hfront (by omega)
      · cases n with
        | zero =>
            obtain ⟨o, u, rfl, hb, hstart⟩ := hfront.opens
            exact ⟨[], o, u ++ v, 0, b, rfl, .here, Nat.le_refl _, hb, hstart⟩
        | succ n => exact (ih (n := n) (by omega)).of_front hfront (by omega)

end

/-! ### Room for levels -/

/-- There is room for an expression of level `l` with `k` levels and the expressions in the last.
The room that is asked for on the way to its first operand depends on how many levels of operators
there are in front of it. -/
structure Room.Fits (k : Nat) (l : Int) (r : Room) : Prop where
  expression : (12 * k + 13 : Int) ≤ r.expression + max Level.logicalOr (min l Level.unary)
  suffixed : 12 * k + 13 ≤ r.suffixed + 11
  primary : 12 * k + 13 ≤ r.primary + 12

/-- There is room for a phrase of the category with `k` levels and the expressions in the last. -/
def Category.Fits (k : Nat) (r : Room) : Category → Prop
  | expression l => r.Fits k l
  | bound => r.Fits k Level.primary
  | bounds => r.Fits k Level.primary ∧ 12 * k + 8 ≤ r.primary
  | item _ | series _ | statement | statements => r.Fits k Level.conditional

namespace Room

variable {k n : Nat} {l : Int} {r : Room}

/-- Room for a phrase that is read from its start. The tighter an expression is, the fewer frames
are left when it is called for. -/
theorem fits_plain (h : (12 * k + 13 : Int) ≤ n + max Level.logicalOr (min l Level.unary)) :
    (plain n).Fits k l := by
  refine ⟨h, ?_, ?_⟩ <;> simp only [plain, Level.logicalOr, Level.unary] at * <;> omega

/-- Room for an expression whose first operand is parsed already. The same number of frames will
do. -/
theorem fits_resumed (h : (12 * k + 13 : Int) ≤ n + max Level.logicalOr (min l Level.unary)) :
    (resumed n).Fits k l := by
  refine ⟨h, ?_, ?_⟩ <;> simp only [resumed, Level.logicalOr, Level.unary] at * <;> omega

/-- Whatever the level is, the expression starts with the loosest operators or tighter ones. -/
theorem fits_plain_of_le (h : 12 * k + 11 ≤ n) : (plain n).Fits k l :=
  fits_plain (by simp only [Level.logicalOr]; omega)

/-- The same, with the first operand parsed already. -/
theorem fits_resumed_of_le (h : 12 * k + 11 ≤ n) : (resumed n).Fits k l :=
  fits_resumed (by simp only [Level.logicalOr]; omega)

/-- Twelve frames for each level, whatever the expression is. -/
theorem Fits.frames (h : r.Fits k l) : 12 * k + 6 ≤ r.expression := by
  have hexpression := h.expression
  simp only [Level.logicalOr, Level.unary] at hexpression
  omega

/-- Room for a loose expression is room for a tighter one. -/
theorem Fits.tighter {l' : Int} (h : r.Fits k l) (hl : l ≤ l') : r.Fits k l' where
  expression := Int.le_trans h.expression (by omega)
  suffixed := h.suffixed
  primary := h.primary

end Room

/-! ### Room for the rules -/

/-- Wherever there is room for a number of levels, there is room for the phrase, or its tokens lead
that far in. -/
def Phrase.Bounded (w : List Token) (next : Token) (phrase : Phrase) : Prop :=
  ∀ n r, phrase.category.Fits n r → Derives r w next phrase ∨ Reaches n w phrase.category

namespace Phrase.Bounded

variable {r : Room} {u v w : List Token} {o c p m next key name : Token} {t a b d : Node}
  {ts : List Node} {phrase : Phrase} {kind : NodeKind} {k l level : Int} {s : Series}

/-- With no level left a phrase that takes a level reaches itself. So only the other numbers of
levels have to be looked at. -/
theorem of_succ (h : Derives r w next phrase) (hlevel : phrase.category.TakesLevel)
    (hsucc : ∀ n r, phrase.category.Fits (n + 1) r →
      Derives r w next phrase ∨ Reaches (n + 1) w phrase.category) : phrase.Bounded w next
  | 0, _, _ => .inr (h.reaches_zero hlevel)
  | n + 1, r, hr => hsucc n r hr

/-! #### Primaries -/

/-- What the tighter expression reaches, the looser one does. -/
theorem looser (ih : (expression k t).Bounded w next) (hl : l ≤ k) :
    (expression l t).Bounded w next :=
  fun n r hr => (ih n r (Room.Fits.tighter hr hl)).imp (.looser · hl) (·.along fun _ => .looser hl)

/-- A literal takes one frame. -/
theorem literal (hr : 0 < r.primary) (ho : literal? o.kind = some kind) :
    (expression Level.primary ⟨kind, .text (literalText o), [], ⟨o.position, o.stop⟩⟩).Bounded
      [o] next := by
  refine of_succ (.literal hr ho) trivial fun n q hq => .inl (.literal ?_ ho)
  have hprimary := hq.primary
  omega

/-- The expression in parentheses is one level further in, and is left all frames but one. -/
theorem group (ho : o.kind = .symbol .lparen)
    (h : Derives (.plain (r.primary - 1)) w c (.expression Level.conditional t))
    (hc : c.kind = .symbol .rparen) (ih : (expression Level.conditional t).Bounded w c) :
    (expression Level.primary t).Bounded (o :: (w ++ [c])) next := by
  refine of_succ (.group ho h hc) trivial fun n q hq => ?_
  have hprimary := hq.primary
  exact (ih n _ (Room.fits_plain_of_le (by omega))).imp (.group ho · hc)
    fun h => (h.append _).inside fun _ => .group ho

/-- The items of an array or a map are one level further in, and are left all frames but two. -/
theorem enclosed
    (hmake : ∀ {q : Room}, 1 < q.primary → Derives (.plain (q.primary - 2)) w c (.series s ts) →
      Derives q (o :: (w ++ [c])) next
        (.expression Level.primary ⟨kind, .none, ts, ⟨o.position, c.stop⟩⟩))
    (hfront : ∀ y, Front 1 [o] y (.expression Level.primary) (.series s)) (hr : 1 < r.primary)
    (h : Derives (.plain (r.primary - 2)) w c (.series s ts)) (ih : (series s ts).Bounded w c) :
    (expression Level.primary ⟨kind, .none, ts, ⟨o.position, c.stop⟩⟩).Bounded
      (o :: (w ++ [c])) next := by
  refine of_succ (hmake hr h) trivial fun n q hq => ?_
  have hprimary := hq.primary
  exact (ih n _ (Room.fits_plain_of_le (by omega))).imp (hmake (by omega))
    fun h => (h.append _).inside hfront

/-! #### Suffixes -/

/-- The expression that is called is on the same level, the arguments are one level further in. -/
theorem call (hf : Derives r v o (.expression Level.suffixed t)) (ho : o.kind = .symbol .lparen)
    (h : Derives (.plain (r.suffixed - 1)) w c (.series .arguments ts))
    (hc : c.kind = .symbol .rparen) (ihf : (expression Level.suffixed t).Bounded v o)
    (ih : (series .arguments ts).Bounded w c) :
    (expression Level.suffixed ⟨.call, .node t, ts, ⟨t.mark.start, c.stop⟩⟩).Bounded
      (v ++ o :: (w ++ [c])) next := by
  refine of_succ (.call hf ho h hc) trivial fun n q hq => ?_
  have hsuffixed := hq.suffixed
  obtain hf' | hf' := ihf (n + 1) q hq
  · refine (ih n _ (Room.fits_plain_of_le (by omega))).imp (.call hf' ho · hc) fun h => ?_
    simpa using (h.append _).inside fun _ => .arguments hf ho
  · exact .inr (hf'.append _)

/-- The indexed expression is on the same level, the index is one level further in. -/
theorem index {i : Node} (hr : 3 < r.suffixed) (ht : Derives r v o (.expression Level.suffixed t))
    (ho : o.kind = .symbol .lbracket)
    (h : Derives (.resumed (r.suffixed - 2)) w c (.expression Level.conditional i))
    (hc : c.kind = .symbol .rbracket) (iht : (expression Level.suffixed t).Bounded v o)
    (ih : (expression Level.conditional i).Bounded w c) :
    (expression Level.suffixed ⟨.index, .none, [t, i], ⟨t.mark.start, c.stop⟩⟩).Bounded
      (v ++ o :: (w ++ [c])) next := by
  refine of_succ (.index hr ht ho h hc) trivial fun n q hq => ?_
  have hsuffixed := hq.suffixed
  obtain ht' | ht' := iht (n + 1) q hq
  · refine (ih n _ (Room.fits_resumed_of_le (by omega))).imp (.index (by omega) ht' ho · hc)
      fun h => ?_
    simpa using (h.append _).inside fun _ => .index ht ho
  · exact .inr (ht'.append _)

/-- The sliced expression is on the same level, the bounds are one level further in. -/
theorem slice {start stop step : Node} (hr : 3 < r.suffixed)
    (ht : Derives r v o (.expression Level.suffixed t)) (ho : o.kind = .symbol .lbracket)
    (h : Derives (.resumed (r.suffixed - 2)) w c (.bounds start stop step))
    (hc : c.kind = .symbol .rbracket) (iht : (expression Level.suffixed t).Bounded v o)
    (ih : (bounds start stop step).Bounded w c) :
    (expression Level.suffixed
      ⟨.slice, .none, [t, start, stop, step], ⟨t.mark.start, c.stop⟩⟩).Bounded
      (v ++ o :: (w ++ [c])) next := by
  refine of_succ (.slice hr ht ho h hc) trivial fun n q hq => ?_
  have hsuffixed := hq.suffixed
  have hbounds : Category.bounds.Fits n (.resumed (q.suffixed - 2)) :=
    ⟨Room.fits_resumed_of_le (by omega), by simp only [Room.resumed]; omega⟩
  obtain ht' | ht' := iht (n + 1) q hq
  · refine (ih n _ hbounds).imp (.slice (by omega) ht' ho · hc) fun h => ?_
    simpa using (h.append _).inside fun _ => .slice ht ho
  · exact .inr (ht'.append _)

/-- The only part of a member is on the same level. -/
theorem member (ht : Derives r v o (.expression Level.suffixed t)) (ho : o.kind = .symbol .dot)
    (hname : name.kind = .identifier) (iht : (expression Level.suffixed t).Bounded v o) :
    (expression Level.suffixed ⟨.member, .text name.text, [t], ⟨t.mark.start, name.stop⟩⟩).Bounded
      (v ++ [o, name]) next := by
  refine of_succ (.member ht ho hname) trivial fun n q hq => ?_
  exact (iht (n + 1) q hq).imp (.member · ho hname) fun h => h.append _

/-! #### Operators -/

/-- The operand of a prefix operator takes no more room than the whole. -/
theorem prefixed (ho : prefixed? o.kind = some kind)
    (h : Derives (.plain r.expression) w next (.expression Level.unary t))
    (ih : (expression Level.unary t).Bounded w next) :
    (expression Level.unary ⟨kind, .text o.text, [t], ⟨o.position, lastStop w⟩⟩).Bounded
      (o :: w) next := by
  refine of_succ (.prefixed ho h) trivial fun n q hq => ?_
  exact (ih (n + 1) _ (Room.fits_plain hq.expression)).imp (.prefixed ho ·)
    fun h => h.along fun _ => .operand ho

/-- The collection is on the same level, and the transform is one level further in. -/
theorem iteration (ho : o.kind = .symbol .iter)
    (ha : Derives (.plain r.expression) v m (.expression Level.suffixed a))
    (hm : m.kind = .symbol .pipe)
    (hb : Derives (.plain (r.expression - 2)) w next (.expression Level.unary b))
    (iha : (expression Level.suffixed a).Bounded v m)
    (ihb : (expression Level.unary b).Bounded w next) :
    (expression Level.unary ⟨.iteration, .none, [a, b], ⟨o.position, lastStop w⟩⟩).Bounded
      (o :: (v ++ m :: w)) next := by
  refine of_succ (.iteration ho ha hm hb) trivial fun n q hq => ?_
  have hframes := hq.frames
  have hcollection : (Room.plain q.expression).Fits (n + 1) Level.suffixed :=
    Room.Fits.tighter (Room.fits_plain hq.expression) (by decide)
  obtain ha' | ha' := iha (n + 1) _ hcollection
  · refine (ihb n _ (Room.fits_plain_of_le (by omega))).imp (.iteration ho ha' hm ·) fun h => ?_
    simpa using h.inside fun _ => .transform ho ha hm
  · exact .inr ((ha'.append _).along fun _ => .collection ho)

/-- An operand on the right is read with one frame less, and asks for tighter operators. -/
theorem operation (ha : Derives r v o (.expression level a))
    (ho : binary? o.kind = some (level, kind))
    (hb : Derives (.plain (r.expression - 1)) w next (.expression (level + 1) b))
    (iha : (expression level a).Bounded v o) (ihb : (expression (level + 1) b).Bounded w next) :
    (expression level ⟨kind, .text o.text, [a, b], ⟨a.mark.start, lastStop w⟩⟩).Bounded
      (v ++ o :: w) next := by
  refine of_succ (.operation ha ho hb) trivial fun n q hq => ?_
  have hlow := TokenKind.logicalOr_le_of_binary? ho
  have hhigh := level_lt_unary ho
  have hframes := hq.frames
  have hright : (Room.plain (q.expression - 1)).Fits (n + 1) (level + 1) := by
    refine Room.fits_plain ?_
    have hexpression := hq.expression
    omega
  obtain ha' | ha' := iha (n + 1) q hq
  · refine (ihb (n + 1) _ hright).imp (.operation ha' ho ·) fun h => ?_
    simpa using h.along fun _ => .right ha ho
  · exact .inr (ha'.append _)

/-- The condition is on the same level, and both branches are one level further in. -/
theorem conditional (ha : Derives r u o (.expression Level.logicalOr a))
    (ho : o.kind = .symbol .cond)
    (hb : Derives (.plain (r.expression - 1)) v m (.expression Level.conditional b))
    (hm : m.kind = .symbol .alt)
    (hd : Derives (.plain (r.expression - 1)) w next (.expression Level.conditional d))
    (iha : (expression Level.logicalOr a).Bounded u o)
    (ihb : (expression Level.conditional b).Bounded v m)
    (ihd : (expression Level.conditional d).Bounded w next) :
    (expression Level.conditional
      ⟨.conditional, .none, [a, b, d], ⟨a.mark.start, lastStop w⟩⟩).Bounded
      (u ++ o :: (v ++ m :: w)) next := by
  refine of_succ (.conditional ha ho hb hm hd) trivial fun n q hq => ?_
  have hframes := hq.frames
  have hbranch : (Room.plain (q.expression - 1)).Fits n Level.conditional :=
    Room.fits_plain_of_le (by omega)
  obtain ha' | ha' := iha (n + 1) q (Room.Fits.tighter hq (by decide))
  · obtain hb' | hb' := ihb n _ hbranch
    · refine (ihd n _ hbranch).imp (.conditional ha' ho hb' hm ·) fun h => ?_
      simpa using h.inside fun _ => .alternative ha ho hb hm
    · refine .inr ?_
      simpa using (hb'.append _).inside fun _ => .consequence ha ho
  · exact .inr ((ha'.append _).along fun _ => .looser (by decide))

/-! #### Bounds of slices -/

/-- A bound that is left out takes no room. -/
theorem leftOut :
    (bound ⟨.absent, .none, [], ⟨next.position, next.position.offset⟩⟩).Bounded [] next :=
  fun _ _ _ => .inl .leftOut

/-- A bound takes the room of the primary that it is. -/
theorem present (ih : (expression Level.primary t).Bounded w next) : (bound t).Bounded w next :=
  fun n r hr => (ih n r hr).imp .bound (·.along fun _ => .bound)

/-- The bounds behind the first one are read with two frames less. -/
theorem fits_bound {n : Nat} (hr : Category.bounds.Fits n r) :
    Category.bound.Fits n (.resumed (r.primary - 2)) := by
  have hprimary := hr.2
  refine Room.fits_resumed ?_
  simp only [Level.logicalOr, Level.unary, Level.primary]
  omega

/-- The bounds of a slice are on one level, but the later ones have less room. -/
theorem twoBounds (ha : Derives r v o (.bound a)) (ho : o.kind = .symbol .colon)
    (iha : (bound a).Bounded v o) (ihb : (bound b).Bounded w next) :
    (bounds a b ⟨.absent, .none, [], ⟨next.position, next.position.offset⟩⟩).Bounded
      (v ++ o :: w) next := by
  intro n q hq
  obtain ha' | ha' := iha n q hq.1
  · refine (ihb n _ (fits_bound hq)).imp (.twoBounds ha' ho ·) fun h => ?_
    simpa using h.along fun _ => .stop ha ho
  · exact .inr ((ha'.append _).along fun _ => .start)

/-- Of three bounds, any may be the one that reaches as far in. -/
theorem threeBounds (ha : Derives r u o (.bound a)) (ho : o.kind = .symbol .colon)
    (hb : Derives (.resumed (r.primary - 2)) v m (.bound b)) (hm : m.kind = .symbol .colon)
    (iha : (bound a).Bounded u o) (ihb : (bound b).Bounded v m) (ihd : (bound d).Bounded w next) :
    (bounds a b d).Bounded (u ++ o :: (v ++ m :: w)) next := by
  intro n q hq
  obtain ha' | ha' := iha n q hq.1
  · obtain hb' | hb' := ihb n _ (fits_bound hq)
    · refine (ihd n _ (fits_bound hq)).imp (.threeBounds ha' ho hb' hm ·) fun h => ?_
      simpa using h.along fun _ => .step ha ho hb hm
    · refine .inr ?_
      simpa using (hb'.append _).along fun _ => .stop ha ho
  · exact .inr ((ha'.append _).along fun _ => .start)

/-- The same without a second bound. -/
theorem outerBounds (ha : Derives r v o (.bound a)) (ho : o.kind = .symbol .alt)
    (iha : (bound a).Bounded v o) (ihd : (bound d).Bounded w next) :
    (bounds a ⟨.absent, .none, [], ⟨o.position, o.position.offset⟩⟩ d).Bounded
      (v ++ o :: w) next := by
  intro n q hq
  obtain ha' | ha' := iha n q hq.1
  · refine (ihd n _ (fits_bound hq)).imp (.outerBounds ha' ho ·) fun h => ?_
    simpa using h.along fun _ => .outerStep ha ho
  · exact .inr ((ha'.append _).along fun _ => .start)

/-! #### Series and statements -/

/-- An item takes the room of the expression that it is. -/
theorem item (hs : s ≠ .entries) (ih : (expression Level.conditional t).Bounded w next) :
    (item s t).Bounded w next :=
  fun n r hr => (ih n r hr).imp (.item hs) (·.along fun _ => .item hs)

/-- An entry takes the room of its value. -/
theorem entry (hkey : key.kind = .identifier ∨ key.kind = .string) (ho : o.kind = .symbol .colon)
    (ih : (expression Level.conditional t).Bounded w next) :
    (Phrase.item .entries
      ⟨.mapEntry, .node t,
        [⟨if key.kind = .string then .string else .identifier, .text (literalText key), [],
          ⟨key.position, key.stop⟩⟩],
        ⟨key.position, lastStop w⟩⟩).Bounded (key :: o :: w) next :=
  fun n r hr => (ih n r hr).imp (.entry hkey ho) (·.along fun _ => .value hkey ho)

/-- Items are on one level. -/
theorem moreItems (h : Derives r v o (.item s t)) (ho : o.kind = .symbol .comma)
    (hlast : s = .arguments → ts ≠ []) (ih : (Phrase.item s t).Bounded v o)
    (ihs : (series s ts).Bounded w next) : (series s (t :: ts)).Bounded (v ++ o :: w) next := by
  intro n q hq
  obtain h' | h' := ih n q hq
  · refine (ihs n q hq).imp (.moreItems h' ho · hlast) fun hs => ?_
    simpa using hs.along fun _ => .moreItems h ho
  · exact .inr ((h'.append _).along fun _ => .firstItem)

/-- The statements of a block are one level further in, and are left all frames but two. -/
theorem block (hr : 0 < r.expression) (ho : o.kind = .symbol .lbrace)
    (h : Derives (.plain (r.expression - 2)) w c (.statements ts)) (hc : c.kind = .symbol .rbrace)
    (ih : (statements ts).Bounded w c) :
    (statement ⟨.block, .none, ts, ⟨o.position, c.stop⟩⟩).Bounded (o :: (w ++ [c])) next := by
  refine of_succ (.block hr ho h hc) trivial fun n q hq => ?_
  have hframes := Room.Fits.frames hq
  exact (ih n _ (Room.fits_plain_of_le (by omega))).imp (.block (by omega) ho · hc)
    fun h => (h.append _).inside fun _ => .block ho

/-- Statements behind each other are on one level. -/
theorem moreStatements (h : Derives r v (w.headD next) (.statement t))
    (ih : (statement t).Bounded v (w.headD next)) (ihs : (statements ts).Bounded w next) :
    (statements (t :: ts)).Bounded (v ++ w) next := by
  intro n q hq
  obtain h' | h' := ih n q hq
  · exact (ihs n q hq).imp (.moreStatements h' ·) (·.of_front (.moreStatements h) (by omega))
  · exact .inr ((h'.append _).along fun _ => .firstStatement)

end Phrase.Bounded

/-! ### Room for programs -/

section

variable {n m : Nat} {r : Room} {w : List Token} {next : Token} {phrase : Phrase}

/-- Wherever there is room for a number of levels, there is room for a phrase, or its tokens lead
that far in. -/
theorem Derives.bounded (h : Derives r w next phrase) : phrase.Bounded w next := by
  induction h with
  | looser _ hl ih => exact ih.looser hl
  | literal hr ho => exact .literal hr ho
  | group ho h hc ih => exact .group ho h hc ih
  | array hr ho h hc ih => exact .enclosed (.array · ho · hc) (fun _ => .array ho) hr h ih
  | map hr ho h hc ih => exact .enclosed (.map · ho · hc) (fun _ => .map ho) hr h ih
  | call hf ho h hc ihf ih => exact .call hf ho h hc ihf ih
  | index hr ht ho h hc iht ih => exact .index hr ht ho h hc iht ih
  | slice hr ht ho h hc iht ih => exact .slice hr ht ho h hc iht ih
  | member ht ho hname iht => exact .member ht ho hname iht
  | prefixed ho h ih => exact .prefixed ho h ih
  | iteration ho ha hm hb iha ihb => exact .iteration ho ha hm hb iha ihb
  | operation ha ho hb iha ihb => exact .operation ha ho hb iha ihb
  | conditional ha ho hb hm hc iha ihb ihc => exact .conditional ha ho hb hm hc iha ihb ihc
  | leftOut => exact .leftOut
  | bound _ ih => exact .present ih
  | twoBounds ha ho _ iha ihb => exact .twoBounds ha ho iha ihb
  | threeBounds ha ho hb hm _ iha ihb ihc => exact .threeBounds ha ho hb hm iha ihb ihc
  | outerBounds ha ho _ iha ihc => exact .outerBounds ha ho iha ihc
  | item hs _ ih => exact .item hs ih
  | entry hkey ho _ ih => exact .entry hkey ho ih
  | noItem => exact fun _ _ _ => .inl .noItem
  | lastItem _ ih => exact fun n q hq => (ih n q hq).imp .lastItem (·.along fun _ => .firstItem)
  | moreItems h ho _ hlast ih ihs => exact .moreItems h ho hlast ih ihs
  | block hr ho h hc ih => exact .block hr ho h hc ih
  | dataflow _ ho hname ih =>
      exact fun n q hq => (ih n q hq).imp (.dataflow · ho hname)
        fun h => (h.append _).along fun _ => .bare
  | bare _ hnext ih =>
      exact fun n q hq => (ih n q hq).imp (.bare · hnext) (·.along fun _ => .bare)
  | noStatement => exact fun _ _ _ => .inl .noStatement
  | moreStatements h _ ih ihs => exact .moreStatements h ih ihs

/-- Twelve frames for each level that statements open, and those for the expressions in the last
level, are room for them. -/
theorem NestsWithin.derives {ts : List Node} (hnests : NestsWithin n w)
    (h : Derives r w next (.statements ts)) (hm : 12 * (n + 1) + 11 ≤ m) :
    Derives (.plain m) w next (.statements ts) := by
  obtain h | ⟨u, x, rest, k, e, rfl, hleads, hk, -⟩ :=
    h.bounded (n + 1) (.plain m) (Room.fits_plain_of_le hm)
  · exact h
  · have hle := hnests k u (List.prefix_append u _) ⟨x, e, hleads⟩
    omega

end

end Sigil
