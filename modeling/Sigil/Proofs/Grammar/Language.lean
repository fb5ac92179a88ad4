import Sigil.Proofs.Grammar.Basic

/-!
# The languages of the grammar

The lists of tokens that are a phrase of a kind, whatever the phrase stands for. Each rule of the
grammar says how such lists are put together.

An expression that a suffix, an operation or the branches of a conditional follow is an expression
again, of the same level: what follows is taken by the last operand of the expression that is loose
enough, and not by the expression as a whole. So an expression in front of one that starts with a
parenthesis or a minus sign makes a single expression, and statements in front of others are always
statements, though perhaps fewer.

## Main definitions

* `IsExpression`, `IsSeries`, `IsStatements` and the like: the tokens of each kind of phrase.
* `CarriesOn`: what makes an expression of one level out of every expression of another.

## Main results

* `IsExpression.carriedOn`: what carries on tight expressions carries on loose ones.
* `IsExpression.joined`: an expression behind another one may carry it on.
* `IsStatements.cons`: a statement in front of others.
-/

namespace Sigil

/-! ### The token behind a phrase -/

/-- The tokens are the phrase in front of other tokens as well. A bare expression is a statement in
front of those that do not carry it on, and a left out bound has its mark in front of the token. -/
def Phrase.StandsAnywhere (r : Room) (w : List Token) : Phrase → Prop
  | expression least t => ∀ next, Derives r w next (.expression least t)
  | bound _ => ∀ next, ∃ t, Derives r w next (.bound t)
  | bounds _ _ _ => ∀ next, ∃ start stop step, Derives r w next (.bounds start stop step)
  | item s t => ∀ next, Derives r w next (.item s t)
  | series s ts => ∀ next, Derives r w next (.series s ts)
  | statement t => ∀ next, next.kind.EndsStatement → Derives r w next (.statement t)
  | statements ts => ∀ next, next.kind.EndsStatement → Derives r w next (.statements ts)

namespace Derives

variable {r : Room} {w : List Token} {next : Token} {phrase : Phrase}

/-- No rule looks at the token behind the phrase, except for bare expressions and for the places of
bounds that are left out. -/
theorem standsAnywhere (h : Derives r w next phrase) : phrase.StandsAnywhere r w := by
  induction h with
  | looser _ hl ih => exact fun next => .looser (ih next) hl
  | literal hr ho => exact fun _ => .literal hr ho
  | group ho h hc => exact fun _ => .group ho h hc
  | array hr ho h hc => exact fun _ => .array hr ho h hc
  | map hr ho h hc => exact fun _ => .map hr ho h hc
  | call hf ho h hc => exact fun _ => .call hf ho h hc
  | index hr ht ho h hc => exact fun _ => .index hr ht ho h hc
  | slice hr ht ho h hc => exact fun _ => .slice hr ht ho h hc
  | member ht ho hname => exact fun _ => .member ht ho hname
  | prefixed ho _ ih => exact fun next => .prefixed ho (ih next)
  | iteration ho ha hm _ _ ih => exact fun next => .iteration ho ha hm (ih next)
  | operation ha ho _ _ ih => exact fun next => .operation ha ho (ih next)
  | conditional ha ho hb hm _ _ _ ih => exact fun next => .conditional ha ho hb hm (ih next)
  | leftOut => exact fun _ => ⟨_, .leftOut⟩
  | bound _ ih => exact fun next => ⟨_, .bound (ih next)⟩
  | twoBounds ha ho _ _ ih =>
      intro next
      obtain ⟨b, hb⟩ := ih next
      exact ⟨_, b, _, .twoBounds ha ho hb⟩
  | threeBounds ha ho hb hm _ _ _ ih =>
      intro next
      obtain ⟨c, hc⟩ := ih next
      exact ⟨_, _, c, .threeBounds ha ho hb hm hc⟩
  | outerBounds ha ho _ _ ih =>
      intro next
      obtain ⟨c, hc⟩ := ih next
      exact ⟨_, _, c, .outerBounds ha ho hc⟩
  | item hs _ ih => exact fun next => .item hs (ih next)
  | entry hkey ho _ ih => exact fun next => .entry hkey ho (ih next)
  | noItem => exact fun _ => .noItem
  | lastItem _ ih => exact fun next => .lastItem (ih next)
  | moreItems h ho _ hlast _ ih => exact fun next => .moreItems h ho (ih next) hlast
  | block hr ho h hc => exact fun _ _ => .block hr ho h hc
  | dataflow h ho hname => exact fun _ _ => .dataflow h ho hname
  | bare _ _ ih => exact fun next hnext => .bare (ih next) hnext
  | noStatement => exact fun _ _ => .noStatement
  | @moreStatements r v w next t ts h _ ih ihs =>
      intro next' hnext
      refine .moreStatements ?_ (ihs next' hnext)
      cases w with
      | nil => exact ih next' hnext
      | cons o w => exact h

/-- A phrase does not contain the end of input. -/
theorem kind_ne (h : Derives r w next phrase) : ∀ t ∈ w, t.kind ≠ .endOfInput := by
  have hkind {o : Token} {kind : TokenKind} (ho : o.kind = kind) (hne : kind ≠ .endOfInput) :
      o.kind ≠ .endOfInput := ho ▸ hne
  induction h with
  | literal _ ho =>
      refine List.forall_mem_singleton.2 fun hend => ?_
      rw [hend] at ho
      cases ho
  | prefixed ho _ ih =>
      refine List.forall_mem_cons.2 ⟨fun hend => ?_, ih⟩
      rw [hend] at ho
      cases ho
  | operation _ ho _ iha ihb =>
      refine List.forall_mem_append.2 ⟨iha, List.forall_mem_cons.2 ⟨fun hend => ?_, ihb⟩⟩
      rw [hend] at ho
      cases ho
  | entry hkey ho _ ih =>
      refine List.forall_mem_cons.2 ⟨?_, List.forall_mem_cons.2 ⟨hkind ho (by simp), ih⟩⟩
      obtain hkey | hkey := hkey <;> simp [hkey]
  | _ => simp_all [or_imp]

end Derives

/-! ### Languages -/

/-- The tokens are an expression at a place that asks for a level. -/
def IsExpression (least : Int) (w : List Token) : Prop :=
  ∃ n t, ∀ next, Derives (.plain n) w next (.expression least t)

/-- The tokens are a bound of a slice, or none is there. -/
def IsBound (w : List Token) : Prop :=
  ∃ n, ∀ next, ∃ t, Derives (.plain n) w next (.bound t)

/-- The tokens are the bounds of a slice with their colons. -/
def IsBounds (w : List Token) : Prop :=
  ∃ n, ∀ next, ∃ start stop step, Derives (.plain n) w next (.bounds start stop step)

/-- The tokens are an item of a series. -/
def IsItem (s : Series) (w : List Token) : Prop :=
  ∃ n t, ∀ next, Derives (.plain n) w next (.item s t)

/-- The tokens are the items of a series with their commas. -/
def IsSeries (s : Series) (w : List Token) : Prop :=
  ∃ n ts, ∀ next, Derives (.plain n) w next (.series s ts)

/-- The tokens are a statement, in front of a token that may stand behind every statement. -/
def IsStatement (w : List Token) : Prop :=
  ∃ n t, ∀ next, next.kind.EndsStatement → Derives (.plain n) w next (.statement t)

/-- The tokens are statements, in front of a token that may stand behind every statement. -/
def IsStatements (w : List Token) : Prop :=
  ∃ n ts, ∀ next, next.kind.EndsStatement → Derives (.plain n) w next (.statements ts)

/-- The tokens make an expression of level `l` out of every expression of level `k` in front. -/
def CarriesOn (k l : Int) (s : List Token) : Prop :=
  ∀ v, IsExpression k v → IsExpression l (v ++ s)

variable {k l level : Int} {o m c name : Token} {u v w s : List Token} {node : NodeKind}
  {kind : Series}

/-! ### Expressions -/

namespace IsExpression

/-- What is an expression in one room in front of one token is one in any larger room and
anywhere. -/
theorem of_derives {r : Room} {next : Token} {t : Node}
    (h : Derives r w next (.expression k t)) : IsExpression k w := by
  obtain ⟨n, hn⟩ := r.exists_le_plain
  exact ⟨n, t, (h.mono hn).standsAnywhere⟩

/-- A tight expression may stand where a looser one is asked for. -/
theorem looser (h : IsExpression k w) (hl : l ≤ k) : IsExpression l w := by
  obtain ⟨n, t, h⟩ := h
  exact ⟨n, t, fun next => .looser (h next) hl⟩

/-- An expression has a token. -/
theorem ne_nil (h : IsExpression k w) : w ≠ [] := by
  obtain ⟨n, t, h⟩ := h
  exact (h (.endAt .start)).ne_nil_of_expression

/-- A literal is a primary. -/
theorem literal (ho : Parser.literal? o.kind = some node) : IsExpression Level.primary [o] :=
  ⟨6, _, fun _ => .literal (by decide) ho⟩

/-- An expression in parentheses is a primary. -/
theorem group (ho : o.kind = .symbol .lparen) (h : IsExpression Level.conditional w)
    (hc : c.kind = .symbol .rparen) : IsExpression Level.primary (o :: (w ++ [c])) := by
  obtain ⟨n, t, h⟩ := h
  exact ⟨n + 6, _, fun _ => .group ho (h c) hc⟩

/-- Items in the marks of an array are a primary. -/
theorem array (ho : o.kind = .symbol .arrayOpen) (h : IsSeries .elements w)
    (hc : c.kind = .symbol .rbracket) : IsExpression Level.primary (o :: (w ++ [c])) := by
  obtain ⟨n, ts, h⟩ := h
  exact ⟨n + 7, _, fun _ => .array (by simp [Room.plain]) ho (h c) hc⟩

/-- Entries in the marks of a map are a primary. -/
theorem map (ho : o.kind = .symbol .mapOpen) (h : IsSeries .entries w)
    (hc : c.kind = .symbol .rbrace) : IsExpression Level.primary (o :: (w ++ [c])) := by
  obtain ⟨n, ts, h⟩ := h
  exact ⟨n + 7, _, fun _ => .map (by simp [Room.plain]) ho (h c) hc⟩

/-- A prefix operator in front of an operand. -/
theorem prefixed (ho : Parser.prefixed? o.kind = some node) (h : IsExpression Level.unary w) :
    IsExpression Level.unary (o :: w) := by
  obtain ⟨n, t, h⟩ := h
  exact ⟨n, _, fun next => .prefixed ho (h next)⟩

/-- An iteration is as loose as a prefix operator. -/
theorem iteration (ho : o.kind = .symbol .iter) (hv : IsExpression Level.suffixed v)
    (hm : m.kind = .symbol .pipe) (hw : IsExpression Level.unary w) :
    IsExpression Level.unary (o :: (v ++ m :: w)) := by
  obtain ⟨n, a, hv⟩ := hv
  obtain ⟨n', b, hw⟩ := hw
  exact ⟨n + n' + 2, _, fun next =>
    .iteration ho ((hv m).mono_plain (by simp only [Room.plain]; omega)) hm
      ((hw next).mono_plain (by simp only [Room.plain]; omega))⟩

/-- A conditional, the loosest of all expressions. -/
theorem conditional (hu : IsExpression Level.logicalOr u) (ho : o.kind = .symbol .cond)
    (hv : IsExpression Level.conditional v) (hm : m.kind = .symbol .alt)
    (hw : IsExpression Level.conditional w) :
    IsExpression Level.conditional (u ++ o :: (v ++ m :: w)) := by
  obtain ⟨n, a, hu⟩ := hu
  obtain ⟨n', b, hv⟩ := hv
  obtain ⟨n'', c, hw⟩ := hw
  exact ⟨n + n' + n'' + 1, _, fun next =>
    .conditional ((hu o).mono_plain (by omega)) ho
      ((hv m).mono_plain (by simp only [Room.plain]; omega)) hm
      ((hw next).mono_plain (by simp only [Room.plain]; omega))⟩

/-- An operation. Its left operand may be of the same level, its right operand has to be tighter. -/
theorem operation (hv : IsExpression level v) (ho : Parser.binary? o.kind = some (level, node))
    (hw : IsExpression (level + 1) w) : IsExpression level (v ++ o :: w) := by
  obtain ⟨n, a, hv⟩ := hv
  obtain ⟨n', b, hw⟩ := hw
  exact ⟨n + n' + 1, _, fun next =>
    .operation ((hv o).mono_plain (by omega)) ho
      ((hw next).mono_plain (by simp only [Room.plain]; omega))⟩

end IsExpression

/-- A series in one room is one in any larger room and anywhere. -/
theorem IsSeries.of_derives {r : Room} {next : Token} {ts : List Node}
    (h : Derives r w next (.series kind ts)) : IsSeries kind w := by
  obtain ⟨n, hn⟩ := r.exists_le_plain
  exact ⟨n, ts, (h.mono hn).standsAnywhere⟩

/-- The bounds of a slice in one room are so in any larger room and anywhere. -/
theorem IsBounds.of_derives {r : Room} {next : Token} {start stop step : Node}
    (h : Derives r w next (.bounds start stop step)) : IsBounds w := by
  obtain ⟨n, hn⟩ := r.exists_le_plain
  exact ⟨n, (h.mono hn).standsAnywhere⟩

/-! ### What carries on expressions -/

namespace CarriesOn

/-- Nothing carries an expression on to looser levels. -/
theorem nil (h : l ≤ k) : CarriesOn k l [] := by
  intro v hv
  rw [List.append_nil]
  exact hv.looser h

/-- What carries on behind what carries on. -/
theorem append (hs : CarriesOn k level s) (hw : CarriesOn level l w) : CarriesOn k l (s ++ w) := by
  intro v hv
  rw [← List.append_assoc]
  exact hw _ (hs v hv)

/-- The arguments of a call carry a suffixed expression on. -/
theorem call (ho : o.kind = .symbol .lparen) (h : IsSeries .arguments w)
    (hc : c.kind = .symbol .rparen) :
    CarriesOn Level.suffixed Level.suffixed (o :: (w ++ [c])) := by
  rintro v ⟨n, t, hv⟩
  obtain ⟨n', ts, h⟩ := h
  exact ⟨n + n' + 5, _, fun _ =>
    .call ((hv o).mono_plain (by omega)) ho
      ((h c).mono_plain (by simp only [Room.plain]; omega)) hc⟩

/-- An index in brackets carries a suffixed expression on. -/
theorem index (ho : o.kind = .symbol .lbracket) (h : IsExpression Level.conditional w)
    (hc : c.kind = .symbol .rbracket) :
    CarriesOn Level.suffixed Level.suffixed (o :: (w ++ [c])) := by
  rintro v ⟨n, t, hv⟩
  obtain ⟨n', i, h⟩ := h
  exact ⟨n + n' + 8, _, fun _ =>
    .index (by simp only [Room.plain]; omega) ((hv o).mono_plain (by omega)) ho
      ((h c).mono (Room.plain_le_resumed (by simp only [Room.plain]; omega))) hc⟩

/-- The bounds of a slice in brackets carry a suffixed expression on. -/
theorem slice (ho : o.kind = .symbol .lbracket) (h : IsBounds w)
    (hc : c.kind = .symbol .rbracket) :
    CarriesOn Level.suffixed Level.suffixed (o :: (w ++ [c])) := by
  rintro v ⟨n, t, hv⟩
  obtain ⟨n', h⟩ := h
  obtain ⟨start, stop, step, h⟩ := h c
  exact ⟨n + n' + 8, _, fun _ =>
    .slice (by simp only [Room.plain]; omega) ((hv o).mono_plain (by omega)) ho
      (h.mono (Room.plain_le_resumed (by simp only [Room.plain]; omega))) hc⟩

/-- A point and a name carry a suffixed expression on. -/
theorem member (ho : o.kind = .symbol .dot) (hname : name.kind = .identifier) :
    CarriesOn Level.suffixed Level.suffixed [o, name] := by
  rintro v ⟨n, t, hv⟩
  exact ⟨n, _, fun _ => .member (hv o) ho hname⟩

/-- An operator with its right operand carries on the expressions of its level. -/
theorem operation (ho : Parser.binary? o.kind = some (level, node))
    (hw : IsExpression (level + 1) w) : CarriesOn level level (o :: w) :=
  fun _ hv => hv.operation ho hw

/-- The branches of a conditional carry on expressions without branches. -/
theorem conditional (ho : o.kind = .symbol .cond) (hv : IsExpression Level.conditional v)
    (hm : m.kind = .symbol .alt) (hw : IsExpression Level.conditional w) :
    CarriesOn Level.logicalOr Level.conditional (o :: (v ++ m :: w)) :=
  fun _ hu => hu.conditional ho hv hm hw

end CarriesOn

/-- The tokens that follow carry the phrase on, at any place that asks for level `l` or a looser
one. -/
def Phrase.CarriedOn (l : Int) (w s : List Token) : Phrase → Prop
  | expression least _ => ∀ j, j ≤ l → j ≤ least → IsExpression j (w ++ s)
  | _ => True

/-- What carries on the expressions of a level carries on looser ones as well: their last operands
take it. There may be no operator between the two levels of what carries on, since the right operand
of such an operator has to stay tighter than the operator. -/
theorem Derives.carriedOn {r : Room} {next : Token} {phrase : Phrase}
    (h : Derives r w next phrase) (hs : CarriesOn k l s) (hlow : Level.conditional ≤ l)
    (hhigh : k ≤ Level.suffixed) (hbetween : ∀ j, Level.logicalOr ≤ j → j < k → j < l) :
    phrase.CarriedOn l w s := by
  have hdirect {r : Room} {w : List Token} (next : Token) {t : Node} {least : Int}
      (h : Derives r w next (.expression least t)) (hk : k ≤ least) :
      (Phrase.expression least t).CarriedOn l w s :=
    fun j hj _ => (hs w ((IsExpression.of_derives h).looser hk)).looser hj
  have hprimary := Int.le_trans hhigh (by decide : Level.suffixed ≤ Level.primary)
  induction h with
  | looser _ hl ih => exact fun j hj hle => ih j hj (Int.le_trans hle hl)
  | @literal r o next kind hr ho => exact hdirect next (.literal hr ho) hprimary
  | @group r o c next w t ho h hc => exact hdirect next (.group ho h hc) hprimary
  | @array r o c next w ts hr ho h hc => exact hdirect next (.array hr ho h hc) hprimary
  | @map r o c next w ts hr ho h hc => exact hdirect next (.map hr ho h hc) hprimary
  | @call r o c next v w t ts hf ho h hc => exact hdirect next (.call hf ho h hc) hhigh
  | @index r o c next v w t i hr ht ho h hc =>
      exact hdirect next (.index hr ht ho h hc) hhigh
  | @slice r o c next v w t a b d hr ht ho h hc =>
      exact hdirect next (.slice hr ht ho h hc) hhigh
  | @member r o name next v t ht ho hname =>
      exact hdirect next (.member ht ho hname) hhigh
  | prefixed ho h ih =>
      by_cases hk : k ≤ Level.unary
      · exact hdirect _ (.prefixed ho h) hk
      · have hlast := ih Level.unary (Int.le_of_lt (hbetween _ (by decide) (Int.not_le.1 hk)))
          (Int.le_refl _)
        exact fun j _ hj => (hlast.prefixed ho).looser hj
  | @iteration r o m next v w a b ho ha hm hb _ ih =>
      by_cases hk : k ≤ Level.unary
      · exact hdirect _ (.iteration ho ha hm hb) hk
      · have hlast := ih Level.unary (Int.le_of_lt (hbetween _ (by decide) (Int.not_le.1 hk)))
          (Int.le_refl _)
        intro j _ hj
        have hall := (IsExpression.of_derives ha).iteration ho hm hlast
        simpa using hall.looser hj
  | @operation r o next v w a b level kind ha ho hb _ ih =>
      by_cases hk : k ≤ level
      · exact hdirect _ (.operation ha ho hb) hk
      · have hlt := hbetween _ (TokenKind.logicalOr_le_of_binary? ho) (Int.not_le.1 hk)
        have hlast := ih (level + 1) hlt (Int.le_refl _)
        intro j _ hj
        have hall := (IsExpression.of_derives ha).operation ho hlast
        simpa using hall.looser hj
  | @conditional r o m next u v w a b c ha ho hb hm hc _ _ ih =>
      have hlast := ih Level.conditional hlow (Int.le_refl _)
      intro j _ hj
      have hall := (IsExpression.of_derives ha).conditional ho (.of_derives hb) hm hlast
      simpa using hall.looser hj
  | _ => trivial

namespace IsExpression

/-- A suffix behind an expression makes an expression of its level or a looser one. -/
theorem suffix (h : IsExpression k v) (hs : CarriesOn Level.suffixed Level.suffixed s)
    (hk : k ≤ Level.suffixed) : IsExpression k (v ++ s) := by
  obtain ⟨n, t, h⟩ := h
  exact (h (.endAt .start)).carriedOn hs (by decide) (by decide) (fun _ _ h => h) k hk
    (Int.le_refl k)

/-- An operation on an expression makes an expression of its level, if that is not tighter than the
one of the operation. -/
theorem operated (h : IsExpression k v) (ho : Parser.binary? o.kind = some (level, node))
    (hw : IsExpression (level + 1) w) (hk : k ≤ level) : IsExpression k (v ++ o :: w) := by
  have hlow := TokenKind.logicalOr_le_of_binary? ho
  have hhigh := Parser.level_lt_unary ho
  obtain ⟨n, t, h⟩ := h
  exact (h (.endAt .start)).carriedOn (.operation ho hw) (Int.le_trans (by decide) hlow)
    (Int.le_of_lt (Int.lt_trans hhigh (by decide))) (fun _ _ h => h) k hk (Int.le_refl k)

/-- Branches behind any expression make a conditional of it. -/
theorem branched (h : IsExpression Level.conditional u) (ho : o.kind = .symbol .cond)
    (hv : IsExpression Level.conditional v) (hm : m.kind = .symbol .alt)
    (hw : IsExpression Level.conditional w) :
    IsExpression Level.conditional (u ++ o :: (v ++ m :: w)) := by
  obtain ⟨n, t, h⟩ := h
  exact (h (.endAt .start)).carriedOn (.conditional ho hv hm hw) (Int.le_refl _) (by decide)
    (fun _ hle hlt => absurd hle (Int.not_le.2 hlt)) _ (Int.le_refl _) (Int.le_refl _)

end IsExpression

/-! ### Items and bounds -/

/-- A bound may be left out. -/
theorem IsBound.leftOut : IsBound [] :=
  ⟨0, fun _ => ⟨_, .leftOut⟩⟩

/-- A primary may be a bound. -/
theorem IsExpression.bound (h : IsExpression Level.primary w) : IsBound w := by
  obtain ⟨n, t, h⟩ := h
  exact ⟨n, fun next => ⟨t, .bound (h next)⟩⟩

/-- Two bounds with a colon between them. -/
theorem IsBounds.two (hv : IsBound v) (ho : o.kind = .symbol .colon) (hw : IsBound w) :
    IsBounds (v ++ o :: w) := by
  obtain ⟨n, hv⟩ := hv
  obtain ⟨n', hw⟩ := hw
  refine ⟨n + n' + 7, fun next => ?_⟩
  obtain ⟨a, ha⟩ := hv o
  obtain ⟨b, hb⟩ := hw next
  exact ⟨a, b, _, .twoBounds (ha.mono_plain (by omega)) ho
    (hb.mono (Room.plain_le_resumed (by simp only [Room.plain]; omega)))⟩

/-- Three bounds with colons between them. -/
theorem IsBounds.three (hu : IsBound u) (ho : o.kind = .symbol .colon) (hv : IsBound v)
    (hm : m.kind = .symbol .colon) (hw : IsBound w) : IsBounds (u ++ o :: (v ++ m :: w)) := by
  obtain ⟨n, hu⟩ := hu
  obtain ⟨n', hv⟩ := hv
  obtain ⟨n'', hw⟩ := hw
  refine ⟨n + n' + n'' + 7, fun next => ?_⟩
  obtain ⟨a, ha⟩ := hu o
  obtain ⟨b, hb⟩ := hv m
  obtain ⟨c, hc⟩ := hw next
  exact ⟨a, b, c, .threeBounds (ha.mono_plain (by omega)) ho
    (hb.mono (Room.plain_le_resumed (by simp only [Room.plain]; omega))) hm
    (hc.mono (Room.plain_le_resumed (by simp only [Room.plain]; omega)))⟩

/-- The first and the third bound with a double colon between them. -/
theorem IsBounds.outer (hv : IsBound v) (ho : o.kind = .symbol .alt) (hw : IsBound w) :
    IsBounds (v ++ o :: w) := by
  obtain ⟨n, hv⟩ := hv
  obtain ⟨n', hw⟩ := hw
  refine ⟨n + n' + 7, fun next => ?_⟩
  obtain ⟨a, ha⟩ := hv o
  obtain ⟨c, hc⟩ := hw next
  exact ⟨a, _, c, .outerBounds (ha.mono_plain (by omega)) ho
    (hc.mono (Room.plain_le_resumed (by simp only [Room.plain]; omega)))⟩

/-- An expression is an item, except in a map. -/
theorem IsExpression.item (h : IsExpression Level.conditional w) (hkind : kind ≠ .entries) :
    IsItem kind w := by
  obtain ⟨n, t, h⟩ := h
  exact ⟨n, t, fun next => .item hkind (h next)⟩

/-- A key, a colon and an expression are an entry. -/
theorem IsExpression.entry (h : IsExpression Level.conditional w)
    (hname : name.kind = .identifier ∨ name.kind = .string) (ho : o.kind = .symbol .colon) :
    IsItem .entries (name :: o :: w) := by
  obtain ⟨n, t, h⟩ := h
  exact ⟨n, _, fun next => .entry hname ho (h next)⟩

/-- An item has a token. -/
theorem IsItem.ne_nil (h : IsItem kind w) : w ≠ [] := by
  obtain ⟨n, t, h⟩ := h
  exact (h (.endAt .start)).ne_nil_of_item

/-- A series may be empty. -/
theorem IsSeries.nil : IsSeries kind [] :=
  ⟨0, [], fun _ => .noItem⟩

/-- An item alone is a series. -/
theorem IsItem.series (h : IsItem kind w) : IsSeries kind w := by
  obtain ⟨n, t, h⟩ := h
  exact ⟨n, [t], fun next => .lastItem (h next)⟩

/-- A comma may stand behind the last item, except in a list of arguments. -/
theorem IsSeries.cons (hv : IsItem kind v) (ho : o.kind = .symbol .comma) (hw : IsSeries kind w)
    (hlast : kind = .arguments → w ≠ []) : IsSeries kind (v ++ o :: w) := by
  obtain ⟨n, t, hv⟩ := hv
  obtain ⟨n', ts, hw⟩ := hw
  refine ⟨n + n', t :: ts, fun next =>
    .moreItems ((hv o).mono_plain (by omega)) ho ((hw next).mono_plain (by omega)) ?_⟩
  rintro hkind rfl
  cases hw o
  exact hlast hkind rfl

/-! ### Expressions behind expressions -/

/-- The kind of an expression has a level. -/
def Phrase.HasLevel : Phrase → Prop
  | expression _ t => t.kind.level?.isSome
  | _ => True

/-- The levels of phrases are those that the grammar has rules for. -/
theorem Derives.hasLevel {r : Room} {next : Token} {phrase : Phrase}
    (h : Derives r w next phrase) : phrase.HasLevel := by
  induction h with
  | looser _ _ ih => exact ih
  | @literal r o next kind hr ho =>
      rw [Phrase.HasLevel]
      generalize o.kind = token at ho
      cases token <;> cases ho <;> rfl
  | group _ _ _ ih => exact ih
  | prefixed ho =>
      obtain ⟨s, -, hs⟩ := symbol_of_prefixed? ho
      cases s <;> cases hs <;> rfl
  | operation _ ho =>
      obtain ⟨s, -, hs⟩ := symbol_of_binary? ho
      rw [Phrase.HasLevel, (Symbol.level_of_binary? hs).1]
      rfl
  | array | map | call | index | slice | member | iteration | conditional => exact rfl
  | _ => trivial

/-- Behind an expression the phrase makes a single expression together with it, if its first token
does not stand behind every statement. -/
def Phrase.Joined (w : List Token) : Phrase → Prop
  | expression _ _ => ∀ o r, w = o :: r → ¬ o.kind.EndsStatement → ∀ v,
      IsExpression Level.conditional v → IsExpression Level.conditional (v ++ w)
  | _ => True

/-- A chain behind an expression carries it on as its first operand does. -/
theorem IsExpression.joined_append {least level : Int} {t t' : Node}
    (hjoined : (Phrase.expression least t).Joined v) (hv : v ≠ [])
    (hs : ∀ u, IsExpression Level.conditional u → IsExpression Level.conditional (u ++ s)) :
    (Phrase.expression level t').Joined (v ++ s) := by
  intro o r heq ho u hu
  obtain ⟨o', v, rfl⟩ := List.exists_cons_of_ne_nil hv
  obtain ⟨rfl, -⟩ := List.cons.inj heq
  rw [← List.append_assoc]
  exact hs _ (hjoined _ v rfl ho u hu)

/-- Every expression joins one in front of it: its first operand does, and the rest carries that on.
-/
theorem Derives.joined {r : Room} {next : Token} {phrase : Phrase}
    (h : Derives r w next phrase) : phrase.Joined w := by
  have hclear {o : Token} {w : List Token} {least : Int} {t : Node}
      (ho : o.kind.EndsStatement) : (Phrase.expression least t).Joined (o :: w) := by
    intro o' r heq ho'
    obtain ⟨rfl, -⟩ := List.cons.inj heq
    exact absurd ho ho'
  induction h with
  | looser _ _ ih => exact ih
  | @literal r o next kind hr ho =>
      refine hclear ?_
      generalize o.kind = token at ho
      cases token <;> cases ho <;> exact ⟨by decide, rfl⟩
  | group ho h hc =>
      intro _ _ _ _ v hv
      exact hv.suffix (.call ho ((IsExpression.of_derives h).item (by decide)).series hc)
        (by decide)
  | array _ ho => exact hclear (by rw [ho]; exact ⟨by decide, rfl⟩)
  | map _ ho => exact hclear (by rw [ho]; exact ⟨by decide, rfl⟩)
  | call hf ho h hc ih =>
      have hs : IsSeries .arguments _ := .of_derives h
      exact .joined_append ih hf.ne_nil_of_expression fun u hu => hu.suffix (.call ho hs hc)
        (by decide)
  | index _ ht ho h hc ih =>
      exact .joined_append ih ht.ne_nil_of_expression fun u hu =>
        hu.suffix (.index ho (.of_derives h) hc) (by decide)
  | slice _ ht ho h hc ih =>
      have hs : IsBounds _ := .of_derives h
      exact .joined_append ih ht.ne_nil_of_expression fun u hu => hu.suffix (.slice ho hs hc)
        (by decide)
  | member ht ho hname ih =>
      exact .joined_append ih ht.ne_nil_of_expression fun u hu => hu.suffix (.member ho hname)
        (by decide)
  | @prefixed r o next w t kind ho h =>
      by_cases hminus : o.kind = .symbol .minus
      · have hbinary : Parser.binary? o.kind = some (Level.additive, .additive) := by
          rw [hminus]
          rfl
        intro _ _ _ _ v hv
        exact hv.operated hbinary ((IsExpression.of_derives h).looser (by decide)) (by decide)
      · refine hclear (endsStatement_of_startsExpression (.inr (.inl (by simp [ho]))) ?_ hminus)
        intro hparen
        rw [hparen] at ho
        cases ho
  | iteration ho => exact hclear (by rw [ho]; exact ⟨by decide, rfl⟩)
  | operation ha ho hb ih =>
      have hle : Level.conditional ≤ Level.logicalOr := by decide
      exact .joined_append ih ha.ne_nil_of_expression fun u hu =>
        hu.operated ho (.of_derives hb) (Int.le_trans hle (TokenKind.logicalOr_le_of_binary? ho))
  | conditional ha ho hb hm hc ih =>
      exact .joined_append ih ha.ne_nil_of_expression fun u hu =>
        hu.branched ho (.of_derives hb) hm (.of_derives hc)
  | _ => trivial

/-! ### Statements -/

/-- The kinds of statements that are written on one line: dataflow definitions and expressions. -/
def NodeKind.IsLine (kind : NodeKind) : Prop :=
  kind = .dataflow ∨ kind.level?.isSome

/-- A statement behind an expression is carried on by it, if its first token does not stand behind
every statement. Neither it nor what becomes of it is a block. -/
theorem Derives.joined_statement {n : Nat} {r : List Token} {next : Token} {t : Node}
    (h : Derives (.plain n) (o :: r) next (.statement t)) (hv : IsExpression Level.conditional v)
    (ho : ¬ o.kind.EndsStatement) :
    t.kind.IsLine ∧
      ∃ k u, Derives (.plain k) (v ++ o :: r) next (.statement u) ∧ u.kind.IsLine := by
  generalize hw : o :: r = w at h
  cases h with
  | block _ hopen =>
      obtain ⟨rfl, -⟩ := List.cons.inj hw
      exact absurd (by rw [hopen]; exact ⟨by decide, rfl⟩) ho
  | @dataflow _ flow name next w t h hflow hname =>
      obtain ⟨o', w, rfl⟩ := List.exists_cons_of_ne_nil h.ne_nil_of_expression
      obtain ⟨rfl, -⟩ := List.cons.inj hw
      obtain ⟨k, u, hu⟩ := h.joined _ _ rfl ho v hv
      have hall : Derives (.plain k) _ next _ := .dataflow (hu flow) hflow hname
      rw [List.append_assoc] at hall
      exact ⟨.inl rfl, k, _, hall, .inl rfl⟩
  | bare h hnext =>
      obtain ⟨k, u, hu⟩ := h.joined _ _ hw.symm ho v hv
      exact ⟨.inr h.hasLevel, k, u, .bare (hu next) hnext, .inr (hu next).hasLevel⟩

/-- Behind an expression the first of some statements is carried on by it, if its first token does
not stand behind every statement. -/
theorem Derives.joined_statements {n : Nat} {r : List Token} {next : Token} {ts : List Node}
    (h : Derives (.plain n) (o :: r) next (.statements ts)) (hv : IsExpression Level.conditional v)
    (ho : ¬ o.kind.EndsStatement) :
    ∃ t us k u, ts = t :: us ∧ t.kind.IsLine ∧ u.kind.IsLine ∧
      Derives (.plain k) (v ++ o :: r) next (.statements (u :: us)) := by
  generalize hw : o :: r = w at h
  cases h with
  | noStatement => cases hw
  | @moreStatements _ v' w' _ t us h hs =>
      obtain ⟨o', v', rfl⟩ := List.exists_cons_of_ne_nil h.ne_nil_of_statement
      obtain ⟨rfl, -⟩ := List.cons.inj hw
      obtain ⟨ht, k, u, hu, hline⟩ := h.joined_statement hv ho
      refine ⟨t, us, n + k, u, rfl, ht, hline, ?_⟩
      have hall := Derives.moreStatements (hu.mono_plain (by omega))
        (hs.mono_plain (Nat.le_add_right n k))
      rwa [List.append_assoc] at hall

/-- There may be no statement. -/
theorem IsStatements.nil : IsStatements [] :=
  ⟨0, [], fun _ _ => .noStatement⟩

/-- An expression is a statement. -/
theorem IsExpression.bare (h : IsExpression Level.conditional w) : IsStatement w := by
  obtain ⟨n, t, h⟩ := h
  exact ⟨n, t, fun next hnext => .bare (h next) hnext⟩

/-- An expression, an arrow and a name are a statement. -/
theorem IsExpression.dataflow (h : IsExpression Level.conditional w) (ho : o.kind = .symbol .flow)
    (hname : name.kind = .identifier) : IsStatement (w ++ [o, name]) := by
  obtain ⟨n, t, h⟩ := h
  exact ⟨n, _, fun next _ => .dataflow (h o) ho hname⟩

/-- Statements in braces are a statement. -/
theorem IsStatements.block (h : IsStatements w) (ho : o.kind = .symbol .lbrace)
    (hc : c.kind = .symbol .rbrace) : IsStatement (o :: (w ++ [c])) := by
  obtain ⟨n, ts, h⟩ := h
  exact ⟨n + 2, _, fun next _ =>
    .block (by simp [Room.plain]) ho (h c (by rw [hc]; exact ⟨by decide, rfl⟩)) hc⟩

/-- A statement has a token. -/
theorem IsStatement.ne_nil (h : IsStatement w) : w ≠ [] := by
  obtain ⟨n, t, h⟩ := h
  exact (h (.endAt .start) (endsStatement_of_endOfInput rfl)).ne_nil_of_statement

/-- A statement in front of others. They are statements in any case, if perhaps fewer. -/
theorem IsStatements.cons (hv : IsStatement v) (hw : IsStatements w) : IsStatements (v ++ w) := by
  obtain ⟨n, t, hv⟩ := hv
  obtain ⟨n', ts, hw⟩ := hw
  have hclear (hstands : ∀ next, next.kind.EndsStatement →
      Derives (.plain n) v (w.headD next) (.statement t)) : IsStatements (v ++ w) :=
    ⟨n + n', t :: ts, fun next hnext => .moreStatements
      ((hstands next hnext).mono_plain (by omega)) ((hw next hnext).mono_plain (by omega))⟩
  cases w with
  | nil => exact hclear fun next hnext => hv next hnext
  | cons o r =>
      by_cases ho : o.kind.EndsStatement
      · exact hclear fun _ _ => hv o ho
      · have hend : (Token.endAt .start).kind.EndsStatement := endsStatement_of_endOfInput rfl
        cases hv (.endAt .start) hend with
        | block hr hopen h hclose => exact hclear fun _ _ => .block hr hopen h hclose
        | dataflow h hflow hname => exact hclear fun _ _ => .dataflow h hflow hname
        | bare h =>
            obtain ⟨_, us, k, u, -, -, -, hall⟩ :=
              (hw (.endAt .start) hend).joined_statements (.of_derives h) ho
            exact ⟨k, u :: us, hall.standsAnywhere⟩

end Sigil
