import Sigil.Parser.Program
import Sigil.Proofs.Parser.Run

/-!
# The grammar

The phrases of the language and the tokens that make them. `Derives r w next phrase` says that the
tokens `w`, in front of the token `next`, are the phrase; the phrase holds the tree that the tokens
stand for. The rules are those of the language description: levels of expressions, chains that group
to the left, series with commas between their items.

The room `r` bounds the nesting, in the frames that a stack has for the routines of a parser. It has
no part in what a phrase stands for and only sorts out the derivations that nest too deeply: a
derivation that fits into some room fits into every larger one, and the language of the grammar,
`Grammatical`, is what can be derived in any room at all. Runs of operators in front of an operand,
chains of suffixes and sequences take no more room than their parts.

The token behind a phrase matters in two places. A bare expression is a statement only if the token
behind it does not carry the expression on, and the mark of a left out bound lies in front of it.

## Main definitions

* `Room`: the frames that a stack has for the routines of a phrase.
* `Derives`: the tokens of a phrase.
* `ProgramOf`, `Grammatical`: the programs of a list of tokens.

## Main results

* `Derives.mono`: more room allows no less.
* `Derives.ne_nil`: an expression has a token.
-/

namespace Sigil

/-! ### Tokens behind an expression -/

/-- The level of the expressions that a token makes of an operand in front of it: a suffix, an
operation, or a conditional. -/
def TokenKind.extension? : TokenKind → Option Int
  | .symbol .lparen | .symbol .lbracket | .symbol .dot => some Level.suffixed
  | .symbol .cond => some Level.conditional
  | kind => (Parser.binary? kind).map Prod.fst

/-- A token of the kind does not carry on an expression at a place that asks for a level. -/
def TokenKind.Stops (least : Int) (kind : TokenKind) : Prop :=
  ∀ level, kind.extension? = some level → level < least

/-- A token of the kind may stand behind a bare expression that is a statement. -/
def TokenKind.EndsStatement (kind : TokenKind) : Prop :=
  kind ≠ .symbol .flow ∧ kind.extension? = none

/-! ### Phrases -/

/-- The kinds of series with commas between their items. -/
inductive Series where
  | arguments
  | elements
  | entries
  deriving DecidableEq, Repr

/-- The parts of a program, each with what it stands for. -/
inductive Phrase where
  /-- An expression at a place that asks for a level. -/
  | expression (least : Int) (t : Node)
  /-- A bound of a slice, which may be left out. -/
  | bound (t : Node)
  /-- The three bounds of a slice and the colons between them. -/
  | bounds (start stop step : Node)
  /-- An item of a series. -/
  | item (s : Series) (t : Node)
  /-- The items of a series. -/
  | series (s : Series) (ts : List Node)
  | statement (t : Node)
  | statements (ts : List Node)

/-! ### Room -/

/-- The frames that a stack has for the routines of a phrase: for that of the expression, for that
of the chain of suffixes which starts it, and for that of the primary which starts it. The primary
comes last, so what stands in parentheses has no more room than the whole phrase. -/
structure Room where
  expression : Nat
  suffixed : Nat
  primary : Nat
  primary_le_expression : primary ≤ expression + 1
  primary_le_suffixed : primary ≤ suffixed + 5

namespace Room

/-- The room of a phrase whose expression is read from its start with `n` frames to go. The routines
for binary operators, for the operators in front of an operand, and for the operand are on the stack
when the one for the chain of suffixes is called, which calls that for the primary. -/
def plain (n : Nat) : Room := ⟨n, n - 4, n - 5, by omega, by omega⟩

/-- The room of the content of a subscript with `n` frames to go. If it starts with a primary, then
the primary, the suffixes behind it and the rest of the expression are read one after the other. -/
def resumed (n : Nat) : Room := ⟨n, n, n, by omega, by omega⟩

/-- A room is larger if it has no fewer frames for any routine. -/
instance : LE Room where
  le r q := r.expression ≤ q.expression ∧ r.suffixed ≤ q.suffixed ∧ r.primary ≤ q.primary

variable {r q : Room} {n m : Nat}

/-- More room is more of each of the three. -/
theorem le_iff : r ≤ q ↔
    r.expression ≤ q.expression ∧ r.suffixed ≤ q.suffixed ∧ r.primary ≤ q.primary :=
  Iff.rfl

/-- A room is contained in itself. -/
theorem le_refl (r : Room) : r ≤ r :=
  ⟨Nat.le_refl _, Nat.le_refl _, Nat.le_refl _⟩

/-- More frames are more room. -/
theorem plain_mono (h : n ≤ m) : plain n ≤ plain m := by
  simp only [le_iff, plain]
  omega

/-- More frames are more room, also for an expression whose first operand is parsed. -/
theorem resumed_mono (h : n ≤ m) : resumed n ≤ resumed m :=
  ⟨h, h, h⟩

/-- With the first operand parsed already there is no less room. -/
theorem plain_le_resumed (h : n ≤ m) : plain n ≤ resumed m := by
  simp only [le_iff, plain, resumed]
  omega

/-- What has more room than a larger room has more than the smaller one. -/
theorem le_trans {p : Room} (h : r ≤ q) (h' : q ≤ p) : r ≤ p :=
  ⟨Nat.le_trans h.1 h'.1, Nat.le_trans h.2.1 h'.2.1, Nat.le_trans h.2.2 h'.2.2⟩

/-- Parentheses that a phrase starts with take room from what stands in them. -/
theorem enclosed_le (r : Room) : plain (r.primary - 1) ≤ r := by
  have hexpression := r.primary_le_expression
  have hsuffixed := r.primary_le_suffixed
  simp only [le_iff, plain]
  omega

/-- Every room is contained in that of a phrase which is read from its start. -/
theorem exists_le_plain (r : Room) : ∃ n, r ≤ plain n := by
  refine ⟨r.expression + r.suffixed + r.primary + 5, ?_⟩
  simp only [le_iff, plain]
  omega

end Room

/-! ### Derivations -/

open Sigil.Parser in
/-- The tokens `w`, in front of the token `next`, are the phrase, for which there is the room `r`.
Each bracket, branch and right operand is read with the frames that are left behind the routines
which are on the stack by then. -/
inductive Derives : Room → List Token → Token → Phrase → Prop
  /-- A tighter expression may stand where a looser one is asked for. -/
  | looser {r : Room} {w : List Token} {next : Token} {t : Node} {k l : Int}
      (h : Derives r w next (.expression k t)) (hl : l ≤ k) :
      Derives r w next (.expression l t)
  | literal {r : Room} {o next : Token} {kind : NodeKind} (hr : 0 < r.primary)
      (ho : literal? o.kind = some kind) :
      Derives r [o] next
        (.expression Level.primary ⟨kind, .text (literalText o), [], ⟨o.position, o.stop⟩⟩)
  /-- Parentheses leave no trace. -/
  | group {r : Room} {o c next : Token} {w : List Token} {t : Node}
      (ho : o.kind = .symbol .lparen)
      (h : Derives (.plain (r.primary - 1)) w c (.expression Level.conditional t))
      (hc : c.kind = .symbol .rparen) :
      Derives r (o :: (w ++ [c])) next (.expression Level.primary t)
  | array {r : Room} {o c next : Token} {w : List Token} {ts : List Node} (hr : 1 < r.primary)
      (ho : o.kind = .symbol .arrayOpen)
      (h : Derives (.plain (r.primary - 2)) w c (.series .elements ts))
      (hc : c.kind = .symbol .rbracket) :
      Derives r (o :: (w ++ [c])) next
        (.expression Level.primary ⟨.array, .none, ts, ⟨o.position, c.stop⟩⟩)
  | map {r : Room} {o c next : Token} {w : List Token} {ts : List Node} (hr : 1 < r.primary)
      (ho : o.kind = .symbol .mapOpen)
      (h : Derives (.plain (r.primary - 2)) w c (.series .entries ts))
      (hc : c.kind = .symbol .rbrace) :
      Derives r (o :: (w ++ [c])) next
        (.expression Level.primary ⟨.map, .none, ts, ⟨o.position, c.stop⟩⟩)
  | call {r : Room} {o c next : Token} {v w : List Token} {t : Node} {ts : List Node}
      (hf : Derives r v o (.expression Level.suffixed t)) (ho : o.kind = .symbol .lparen)
      (h : Derives (.plain (r.suffixed - 1)) w c (.series .arguments ts))
      (hc : c.kind = .symbol .rparen) :
      Derives r (v ++ o :: (w ++ [c])) next
        (.expression Level.suffixed ⟨.call, .node t, ts, ⟨t.mark.start, c.stop⟩⟩)
  | index {r : Room} {o c next : Token} {v w : List Token} {t i : Node} (hr : 3 < r.suffixed)
      (ht : Derives r v o (.expression Level.suffixed t)) (ho : o.kind = .symbol .lbracket)
      (h : Derives (.resumed (r.suffixed - 2)) w c (.expression Level.conditional i))
      (hc : c.kind = .symbol .rbracket) :
      Derives r (v ++ o :: (w ++ [c])) next
        (.expression Level.suffixed ⟨.index, .none, [t, i], ⟨t.mark.start, c.stop⟩⟩)
  | slice {r : Room} {o c next : Token} {v w : List Token} {t start stop step : Node}
      (hr : 3 < r.suffixed) (ht : Derives r v o (.expression Level.suffixed t))
      (ho : o.kind = .symbol .lbracket)
      (h : Derives (.resumed (r.suffixed - 2)) w c (.bounds start stop step))
      (hc : c.kind = .symbol .rbracket) :
      Derives r (v ++ o :: (w ++ [c])) next
        (.expression Level.suffixed
          ⟨.slice, .none, [t, start, stop, step], ⟨t.mark.start, c.stop⟩⟩)
  | member {r : Room} {o name next : Token} {v : List Token} {t : Node}
      (ht : Derives r v o (.expression Level.suffixed t)) (ho : o.kind = .symbol .dot)
      (hname : name.kind = .identifier) :
      Derives r (v ++ [o, name]) next
        (.expression Level.suffixed ⟨.member, .text name.text, [t], ⟨t.mark.start, name.stop⟩⟩)
  | prefixed {r : Room} {o next : Token} {w : List Token} {t : Node} {kind : NodeKind}
      (ho : prefixed? o.kind = some kind)
      (h : Derives (.plain r.expression) w next (.expression Level.unary t)) :
      Derives r (o :: w) next
        (.expression Level.unary ⟨kind, .text o.text, [t], ⟨o.position, lastStop w⟩⟩)
  | iteration {r : Room} {o m next : Token} {v w : List Token} {a b : Node}
      (ho : o.kind = .symbol .iter)
      (ha : Derives (.plain r.expression) v m (.expression Level.suffixed a))
      (hm : m.kind = .symbol .pipe)
      (hb : Derives (.plain (r.expression - 2)) w next (.expression Level.unary b)) :
      Derives r (o :: (v ++ m :: w)) next
        (.expression Level.unary ⟨.iteration, .none, [a, b], ⟨o.position, lastStop w⟩⟩)
  /-- The left operand of an operator may be of its own level, the right one binds tighter. -/
  | operation {r : Room} {o next : Token} {v w : List Token} {a b : Node} {level : Int}
      {kind : NodeKind} (ha : Derives r v o (.expression level a))
      (ho : binary? o.kind = some (level, kind))
      (hb : Derives (.plain (r.expression - 1)) w next (.expression (level + 1) b)) :
      Derives r (v ++ o :: w) next
        (.expression level ⟨kind, .text o.text, [a, b], ⟨a.mark.start, lastStop w⟩⟩)
  | conditional {r : Room} {o m next : Token} {u v w : List Token} {a b c : Node}
      (ha : Derives r u o (.expression Level.logicalOr a)) (ho : o.kind = .symbol .cond)
      (hb : Derives (.plain (r.expression - 1)) v m (.expression Level.conditional b))
      (hm : m.kind = .symbol .alt)
      (hc : Derives (.plain (r.expression - 1)) w next (.expression Level.conditional c)) :
      Derives r (u ++ o :: (v ++ m :: w)) next
        (.expression Level.conditional
          ⟨.conditional, .none, [a, b, c], ⟨a.mark.start, lastStop w⟩⟩)
  | leftOut {r : Room} {next : Token} :
      Derives r [] next (.bound ⟨.absent, .none, [], ⟨next.position, next.position.offset⟩⟩)
  | bound {r : Room} {w : List Token} {next : Token} {t : Node}
      (h : Derives r w next (.expression Level.primary t)) : Derives r w next (.bound t)
  /-- `start:stop`. The step is left out in front of the closing bracket. -/
  | twoBounds {r : Room} {o next : Token} {v w : List Token} {a b : Node}
      (ha : Derives r v o (.bound a)) (ho : o.kind = .symbol .colon)
      (hb : Derives (.resumed (r.primary - 2)) w next (.bound b)) :
      Derives r (v ++ o :: w) next
        (.bounds a b ⟨.absent, .none, [], ⟨next.position, next.position.offset⟩⟩)
  /-- `start:stop:step`. -/
  | threeBounds {r : Room} {o m next : Token} {u v w : List Token} {a b c : Node}
      (ha : Derives r u o (.bound a)) (ho : o.kind = .symbol .colon)
      (hb : Derives (.resumed (r.primary - 2)) v m (.bound b)) (hm : m.kind = .symbol .colon)
      (hc : Derives (.resumed (r.primary - 2)) w next (.bound c)) :
      Derives r (u ++ o :: (v ++ m :: w)) next (.bounds a b c)
  /-- `start::step`. The double colon stands for two colons with nothing between them. -/
  | outerBounds {r : Room} {o next : Token} {v w : List Token} {a c : Node}
      (ha : Derives r v o (.bound a)) (ho : o.kind = .symbol .alt)
      (hc : Derives (.resumed (r.primary - 2)) w next (.bound c)) :
      Derives r (v ++ o :: w) next
        (.bounds a ⟨.absent, .none, [], ⟨o.position, o.position.offset⟩⟩ c)
  | item {r : Room} {w : List Token} {next : Token} {t : Node} {s : Series} (hs : s ≠ .entries)
      (h : Derives r w next (.expression Level.conditional t)) : Derives r w next (.item s t)
  /-- `key: value`, where the key is a name or a string. -/
  | entry {r : Room} {key o next : Token} {w : List Token} {t : Node}
      (hkey : key.kind = .identifier ∨ key.kind = .string) (ho : o.kind = .symbol .colon)
      (h : Derives r w next (.expression Level.conditional t)) :
      Derives r (key :: o :: w) next
        (.item .entries
          ⟨.mapEntry, .node t,
            [⟨if key.kind = .string then .string else .identifier, .text (literalText key), [],
              ⟨key.position, key.stop⟩⟩],
            ⟨key.position, lastStop w⟩⟩)
  | noItem {r : Room} {next : Token} {s : Series} : Derives r [] next (.series s [])
  | lastItem {r : Room} {w : List Token} {next : Token} {t : Node} {s : Series}
      (h : Derives r w next (.item s t)) : Derives r w next (.series s [t])
  /-- A comma may stand behind the last item, except in a list of arguments. -/
  | moreItems {r : Room} {o next : Token} {v w : List Token} {t : Node} {ts : List Node}
      {s : Series} (h : Derives r v o (.item s t)) (ho : o.kind = .symbol .comma)
      (hs : Derives r w next (.series s ts)) (hlast : s = .arguments → ts ≠ []) :
      Derives r (v ++ o :: w) next (.series s (t :: ts))
  | block {r : Room} {o c next : Token} {w : List Token} {ts : List Node} (hr : 0 < r.expression)
      (ho : o.kind = .symbol .lbrace)
      (h : Derives (.plain (r.expression - 2)) w c (.statements ts))
      (hc : c.kind = .symbol .rbrace) :
      Derives r (o :: (w ++ [c])) next
        (.statement ⟨.block, .none, ts, ⟨o.position, c.stop⟩⟩)
  | dataflow {r : Room} {o name next : Token} {w : List Token} {t : Node}
      (h : Derives r w o (.expression Level.conditional t)) (ho : o.kind = .symbol .flow)
      (hname : name.kind = .identifier) :
      Derives r (w ++ [o, name]) next
        (.statement
          ⟨.dataflow, .node t,
            [⟨.identifier, .text name.text, [], ⟨name.position, name.stop⟩⟩],
            ⟨t.mark.start, name.stop⟩⟩)
  | bare {r : Room} {w : List Token} {next : Token} {t : Node}
      (h : Derives r w next (.expression Level.conditional t)) (hnext : next.kind.EndsStatement) :
      Derives r w next (.statement t)
  | noStatement {r : Room} {next : Token} : Derives r [] next (.statements [])
  | moreStatements {r : Room} {v w : List Token} {next : Token} {t : Node} {ts : List Node}
      (h : Derives r v (w.headD next) (.statement t)) (hs : Derives r w next (.statements ts)) :
      Derives r (v ++ w) next (.statements (t :: ts))

/-- The tokens `w` up to the end of input `last` are a program for which a stack with room for
`room` calls is enough. The routine for statements is on it while their expressions are read. -/
def ProgramOf (room : Nat) (w : List Token) (last : Token) (p : Node) : Prop :=
  ∃ ts, Derives (.plain (room - 1)) w last (.statements ts) ∧
    p = ⟨.program, .none, ts, ⟨.start, last.position.offset⟩⟩

/-- The tokens `w` up to the end of input `last` are a program. -/
def Grammatical (w : List Token) (last : Token) (p : Node) : Prop :=
  ∃ room, ProgramOf room w last p

/-- Binary operators bind looser than the operators in front of an operand. -/
theorem Parser.level_lt_unary {kind : TokenKind} {level : Int} {node : NodeKind}
    (h : binary? kind = some (level, node)) : level < Level.unary := by
  cases kind with
  | symbol s =>
      obtain ⟨-, -, hlevel⟩ := Symbol.level_of_binary? h
      exact Int.lt_of_le_of_lt hlevel (by decide)
  | _ => simp [binary?] at h

namespace TokenKind

variable {kind : TokenKind} {k l : Int}

/-- What stops loose operators stops tighter ones. -/
theorem Stops.mono (h : kind.Stops k) (hl : k ≤ l) : kind.Stops l :=
  fun level hlevel => Int.lt_of_lt_of_le (h level hlevel) hl

/-- What stands behind every statement stops operators of all levels. -/
theorem EndsStatement.stops (h : kind.EndsStatement) : kind.Stops l :=
  fun level hlevel => by simp [h.2] at hlevel

/-- A binary operator carries on expressions of its own level. -/
theorem extension?_of_binary? {node : NodeKind} (h : Parser.binary? kind = some (l, node)) :
    kind.extension? = some l := by
  cases kind with
  | symbol s =>
      cases s <;> simp [Parser.binary?, Symbol.binary?] at h <;> obtain ⟨rfl, rfl⟩ := h <;> rfl
  | _ => simp [Parser.binary?] at h

/-- What carries on an expression is a suffix, the sign of a conditional, or a binary operator. -/
theorem extension?_cases (h : kind.extension? = some l) :
    (kind ∈ [.symbol .lparen, .symbol .lbracket, .symbol .dot] ∧ l = Level.suffixed) ∨
      (kind = .symbol .cond ∧ l = Level.conditional) ∨
      ∃ node, Parser.binary? kind = some (l, node) := by
  unfold extension? at h
  split at h
  · exact .inl ⟨by simp, (Option.some.inj h).symm⟩
  · exact .inl ⟨by simp, (Option.some.inj h).symm⟩
  · exact .inl ⟨by simp, (Option.some.inj h).symm⟩
  · exact .inr (.inl ⟨rfl, (Option.some.inj h).symm⟩)
  · obtain ⟨⟨level, node⟩, hb, rfl⟩ := Option.map_eq_some_iff.1 h
    exact .inr (.inr ⟨node, hb⟩)

/-- No binary operator is looser than a disjunction. -/
theorem logicalOr_le_of_binary? {node : NodeKind} (h : Parser.binary? kind = some (l, node)) :
    Level.logicalOr ≤ l := by
  cases kind with
  | symbol s => exact (Symbol.level_of_binary? h).2.1
  | _ => simp [Parser.binary?] at h

/-- What carries on no conditional carries on nothing. -/
theorem extension?_of_stops (h : kind.Stops Level.conditional) : kind.extension? = none := by
  cases hext : kind.extension? with
  | none => rfl
  | some level =>
      have hlt := h level hext
      obtain ⟨-, rfl⟩ | ⟨-, rfl⟩ | ⟨node, hb⟩ := extension?_cases hext
      · exact absurd hlt (by decide)
      · exact absurd hlt (by decide)
      · exact absurd (Int.lt_of_lt_of_le hlt (by decide))
          (Int.not_lt.2 (logicalOr_le_of_binary? hb))

/-- Only a suffix carries on an operand. -/
theorem stops_unary (h : kind ∉ [.symbol .lparen, .symbol .lbracket, .symbol .dot]) :
    kind.Stops Level.unary := by
  intro level hlevel
  obtain ⟨hmem, -⟩ | ⟨-, rfl⟩ | ⟨node, hb⟩ := extension?_cases hlevel
  · exact absurd hmem h
  · decide
  · exact Parser.level_lt_unary hb

/-- A token of the kind starts an expression. -/
def StartsExpression (kind : TokenKind) : Prop :=
  kind ∈ Parser.primaryStarts ∨ (Parser.prefixed? kind).isSome ∨ kind = .symbol .iter

instance (kind : TokenKind) : Decidable kind.StartsExpression :=
  inferInstanceAs (Decidable (_ ∨ _ ∨ _))

/-- The marks that close a bracket, the opening brace and the end of input start no expression. -/
theorem not_startsExpression : ∀ kind ∈ [.symbol .rparen, .symbol .rbracket, .symbol .rbrace,
    .symbol .lbrace, .endOfInput], ¬ StartsExpression kind := by
  decide

end TokenKind

/-- Prefix operators are symbols. -/
theorem symbol_of_prefixed? {kind : TokenKind} {node : NodeKind}
    (h : Parser.prefixed? kind = some node) : ∃ s, kind = .symbol s ∧ s.prefixed? = some node := by
  cases kind with
  | symbol s => exact ⟨s, rfl, h⟩
  | _ => cases h

/-- Binary operators are symbols. -/
theorem symbol_of_binary? {kind : TokenKind} {level : Int} {node : NodeKind}
    (h : Parser.binary? kind = some (level, node)) :
    ∃ s, kind = .symbol s ∧ s.binary? = some (level, node) := by
  cases kind with
  | symbol s => exact ⟨s, rfl, h⟩
  | _ => cases h

/-- Of the tokens that start an expression, only two carry on another one. -/
theorem endsStatement_of_startsExpression {kind : TokenKind} (h : kind.StartsExpression)
    (hparen : kind ≠ .symbol .lparen) (hminus : kind ≠ .symbol .minus) : kind.EndsStatement := by
  rcases h with hmem | hprefixed | rfl
  · simp only [Parser.primaryStarts, List.mem_cons, List.not_mem_nil, or_false] at hmem
    rcases hmem with rfl | rfl | rfl | rfl | rfl | rfl | rfl <;> first
      | exact absurd rfl hparen
      | exact ⟨by decide, rfl⟩
  · obtain ⟨node, hnode⟩ := Option.isSome_iff_exists.1 hprefixed
    obtain ⟨s, rfl, hs⟩ := symbol_of_prefixed? hnode
    cases s <;> first
      | cases hs; done
      | exact absurd rfl hminus
      | exact ⟨by decide, rfl⟩
  · exact ⟨by decide, rfl⟩

/-- The end of input may stand behind every statement. -/
theorem endsStatement_of_endOfInput {next : Token} (h : next.kind = .endOfInput) :
    next.kind.EndsStatement := by
  rw [h]
  exact ⟨by decide, rfl⟩

/-! ### The first token of a phrase -/

/-- The tokens start as the phrase has to. -/
def Phrase.OpensWith (w : List Token) : Phrase → Prop
  | expression least _ => ∃ o v, w = o :: v ∧ o.kind.StartsExpression ∧
      (Level.suffixed ≤ least → o.kind ∈ Parser.primaryStarts)
  | item _ _ => ∃ o v, w = o :: v ∧ o.kind.StartsExpression
  | statement _ => ∃ o v, w = o :: v ∧ (o.kind.StartsExpression ∨ o.kind = .symbol .lbrace)
  | bound _ | bounds _ _ _ | series _ _ | statements _ => True

namespace Derives

variable {r q : Room} {w : List Token} {next : Token} {phrase : Phrase}

/-- Expressions, items and statements start with a token that can start them. -/
theorem opensWith (h : Derives r w next phrase) : phrase.OpensWith w := by
  have hprimary {o : Token} {v : List Token} {least : Int} {t : Node}
      (ho : o.kind ∈ Parser.primaryStarts) : (Phrase.expression least t).OpensWith (o :: v) :=
    ⟨o, v, rfl, .inl ho, fun _ => ho⟩
  induction h with
  | looser _ hl ih =>
      obtain ⟨o, v, rfl, ho, hstart⟩ := ih
      exact ⟨o, v, rfl, ho, fun hk => hstart (Int.le_trans hk hl)⟩
  | @literal r o next kind hr ho =>
      refine hprimary ?_
      cases hkind : o.kind <;> simp [Parser.literal?, hkind] at ho <;> simp [Parser.primaryStarts]
  | group ho | array _ ho | map _ ho => exact hprimary (by simp [ho, Parser.primaryStarts])
  | call _ _ _ _ ih | index _ _ _ _ _ ih | slice _ _ _ _ _ ih | member _ _ _ ih | operation _ _ _ ih
  | conditional _ _ _ _ _ ih =>
      obtain ⟨o, v, rfl, ho, hstart⟩ := ih
      exact ⟨o, _, rfl, ho, by first | exact hstart | exact fun h => absurd h (by decide)⟩
  | prefixed ho => exact ⟨_, _, rfl, .inr (.inl (by simp [ho])), fun h => absurd h (by decide)⟩
  | iteration ho => exact ⟨_, _, rfl, .inr (.inr ho), fun h => absurd h (by decide)⟩
  | item _ _ ih =>
      obtain ⟨o, v, rfl, ho, -⟩ := ih
      exact ⟨o, v, rfl, ho⟩
  | entry hkey =>
      refine ⟨_, _, rfl, .inl ?_⟩
      obtain hkey | hkey := hkey <;> simp [hkey, Parser.primaryStarts]
  | block _ ho => exact ⟨_, _, rfl, .inr ho⟩
  | dataflow _ _ _ ih | bare _ _ ih =>
      obtain ⟨o, v, rfl, ho, -⟩ := ih
      exact ⟨o, _, rfl, .inl ho⟩
  | _ => trivial

/-- The primary that an expression starts with takes a frame. Behind an operator in front of it, or
in an iteration, it is read from the frames of the expression. -/
theorem frames_pos {least : Int} {t : Node} (h : Derives r w next (.expression least t)) :
    0 < r.primary ∨ 5 < r.expression := by
  generalize hphrase : Phrase.expression least t = phrase at h
  induction h generalizing least t with
  | literal hr => exact .inl hr
  | group _ _ _ ih => have := ih rfl; simp only [Room.plain] at this; omega
  | array hr | map hr => exact .inl (by omega)
  | looser _ _ ih => exact ih rfl
  | call _ _ _ _ ih | index _ _ _ _ _ ih | slice _ _ _ _ _ ih | member _ _ _ ih
  | operation _ _ _ ih | conditional _ _ _ _ _ ih => exact ih rfl
  | prefixed _ _ ih => have := ih rfl; simp only [Room.plain] at this; omega
  | iteration _ _ _ _ ih => have := ih rfl; simp only [Room.plain] at this; omega
  | _ => cases hphrase

/-- From its start an expression is read through six routines at least. -/
theorem frames_lt {n : Nat} {least : Int} {t : Node}
    (h : Derives (.plain n) w next (.expression least t)) : 5 < n := by
  have hpos := h.frames_pos
  simp only [Room.plain] at hpos
  omega

/-- An expression has a token. -/
theorem ne_nil_of_expression {least : Int} {t : Node}
    (h : Derives r w next (.expression least t)) : w ≠ [] := by
  obtain ⟨o, v, rfl, -⟩ := h.opensWith
  simp

/-- An item has a token. -/
theorem ne_nil_of_item {s : Series} {t : Node} (h : Derives r w next (.item s t)) : w ≠ [] := by
  obtain ⟨o, v, rfl, -⟩ := h.opensWith
  simp

/-- A series of items has a token. -/
theorem ne_nil_of_series {s : Series} {ts : List Node} (h : Derives r w next (.series s ts))
    (hts : ts ≠ []) : w ≠ [] := by
  cases h with
  | noItem => exact absurd rfl hts
  | lastItem h => exact h.ne_nil_of_item
  | moreItems => simp

/-- A statement has a token. -/
theorem ne_nil_of_statement {t : Node} (h : Derives r w next (.statement t)) : w ≠ [] := by
  obtain ⟨o, v, rfl, -⟩ := h.opensWith
  simp

/-- Where there is a statement there is a token. -/
theorem ne_nil_of_statements {ts : List Node} (h : Derives r w next (.statements ts))
    (hts : ts ≠ []) : w ≠ [] := by
  cases h with
  | noStatement => exact absurd rfl hts
  | moreStatements h => simp [h.ne_nil_of_statement]

/-- A statement by itself is a sequence of statements. -/
theorem single {t : Node} (h : Derives r w next (.statement t)) :
    Derives r w next (.statements [t]) := by
  have hone := Derives.moreStatements (w := []) h .noStatement
  rwa [List.append_nil] at hone

/-! ### More room -/

/-- More room allows no less. -/
theorem mono (h : Derives r w next phrase) (hr : r ≤ q) : Derives q w next phrase := by
  have hplain {a b k : Nat} (h : a ≤ b) : Room.plain (a - k) ≤ Room.plain (b - k) :=
    Room.plain_mono (Nat.sub_le_sub_right h k)
  have hresumed {a b : Nat} (h : a ≤ b) : Room.resumed (a - 2) ≤ Room.resumed (b - 2) :=
    Room.resumed_mono (Nat.sub_le_sub_right h 2)
  induction h generalizing q with
  | looser _ hl ih => exact .looser (ih hr) hl
  | literal hroom ho => exact .literal (Nat.lt_of_lt_of_le hroom hr.2.2) ho
  | group ho _ hc ih => exact .group ho (ih (hplain hr.2.2)) hc
  | array hroom ho _ hc ih =>
      exact .array (Nat.lt_of_lt_of_le hroom hr.2.2) ho (ih (hplain hr.2.2)) hc
  | map hroom ho _ hc ih =>
      exact .map (Nat.lt_of_lt_of_le hroom hr.2.2) ho (ih (hplain hr.2.2)) hc
  | call _ ho _ hc ihf ih => exact .call (ihf hr) ho (ih (hplain hr.2.1)) hc
  | index hroom _ ho _ hc iht ih =>
      exact .index (Nat.lt_of_lt_of_le hroom hr.2.1) (iht hr) ho (ih (hresumed hr.2.1)) hc
  | slice hroom _ ho _ hc iht ih =>
      exact .slice (Nat.lt_of_lt_of_le hroom hr.2.1) (iht hr) ho (ih (hresumed hr.2.1)) hc
  | member _ ho hname iht => exact .member (iht hr) ho hname
  | prefixed ho _ ih => exact .prefixed ho (ih (Room.plain_mono hr.1))
  | iteration ho _ hm _ iha ihb =>
      exact .iteration ho (iha (Room.plain_mono hr.1)) hm (ihb (hplain hr.1))
  | operation _ ho _ iha ihb => exact .operation (iha hr) ho (ihb (hplain hr.1))
  | conditional _ ho _ hm _ iha ihb ihc =>
      exact .conditional (iha hr) ho (ihb (hplain hr.1)) hm (ihc (hplain hr.1))
  | leftOut => exact .leftOut
  | bound _ ih => exact .bound (ih hr)
  | twoBounds _ ho _ iha ihb => exact .twoBounds (iha hr) ho (ihb (hresumed hr.2.2))
  | threeBounds _ ho _ hm _ iha ihb ihc =>
      exact .threeBounds (iha hr) ho (ihb (hresumed hr.2.2)) hm (ihc (hresumed hr.2.2))
  | outerBounds _ ho _ iha ihc => exact .outerBounds (iha hr) ho (ihc (hresumed hr.2.2))
  | item hs _ ih => exact .item hs (ih hr)
  | entry hkey ho _ ih => exact .entry hkey ho (ih hr)
  | noItem => exact .noItem
  | lastItem _ ih => exact .lastItem (ih hr)
  | moreItems _ ho _ hlast ih ihs => exact .moreItems (ih hr) ho (ihs hr) hlast
  | block hroom ho _ hc ih =>
      exact .block (Nat.lt_of_lt_of_le hroom hr.1) ho (ih (hplain hr.1)) hc
  | dataflow _ ho hname ih => exact .dataflow (ih hr) ho hname
  | bare _ hnext ih => exact .bare (ih hr) hnext
  | noStatement => exact .noStatement
  | moreStatements _ _ ih ihs => exact .moreStatements (ih hr) (ihs hr)

/-- More frames allow no less. -/
theorem mono_plain {n m : Nat} (h : Derives (.plain n) w next phrase) (hn : n ≤ m) :
    Derives (.plain m) w next phrase :=
  h.mono (Room.plain_mono hn)

end Derives

end Sigil
