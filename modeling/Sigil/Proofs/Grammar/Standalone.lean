import Mathlib.Data.List.Infix
import Sigil.Proofs.Grammar.Language
import Sigil.Proofs.Tree.Place

/-!
# Nodes that stand by themselves

Every node of a phrase, but for the mark of a bound that is left out and the entries of a map, is a
statement by itself, made of tokens that stand together among those of the phrase. They end where
the node ends. But the node need not start where they do: an operation, a suffix, a conditional or a
dataflow definition starts where the node of its first part starts, and parentheses around that part
leave no trace. In front of the node there are then opening parentheses, and behind it the one that
closes the last of them.

## Main definitions

* `NodeKind.led`: the kinds of nodes that start with their first part.
* `StartsBehind`: tokens that start with opening parentheses in front of a place.
* `Standalone`: the tokens that make a node by themselves.

## Main results

* `Derives.startsBehind`: what stands in front of the start of an expression.
* `Derives.standalone`: the nodes of a phrase have tokens of their own among those of the phrase.
-/

namespace Sigil

/-- The kinds of nodes that start with their first part, without a mark in front of it. -/
def NodeKind.led : List NodeKind :=
  [dataflow, conditional, logicalOr, logicalAnd, comparison, additive, multiplicative, call, index,
    slice, member]

/-- The kinds of nodes that are no statements by themselves. -/
def NodeKind.dependent : List NodeKind :=
  [program, absent, mapEntry]

/-- Opening parentheses, and tokens behind them the first of which stands at the place. If there are
any parentheses, a token behind closes the last of them, with an expression between the two. -/
structure StartsBehind (r : Room) (g x : List Token) (p : Position) : Prop where
  openings : ∀ o ∈ g, o.kind = .symbol .lparen
  start : ∃ o rest, x = o :: rest ∧ o.position = p
  closed : g ≠ [] → ∃ y c rest a, x = y ++ c :: rest ∧ c.kind = .symbol .rparen ∧
    Derives r y c (.expression Level.conditional a)

/-- The tokens of a node: they are a statement by themselves, in front of any token that may stand
behind a statement, and end where the node ends. Only nodes that start with their first part may
start behind opening parentheses. -/
structure Standalone (r : Room) (v : List Token) (u : Node) : Prop where
  derives : ∀ next, next.kind.EndsStatement → Derives r v next (.statement u)
  stop : lastStop v = u.mark.stop
  start : ∃ g x, v = g ++ x ∧ StartsBehind r g x u.mark.start ∧ (g ≠ [] → u.kind ∈ NodeKind.led)

section

variable {r q : Room} {o c next : Token} {g x v w more : List Token} {p : Position} {t u : Node}
  {k : Int}

/-! ### The start of an expression -/

namespace StartsBehind

/-- Without parentheses the tokens start at their first one. -/
theorem here (o : Token) (w : List Token) : StartsBehind r [] (o :: w) o.position :=
  ⟨by simp, ⟨o, w, rfl, rfl⟩, fun h => absurd rfl h⟩

/-- What stands behind makes no difference to where a phrase starts. -/
theorem append (h : StartsBehind r g x p) (more : List Token) :
    StartsBehind r g (x ++ more) p := by
  obtain ⟨hopenings, ⟨o, w, rfl, ho⟩, hclosed⟩ := h
  refine ⟨hopenings, ⟨o, w ++ more, rfl, ho⟩, fun hg => ?_⟩
  obtain ⟨y, c, w', a, hx, hc, hy⟩ := hclosed hg
  exact ⟨y, c, w' ++ more, a, by rw [hx, List.append_assoc, List.cons_append], hc, hy⟩

/-- Parentheses around an expression. If there are none in it, these are the only ones. -/
theorem group (h : StartsBehind r g x p) (ho : o.kind = .symbol .lparen)
    (hc : c.kind = .symbol .rparen) (ht : Derives r (g ++ x) c (.expression Level.conditional t)) :
    StartsBehind r (o :: g) (x ++ [c]) p := by
  obtain ⟨hopenings, hstart, hclosed⟩ := h.append [c]
  refine ⟨List.forall_mem_cons.2 ⟨ho, hopenings⟩, hstart, fun _ => ?_⟩
  cases g with
  | nil => exact ⟨x, c, [], t, rfl, hc, ht⟩
  | cons o' g => exact hclosed (by simp)

/-- Nor does more room. -/
theorem mono (h : StartsBehind r g x p) (hr : r ≤ q) : StartsBehind q g x p := by
  obtain ⟨hopenings, hstart, hclosed⟩ := h
  refine ⟨hopenings, hstart, fun hg => ?_⟩
  obtain ⟨y, c, w, a, hx, hc, hy⟩ := hclosed hg
  exact ⟨y, c, w, a, hx, hc, hy.mono hr⟩

end StartsBehind

/-- The tokens of an expression start with parentheses in front of the place where its node
starts. -/
def Phrase.StartsBehind (r : Room) (w : List Token) : Phrase → Prop
  | expression _ t => ∃ g x, w = g ++ x ∧ Sigil.StartsBehind r g x t.mark.start
  | _ => True

/-- An expression that goes on behind its first operand starts as that does. -/
theorem Phrase.StartsBehind.append (h : (Phrase.expression k t).StartsBehind r w)
    (hu : u.mark.start = t.mark.start) (more : List Token) :
    (Phrase.expression k u).StartsBehind r (w ++ more) := by
  obtain ⟨g, x, rfl, h⟩ := h
  exact ⟨g, x ++ more, List.append_assoc .., hu ▸ h.append more⟩

/-- Every expression starts with groups that are opened in front of it, by its first operand. -/
theorem Derives.startsBehind {phrase : Phrase} (h : Derives r w next phrase) :
    phrase.StartsBehind r w := by
  induction h with
  | looser _ _ ih => exact ih
  | literal | array | map | prefixed | iteration => exact ⟨[], _, rfl, .here _ _⟩
  | group ho h hc ih =>
      obtain ⟨g, x, rfl, hstart⟩ := ih
      exact ⟨_ :: g, _, by simp, (hstart.group ho hc h).mono (Room.enclosed_le _)⟩
  | call _ _ _ _ ih | index _ _ _ _ _ ih | slice _ _ _ _ _ ih | member _ _ _ ih | operation _ _ _ ih
  | conditional _ _ _ _ _ ih => exact ih.append rfl _
  | _ => trivial

/-! ### The end of a node -/

/-- What is enclosed ends with the closing mark. -/
theorem lastStop_enclosed (v w : List Token) (o c : Token) :
    lastStop (v ++ o :: (w ++ [c])) = c.stop := by
  rw [← List.cons_append, ← List.append_assoc, lastStop_concat]

/-- Two parts end as the second one does. -/
theorem lastStop_split (hw : w ≠ []) (v : List Token) (o : Token) :
    lastStop (v ++ o :: w) = lastStop w := by
  rw [List.append_cons, lastStop_append hw]

/-! ### The tokens of a node -/

/-- Operations start with their left operands. -/
theorem led_of_binary? {token : TokenKind} {kind : NodeKind} {level : Int}
    (h : Parser.binary? token = some (level, kind)) : kind ∈ NodeKind.led := by
  obtain ⟨s, -, hs⟩ := symbol_of_binary? h
  cases s <;> cases hs <;> decide

section

variable {kind : NodeKind} {value : Value Node} {ts : List Node} {stop : Int}

/-- A node that starts with its first part has the tokens of the expression that it is. -/
theorem Standalone.of_led
    (h : ∀ next, Derives r w next (.expression k ⟨kind, value, ts, ⟨p, stop⟩⟩))
    (hk : Level.conditional ≤ k) (hled : kind ∈ NodeKind.led) (hstop : lastStop w = stop) :
    Standalone r w ⟨kind, value, ts, ⟨p, stop⟩⟩ := by
  refine ⟨fun next hnext => .bare (.looser (h next) hk) hnext, hstop, ?_⟩
  obtain ⟨g, x, hw, hstart⟩ := (h (.endAt .start)).startsBehind
  exact ⟨g, x, hw, hstart, fun _ => hled⟩

/-- A node that starts with the first token of the expression that it is. -/
theorem Standalone.of_first
    (h : ∀ next, Derives r (o :: w) next (.expression k ⟨kind, value, ts, ⟨o.position, stop⟩⟩))
    (hk : Level.conditional ≤ k) (hstop : lastStop (o :: w) = stop) :
    Standalone r (o :: w) ⟨kind, value, ts, ⟨o.position, stop⟩⟩ :=
  ⟨fun next hnext => .bare (.looser (h next) hk) hnext, hstop, [], o :: w, rfl, .here o w,
    fun hg => absurd rfl hg⟩

end

end

/-! ### The nodes of a phrase -/

/-- All nodes of the trees have tokens of their own that stand together among `W`, apart from those
nodes that are no statements by themselves. -/
def StandaloneIn (r : Room) (W : List Token) (ts : List Node) : Prop :=
  ∀ t ∈ ts, ∀ u ∈ t.walk, u.kind ∉ NodeKind.dependent → ∃ v, v <:+: W ∧ Standalone r v u

section

variable {r : Room} {n : Nat} {o c next : Token} {v w W : List Token} {ts us : List Node}

/-- Nodes are standalone if those of both lists are. -/
theorem standaloneIn_append :
    StandaloneIn r W (ts ++ us) ↔ StandaloneIn r W ts ∧ StandaloneIn r W us :=
  List.forall_mem_append

/-- There is nothing to show for no nodes. -/
theorem StandaloneIn.nil : StandaloneIn r W [] := nofun

/-- A text has no node. -/
theorem StandaloneIn.text (s : String) : StandaloneIn r W (Value.text s : Value Node).nodes := nofun

section

variable {kind : NodeKind} {value : Value Node} {p : Position} {stop : Int}

/-- The nodes of a tree have tokens of their own if it has, and those of its value and children. -/
theorem standaloneIn_mk (hvalue : StandaloneIn r W value.nodes) (hchildren : StandaloneIn r W ts)
    (hself : kind ∉ NodeKind.dependent →
      ∃ v, v <:+: W ∧ Standalone r v ⟨kind, value, ts, ⟨p, stop⟩⟩) :
    StandaloneIn r W [⟨kind, value, ts, ⟨p, stop⟩⟩] :=
  List.forall_mem_singleton.2
    (Tree.forall_mem_walk.2 ⟨hself, Tree.forall_mem_subnodes.2 ⟨hvalue, hchildren⟩⟩)

/-- A node that is standalone, over nodes that are. -/
theorem Standalone.standaloneIn (h : Standalone r v ⟨kind, value, ts, ⟨p, stop⟩⟩) (hv : v <:+: W)
    (hvalue : StandaloneIn r W value.nodes) (hchildren : StandaloneIn r W ts) :
    StandaloneIn r W [⟨kind, value, ts, ⟨p, stop⟩⟩] :=
  standaloneIn_mk hvalue hchildren fun _ => ⟨v, hv, h⟩

/-- The mark of a bound that is left out. -/
theorem StandaloneIn.absent : StandaloneIn r W [⟨.absent, .none, [], ⟨p, stop⟩⟩] :=
  standaloneIn_mk .nil .nil fun hkind => absurd (by decide) hkind

end

/-- A literal is an expression on its own. -/
theorem standaloneIn_literal {kind : NodeKind} (hr : 0 < r.primary)
    (ho : Parser.literal? o.kind = some kind) (hw : [o] <:+: W) : StandaloneIn r W
      [⟨kind, .text (Parser.literalText o), [], ⟨o.position, o.stop⟩⟩] :=
  (Standalone.of_first (fun _ => .literal hr ho) (by decide) rfl).standaloneIn hw (.text _) .nil

/-- What stands in front of some tokens that stand together with it, or behind them. -/
theorem infix_of_append (h : v ++ w <:+: W) : v <:+: W ∧ w <:+: W :=
  ⟨(List.prefix_append v w).isInfix.trans h, (List.suffix_append v w).isInfix.trans h⟩

/-- A part of a part of the tokens. -/
theorem infix_of_cons (h : o :: w <:+: W) : w <:+: W :=
  (List.suffix_cons o w).isInfix.trans h

/-- What stands on the two sides of a token. -/
theorem infix_of_split (h : v ++ o :: w <:+: W) : v <:+: W ∧ w <:+: W :=
  ⟨(infix_of_append h).1, infix_of_cons (infix_of_append h).2⟩

/-- What stands inside brackets. -/
theorem infix_of_enclosed (h : o :: (w ++ [c]) <:+: W) : w <:+: W :=
  (infix_of_append (infix_of_cons h)).1

/-- What is read within a phrase has no more room than a statement that is read from its start. -/
theorem Room.plain_le_of_le {k : Nat} (hr : r ≤ .plain n)
    (hk : k ≤ r.expression ∨ k ≤ r.suffixed ∨ k ≤ r.primary) : .plain k ≤ Room.plain n := by
  simp only [Room.le_iff, Room.plain] at hr
  exact Room.plain_mono (by omega)

/-- The content of a subscript has no more room than a statement that is read from its start, though
the primary it starts with may be read at once. -/
theorem Room.resumed_le_of_le {k : Nat} (hr : r ≤ .plain n)
    (hk : k + 2 ≤ r.suffixed ∨ k ≤ r.primary) : .resumed k ≤ Room.plain n := by
  simp only [Room.le_iff, Room.plain, Room.resumed] at hr ⊢
  omega

/-- The nodes of a phrase have tokens of their own among those of the phrase. By themselves they
need no more room than the statement that the phrase is a part of. -/
def Phrase.HasStandalone (r : Room) (w : List Token) (phrase : Phrase) : Prop :=
  ∀ n W, r ≤ .plain n → w <:+: W → StandaloneIn (.plain n) W phrase.trees

namespace Phrase.HasStandalone

variable {r : Room} {u v w : List Token} {o c m next key name : Token} {t a b d : Node}
  {ts : List Node} {level : Int} {kind : NodeKind}

/-! #### Primaries -/

/-- A literal is a node on its own. -/
theorem literal (hpos : 0 < r.primary) (ho : Parser.literal? o.kind = some kind) :
    (expression Level.primary
      ⟨kind, .text (Parser.literalText o), [], ⟨o.position, o.stop⟩⟩).HasStandalone r [o] :=
  fun _ _ hr hw => standaloneIn_literal (Nat.lt_of_lt_of_le hpos hr.2.2) ho hw

/-- Parentheses make no node. -/
theorem group (ih : (expression Level.conditional t).HasStandalone (.plain (r.primary - 1)) w) :
    (expression Level.primary t).HasStandalone r (o :: (w ++ [c])) :=
  fun n W hr hw => ih n W (Room.le_trans (Room.enclosed_le _) hr) (infix_of_enclosed hw)

/-- An array or a map starts and ends with its marks, and its items are between them. -/
theorem enclosed {s : Series}
    (h : ∀ next, Derives r (o :: (w ++ [c])) next
      (.expression Level.primary ⟨kind, .none, ts, ⟨o.position, c.stop⟩⟩))
    (ih : (series s ts).HasStandalone (.plain (r.primary - 2)) w) :
    (expression Level.primary ⟨kind, .none, ts, ⟨o.position, c.stop⟩⟩).HasStandalone r
      (o :: (w ++ [c])) := by
  intro n W hr hw
  have hself := Standalone.of_first (fun next => (h next).mono hr) (by decide)
    (lastStop_concat (o :: w) c)
  have hroom := Room.plain_le_of_le hr (.inr (.inr (Nat.sub_le _ 2)))
  exact hself.standaloneIn hw .nil (ih n W hroom (infix_of_enclosed hw))

/-! #### Suffixes -/

/-- A call starts with the expression that is called and ends with its parenthesis. -/
theorem call (hf : Derives r v o (.expression Level.suffixed t)) (ho : o.kind = .symbol .lparen)
    (h : Derives (.plain (r.suffixed - 1)) w c (.series .arguments ts))
    (hc : c.kind = .symbol .rparen) (ihf : (expression Level.suffixed t).HasStandalone r v)
    (ih : (series .arguments ts).HasStandalone (.plain (r.suffixed - 1)) w) :
    (expression Level.suffixed ⟨.call, .node t, ts, ⟨t.mark.start, c.stop⟩⟩).HasStandalone r
      (v ++ o :: (w ++ [c])) := by
  intro n W hr hw
  obtain ⟨hv, hrest⟩ := infix_of_split hw
  have hself := Standalone.of_led (fun next => (Derives.call hf ho h hc).mono hr) (by decide)
    (by decide) (lastStop_enclosed ..)
  have hroom := Room.plain_le_of_le hr (.inr (.inl (Nat.sub_le _ 1)))
  exact hself.standaloneIn hw (ihf n W hr hv) (ih n W hroom (infix_of_append hrest).1)

/-- An index or a slice starts with the expression in front of the brackets and ends with the
closing one. The phrase inside has tokens of its own between them. -/
theorem subscript {phrase : Phrase} (hpos : 3 < r.suffixed) (hled : kind ∈ NodeKind.led)
    (h : ∀ next, Derives r (v ++ o :: (w ++ [c])) next
      (.expression Level.suffixed ⟨kind, .none, t :: phrase.trees, ⟨t.mark.start, c.stop⟩⟩))
    (iht : (expression Level.suffixed t).HasStandalone r v)
    (ih : phrase.HasStandalone (.resumed (r.suffixed - 2)) w) :
    (expression Level.suffixed
      ⟨kind, .none, t :: phrase.trees, ⟨t.mark.start, c.stop⟩⟩).HasStandalone r
        (v ++ o :: (w ++ [c])) := by
  intro n W hr hw
  obtain ⟨hv, hrest⟩ := infix_of_split hw
  have hself := Standalone.of_led (fun next => (h next).mono hr) (by decide) hled
    (lastStop_enclosed ..)
  have hroom := Room.resumed_le_of_le hr (.inl (Nat.le_of_eq (Nat.sub_add_cancel (by omega))))
  have hinside := ih n W hroom (infix_of_append hrest).1
  exact hself.standaloneIn hw .nil (standaloneIn_append.2 ⟨iht n W hr hv, hinside⟩)

/-- A member starts with the expression in front of the point and ends with the name. -/
theorem member (ht : Derives r v o (.expression Level.suffixed t)) (ho : o.kind = .symbol .dot)
    (hname : name.kind = .identifier) (iht : (expression Level.suffixed t).HasStandalone r v) :
    (expression Level.suffixed
      ⟨.member, .text name.text, [t], ⟨t.mark.start, name.stop⟩⟩).HasStandalone r
        (v ++ [o, name]) := by
  intro n W hr hw
  have hself := Standalone.of_led (fun next => (Derives.member ht ho hname).mono hr) (by decide)
    (by decide) (lastStop_enclosed _ [] ..)
  exact hself.standaloneIn hw (.text _) (iht n W hr (infix_of_split hw).1)

/-! #### Operators -/

/-- What a prefix operator makes starts with it. -/
theorem prefixed (ho : Parser.prefixed? o.kind = some kind)
    (h : Derives (.plain r.expression) w next (.expression Level.unary t))
    (ih : (expression Level.unary t).HasStandalone (.plain r.expression) w) :
    (expression Level.unary
      ⟨kind, .text o.text, [t], ⟨o.position, lastStop w⟩⟩).HasStandalone r (o :: w) := by
  intro n W hr hw
  have hself := Standalone.of_first
    (fun next => (Derives.prefixed ho (h.standsAnywhere next)).mono hr) (by decide)
    (lastStop_split h.ne_nil_of_expression [] _)
  exact hself.standaloneIn hw (.text _) (ih n W (Room.plain_mono hr.1) (infix_of_cons hw))

/-- An iteration starts with its mark. -/
theorem iteration (ho : o.kind = .symbol .iter)
    (ha : Derives (.plain r.expression) v m (.expression Level.suffixed a))
    (hm : m.kind = .symbol .pipe)
    (hb : Derives (.plain (r.expression - 2)) w next (.expression Level.unary b))
    (iha : (expression Level.suffixed a).HasStandalone (.plain r.expression) v)
    (ihb : (expression Level.unary b).HasStandalone (.plain (r.expression - 2)) w) :
    (expression Level.unary
      ⟨.iteration, .none, [a, b], ⟨o.position, lastStop w⟩⟩).HasStandalone r
        (o :: (v ++ m :: w)) := by
  intro n W hr hw
  obtain ⟨hv, hrest⟩ := infix_of_split (infix_of_cons hw)
  have hself := Standalone.of_first
    (fun next => (Derives.iteration ho ha hm (hb.standsAnywhere next)).mono hr) (by decide)
    (lastStop_split hb.ne_nil_of_expression (_ :: _) _)
  have hroom := Room.plain_le_of_le hr (.inl (Nat.sub_le _ 2))
  exact hself.standaloneIn hw .nil
    (standaloneIn_append.2 ⟨iha n W (Room.plain_mono hr.1) hv, ihb n W hroom hrest⟩)

/-- An operation starts with its left operand. -/
theorem operation (ha : Derives r v o (.expression level a))
    (ho : Parser.binary? o.kind = some (level, kind))
    (hb : Derives (.plain (r.expression - 1)) w next (.expression (level + 1) b))
    (iha : (expression level a).HasStandalone r v)
    (ihb : (expression (level + 1) b).HasStandalone (.plain (r.expression - 1)) w) :
    (expression level
      ⟨kind, .text o.text, [a, b], ⟨a.mark.start, lastStop w⟩⟩).HasStandalone r
        (v ++ o :: w) := by
  intro n W hr hw
  obtain ⟨hv, hrest⟩ := infix_of_split hw
  have hlevel : Level.conditional ≤ Level.logicalOr := by decide
  have hself := Standalone.of_led
    (fun next => (Derives.operation ha ho (hb.standsAnywhere next)).mono hr)
    (Int.le_trans hlevel (TokenKind.logicalOr_le_of_binary? ho)) (led_of_binary? ho)
    (lastStop_split hb.ne_nil_of_expression ..)
  have hroom := Room.plain_le_of_le hr (.inl (Nat.sub_le _ 1))
  exact hself.standaloneIn hw (.text _)
    (standaloneIn_append.2 ⟨iha n W hr hv, ihb n W hroom hrest⟩)

/-- A conditional starts with its condition. -/
theorem conditional (ha : Derives r u o (.expression Level.logicalOr a))
    (ho : o.kind = .symbol .cond)
    (hb : Derives (.plain (r.expression - 1)) v m (.expression Level.conditional b))
    (hm : m.kind = .symbol .alt)
    (hd : Derives (.plain (r.expression - 1)) w next (.expression Level.conditional d))
    (iha : (expression Level.logicalOr a).HasStandalone r u)
    (ihb : (expression Level.conditional b).HasStandalone (.plain (r.expression - 1)) v)
    (ihd : (expression Level.conditional d).HasStandalone (.plain (r.expression - 1)) w) :
    (expression Level.conditional
      ⟨.conditional, .none, [a, b, d], ⟨a.mark.start, lastStop w⟩⟩).HasStandalone r
        (u ++ o :: (v ++ m :: w)) := by
  intro n W hr hw
  obtain ⟨hu, hrest⟩ := infix_of_split hw
  obtain ⟨hv, hrest⟩ := infix_of_split hrest
  have hself := Standalone.of_led
    (fun next => (Derives.conditional ha ho hb hm (hd.standsAnywhere next)).mono hr)
    (by decide) (by decide) ((lastStop_split (by simp) ..).trans
      (lastStop_split hd.ne_nil_of_expression ..))
  have hroom := Room.plain_le_of_le hr (.inl (Nat.sub_le _ 1))
  exact hself.standaloneIn hw .nil (standaloneIn_append.2
    ⟨iha n W hr hu, standaloneIn_append.2 ⟨ihb n W hroom hv, ihd n W hroom hrest⟩⟩)

/-! #### Bounds, items and statements -/

/-- A bound that is left out is no statement. -/
theorem leftOut : (bound ⟨.absent, .none, [], ⟨next.position, next.position.offset⟩⟩).HasStandalone
    r [] :=
  fun _ _ _ _ => .absent

/-- Two bounds, and the mark of the one that is left out. -/
theorem twoBounds (iha : (bound a).HasStandalone r v)
    (ihb : (bound b).HasStandalone (.resumed (r.primary - 2)) w) :
    (bounds a b ⟨.absent, .none, [], ⟨next.position, next.position.offset⟩⟩).HasStandalone r
      (v ++ o :: w) := by
  intro n W hr hw
  obtain ⟨hv, hw⟩ := infix_of_split hw
  have hroom := Room.resumed_le_of_le hr (.inr (Nat.sub_le _ 2))
  exact standaloneIn_append.2 ⟨iha n W hr hv, standaloneIn_append.2 ⟨ihb n W hroom hw, .absent⟩⟩

/-- Three bounds, two of them behind colons. -/
theorem threeBounds (iha : (bound a).HasStandalone r u)
    (ihb : (bound b).HasStandalone (.resumed (r.primary - 2)) v)
    (ihd : (bound d).HasStandalone (.resumed (r.primary - 2)) w) :
    (bounds a b d).HasStandalone r (u ++ o :: (v ++ m :: w)) := by
  intro n W hr hw
  obtain ⟨hu, hrest⟩ := infix_of_split hw
  obtain ⟨hv, hw⟩ := infix_of_split hrest
  have hroom := Room.resumed_le_of_le hr (.inr (Nat.sub_le _ 2))
  exact standaloneIn_append.2
    ⟨iha n W hr hu, standaloneIn_append.2 ⟨ihb n W hroom hv, ihd n W hroom hw⟩⟩

/-- Two bounds with the mark of the one between them. -/
theorem outerBounds (iha : (bound a).HasStandalone r v)
    (ihd : (bound d).HasStandalone (.resumed (r.primary - 2)) w) :
    (bounds a ⟨.absent, .none, [], ⟨o.position, o.position.offset⟩⟩ d).HasStandalone r
      (v ++ o :: w) := by
  intro n W hr hw
  obtain ⟨hv, hw⟩ := infix_of_split hw
  have hroom := Room.resumed_le_of_le hr (.inr (Nat.sub_le _ 2))
  exact standaloneIn_append.2 ⟨iha n W hr hv, standaloneIn_append.2 ⟨.absent, ihd n W hroom hw⟩⟩

/-- An entry is no statement, but its key and its value are. -/
theorem entry (hkey : key.kind = .identifier ∨ key.kind = .string)
    (h : Derives r w next (.expression Level.conditional t))
    (ih : (expression Level.conditional t).HasStandalone r w) :
    (Phrase.item .entries
      ⟨.mapEntry, .node t,
        [⟨if key.kind = .string then .string else .identifier, .text (Parser.literalText key), [],
          ⟨key.position, key.stop⟩⟩],
        ⟨key.position, lastStop w⟩⟩).HasStandalone r (key :: o :: w) := by
  intro n W hr hw
  obtain ⟨hfirst, hw⟩ := infix_of_split (v := [_]) hw
  have hpos := (h.mono hr).frames_lt
  have hleaf := standaloneIn_literal (r := .plain n) (Nat.sub_pos_of_lt hpos)
    (literal?_of_key hkey) hfirst
  exact standaloneIn_mk (ih n W hr hw) hleaf fun hkind => absurd (by decide) hkind

/-- Items with a comma between them. -/
theorem moreItems {s : Series} (ih : (item s t).HasStandalone r v)
    (ihs : (series s ts).HasStandalone r w) :
    (series s (t :: ts)).HasStandalone r (v ++ o :: w) := by
  intro n W hr hw
  obtain ⟨hv, hw⟩ := infix_of_split hw
  exact standaloneIn_append.2 ⟨ih n W hr hv, ihs n W hr hw⟩

/-- A block starts and ends with its braces. -/
theorem block (hpos : 0 < r.expression) (ho : o.kind = .symbol .lbrace)
    (h : Derives (.plain (r.expression - 2)) w c (.statements ts)) (hc : c.kind = .symbol .rbrace)
    (ih : (statements ts).HasStandalone (.plain (r.expression - 2)) w) :
    (statement ⟨.block, .none, ts, ⟨o.position, c.stop⟩⟩).HasStandalone r (o :: (w ++ [c])) := by
  intro n W hr hw
  have hself : Standalone (.plain n) (o :: (w ++ [c]))
      ⟨.block, .none, ts, ⟨o.position, c.stop⟩⟩ :=
    ⟨fun _ _ => (Derives.block hpos ho h hc).mono hr, lastStop_concat (o :: w) c, [], _, rfl,
      .here o _, fun hg => absurd rfl hg⟩
  have hroom := Room.plain_le_of_le hr (.inl (Nat.sub_le _ 2))
  exact hself.standaloneIn hw .nil (ih n W hroom (infix_of_enclosed hw))

/-- A definition starts with its expression and ends with the name, which is a node on its own. -/
theorem dataflow (h : Derives r w o (.expression Level.conditional t)) (ho : o.kind = .symbol .flow)
    (hname : name.kind = .identifier) (ih : (expression Level.conditional t).HasStandalone r w) :
    (statement
      ⟨.dataflow, .node t, [⟨.identifier, .text name.text, [], ⟨name.position, name.stop⟩⟩],
        ⟨t.mark.start, name.stop⟩⟩).HasStandalone r (w ++ [o, name]) := by
  intro n W hr hw
  obtain ⟨hv, hrest⟩ := infix_of_split hw
  obtain ⟨g, x, hstart⟩ := (h.mono hr).startsBehind.append (u := t) rfl [o, name]
  have hself : Standalone (.plain n) (w ++ [o, name])
      ⟨.dataflow, .node t, [⟨.identifier, .text name.text, [], ⟨name.position, name.stop⟩⟩],
        ⟨t.mark.start, name.stop⟩⟩ :=
    ⟨fun _ _ => (Derives.dataflow h ho hname).mono hr, lastStop_enclosed w [] o name, g, x,
      hstart.1, hstart.2, fun _ => by simp [NodeKind.led]⟩
  have hliteral : Parser.literal? name.kind = some .identifier := by rw [hname]; rfl
  have hpos := (h.mono hr).frames_lt
  have hleaf := standaloneIn_literal (r := .plain n) (Nat.sub_pos_of_lt hpos) hliteral hrest
  have htext : Parser.literalText name = name.text := if_neg (by simp [hname])
  exact hself.standaloneIn hw (ih n W hr hv) (htext ▸ hleaf)

/-- Statements behind each other. -/
theorem moreStatements (ih : (statement t).HasStandalone r v)
    (ihs : (statements ts).HasStandalone r w) :
    (statements (t :: ts)).HasStandalone r (v ++ w) := by
  intro n W hr hw
  obtain ⟨hv, hw⟩ := infix_of_append hw
  exact standaloneIn_append.2 ⟨ih n W hr hv, ihs n W hr hw⟩

end Phrase.HasStandalone

/-- The nodes of a phrase have tokens of their own among those of the phrase, by the rule for the
phrase and what holds of its parts. -/
theorem Derives.standalone {phrase : Phrase} (h : Derives r w next phrase) :
    phrase.HasStandalone r w := by
  induction h with
  | looser _ _ ih | bound _ ih | item _ _ ih | bare _ _ ih => exact ih
  | literal hpos ho => exact .literal hpos ho
  | group _ _ _ ih => exact .group ih
  | array hpos ho h hc ih => exact .enclosed (fun _ => .array hpos ho h hc) ih
  | map hpos ho h hc ih => exact .enclosed (fun _ => .map hpos ho h hc) ih
  | call hf ho h hc ihf ih => exact .call hf ho h hc ihf ih
  | index hpos ht ho h hc iht ih =>
      exact .subscript hpos (by decide) (fun _ => .index hpos ht ho h hc) iht ih
  | slice hpos ht ho h hc iht ih =>
      exact .subscript hpos (by decide) (fun _ => .slice hpos ht ho h hc) iht ih
  | member ht ho hname iht => exact .member ht ho hname iht
  | prefixed ho h ih => exact .prefixed ho h ih
  | iteration ho ha hm hb iha ihb => exact .iteration ho ha hm hb iha ihb
  | operation ha ho hb iha ihb => exact .operation ha ho hb iha ihb
  | conditional ha ho hb hm hc iha ihb ihc => exact .conditional ha ho hb hm hc iha ihb ihc
  | leftOut => exact .leftOut
  | twoBounds _ _ _ iha ihb => exact .twoBounds iha ihb
  | threeBounds _ _ _ _ _ iha ihb ihc => exact .threeBounds iha ihb ihc
  | outerBounds _ _ _ iha ihc => exact .outerBounds iha ihc
  | entry hkey _ h ih => exact .entry hkey h ih
  | noItem | noStatement => exact fun _ _ _ _ => .nil
  | lastItem _ ih => exact ih
  | moreItems _ _ _ _ ih ihs => exact .moreItems ih ihs
  | block hpos ho h hc ih => exact .block hpos ho h hc ih
  | dataflow h ho hname ih => exact .dataflow h ho hname ih
  | moreStatements _ _ ih ihs => exact .moreStatements ih ihs

end

end Sigil
