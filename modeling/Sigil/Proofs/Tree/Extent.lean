import Sigil.Proofs.Print.Program
import Sigil.Proofs.Tree.Parts

/-!
# The places of nodes

A node of a parsed tree covers a stretch of the text, from the start of a token to the end of one.
The stretches of the nodes below it lie in its own stretch, one behind the other, so a walk through
the tree goes forward in the text. The mark of a bound that is left out covers nothing.

The tokens of a text stand one behind the other, and nothing else is needed: the grammar marks each
node with places of its tokens, whatever is between them.

## Main definitions

* `InOrder`: stretches that stand one behind the other between two offsets.
* `IsMarked`: what the mark of a node says about the tokens and about the nodes below.
* `LiesOn`, `LieOn`: trees that lie where some tokens stand.

## Main results

* `Derives.isMarked`: the trees of phrases are marked with the places of their tokens.
* `parseText_extents`: the marks of parsed trees.
-/

namespace Sigil

/-! ### Stretches of a text -/

/-- The stretches, from an offset up to another one each, stand one behind the other between two
offsets. -/
def InOrder : Int → List (Int × Int) → Int → Prop
  | start, [], stop => start ≤ stop
  | start, e :: more, stop => start ≤ e.1 ∧ e.1 ≤ e.2 ∧ InOrder e.2 more stop

namespace InOrder

variable {start stop : Int} {e : Int × Int} {l m : List (Int × Int)}

/-- Stretches in order do not end before they start. -/
theorem le (h : InOrder start l stop) : start ≤ stop := by
  induction l generalizing start with
  | nil => exact h
  | cons e l ih =>
      obtain ⟨hstart, he, h⟩ := h
      exact Int.le_trans hstart (Int.le_trans he (ih h))

/-- Two lists in order are in order with each other if the first ends where the second may start. -/
theorem append_iff :
    InOrder start (l ++ m) stop ↔ ∃ k, InOrder start l k ∧ InOrder k m stop := by
  induction l generalizing start with
  | nil =>
      constructor
      · intro h
        exact ⟨start, Int.le_refl start, h⟩
      · rintro ⟨k, hk, h⟩
        cases m with
        | nil => exact Int.le_trans hk h
        | cons e m => exact ⟨Int.le_trans hk h.1, h.2⟩
  | cons e l ih =>
      constructor
      · rintro ⟨hstart, he, h⟩
        obtain ⟨k, hl, hm⟩ := ih.1 h
        exact ⟨k, ⟨hstart, he, hl⟩, hm⟩
      · rintro ⟨k, ⟨hstart, he, hl⟩, hm⟩
        exact ⟨hstart, he, ih.2 ⟨k, hl, hm⟩⟩

/-- Bounds may be moved apart. -/
theorem mono {start' stop' : Int} (h : InOrder start l stop) (hstart : start' ≤ start)
    (hstop : stop ≤ stop') : InOrder start' l stop' := by
  induction l generalizing start start' with
  | nil => exact Int.le_trans hstart (Int.le_trans h hstop)
  | cons e l ih =>
      obtain ⟨he, hle, h⟩ := h
      exact ⟨Int.le_trans hstart he, hle, ih h (Int.le_refl e.2)⟩

/-- Each stretch lies between the two offsets. -/
theorem bounds (h : InOrder start l stop) : ∀ e ∈ l, start ≤ e.1 ∧ e.1 ≤ e.2 ∧ e.2 ≤ stop := by
  induction l generalizing start with
  | nil => simp
  | cons e l ih =>
      obtain ⟨hstart, he, h⟩ := h
      refine List.forall_mem_cons.2 ⟨⟨hstart, he, h.le⟩, fun f hf => ?_⟩
      obtain ⟨hf, hrest⟩ := ih h f hf
      exact ⟨Int.le_trans hstart (Int.le_trans he hf), hrest⟩

/-- Of stretches in order none overlaps with a later one. -/
theorem pairwise (h : InOrder start l stop) : l.Pairwise fun e f => e.2 ≤ f.1 := by
  induction l generalizing start with
  | nil => exact .nil
  | cons e l ih =>
      obtain ⟨-, -, h⟩ := h
      exact .cons (fun f hf => (h.bounds f hf).1) (ih h)

end InOrder

/-- The stretch that a token covers. -/
def Token.stretch (o : Token) : Int × Int :=
  (o.position.offset, o.stop)

/-- The stretch that a node covers. -/
def Tree.stretch (t : Node) : Int × Int :=
  (t.mark.start.offset, t.mark.stop)

/-! ### Tokens in order -/

section

variable {o : Token} {v w : List Token} {start stop : Int}

/-- No tokens are in order. -/
theorem tokens_nil : InOrder start (([] : List Token).map Token.stretch) stop ↔ start ≤ stop :=
  Iff.rfl

/-- A token in front of others. -/
theorem tokens_cons : InOrder start ((o :: w).map Token.stretch) stop ↔
    start ≤ o.position.offset ∧ o.position.offset ≤ o.stop ∧
      InOrder o.stop (w.map Token.stretch) stop :=
  Iff.rfl

/-- Tokens in front of others. -/
theorem tokens_append : InOrder start ((v ++ w).map Token.stretch) stop ↔
    ∃ k, InOrder start (v.map Token.stretch) k ∧ InOrder k (w.map Token.stretch) stop := by
  rw [List.map_append, InOrder.append_iff]

/-- Some tokens in order end with the last one of them. -/
theorem InOrder.lastStop (h : InOrder start (w.map Token.stretch) stop) (hw : w ≠ []) :
    InOrder start (w.map Token.stretch) (Sigil.lastStop w) ∧ Sigil.lastStop w ≤ stop ∧
      ∃ o ∈ w, Sigil.lastStop w = o.stop := by
  obtain ⟨v, o, rfl⟩ := (List.eq_nil_or_concat' w).resolve_left hw
  rw [tokens_append] at h ⊢
  obtain ⟨k, hv, hstart, ho, hstop⟩ := h
  rw [lastStop_concat]
  exact ⟨⟨k, hv, hstart, ho, Int.le_refl _⟩, hstop, o, by simp, rfl⟩

end

/-! ### Marks -/

/-- The node covers a stretch from the start of a token to the end of one. -/
structure Covers (W : List Token) (u : Node) : Prop where
  lt : u.mark.start.offset < u.mark.stop
  start : ∃ o ∈ W, u.mark.start = o.position
  stop : ∃ o ∈ W, u.mark.stop = o.stop

/-- The mark of a node of a tree that stands for some of the tokens. A node covers something unless
it is the mark of a bound that is left out, the nodes below it lie in order in what it covers, and a
node that is made of one token covers that token. -/
structure IsMarked (W : List Token) (u : Node) : Prop where
  covers : u.kind ≠ .absent → Covers W u
  empty : u.kind = .absent → u.mark.stop = u.mark.start.offset
  nested : InOrder u.mark.start.offset (u.subnodes.map Tree.stretch) u.mark.stop
  literal : u.kind ∈ NodeKind.literals → ∃ o ∈ W, Parser.literal? o.kind = some u.kind ∧
    u.value = .text (Parser.literalText o) ∧ u.mark = ⟨o.position, o.stop⟩

/-- All nodes of the tree are marked. -/
def AllMarked (W : List Token) (t : Node) : Prop :=
  ∀ u ∈ t.walk, IsMarked W u

/-- The tree is marked, and it covers something between two offsets. -/
structure Lies (W : List Token) (start stop : Int) (t : Node) : Prop where
  covers : Covers W t
  marked : AllMarked W t
  start_le : start ≤ t.mark.start.offset
  le_stop : t.mark.stop ≤ stop

/-- The trees are marked, and they stand in order between two offsets. -/
structure LieIn (W : List Token) (start stop : Int) (ts : List Node) : Prop where
  inOrder : InOrder start (ts.map Tree.stretch) stop
  marked : ∀ t ∈ ts, AllMarked W t

section

variable {W w : List Token} {next o : Token} {kind : NodeKind} {value : Value Node} {t : Node}
  {ts : List Node} {start stop k : Int}

/-- Bounds may be moved apart. -/
theorem LieIn.mono {start' stop' : Int} (h : LieIn W start stop ts) (hstart : start' ≤ start)
    (hstop : stop ≤ stop') : LieIn W start' stop' ts :=
  ⟨h.inOrder.mono hstart hstop, h.marked⟩

/-- No nodes lie anywhere. -/
theorem LieIn.nil (h : start ≤ stop) : LieIn W start stop [] :=
  ⟨h, nofun⟩

/-- A node in front of others. -/
theorem Lies.cons (h : Lies W start k t) (hs : LieIn W k stop ts) : LieIn W start stop (t :: ts) :=
  ⟨⟨h.start_le, Int.le_of_lt h.covers.lt, hs.inOrder.mono h.le_stop (Int.le_refl stop)⟩,
    List.forall_mem_cons.2 ⟨h.marked, hs.marked⟩⟩

/-- A single node. -/
theorem Lies.single (h : Lies W start stop t) : LieIn W start stop [t] :=
  h.cons (.nil (Int.le_refl stop))

/-- Nodes in front of others. -/
theorem LieIn.append {us : List Node} (h : LieIn W start k ts) (hs : LieIn W k stop us) :
    LieIn W start stop (ts ++ us) := by
  refine ⟨?_, List.forall_mem_append.2 ⟨h.marked, hs.marked⟩⟩
  rw [List.map_append, InOrder.append_iff]
  exact ⟨k, h.inOrder, hs.inOrder⟩

/-- A tree lies where it starts. -/
theorem Lies.self (h : Lies W start stop t) : Lies W t.mark.start.offset t.mark.stop t :=
  ⟨h.covers, h.marked, Int.le_refl _, Int.le_refl _⟩

/-- A tree ends behind whatever lies in front of it. -/
theorem Lies.lt {k : Int} (h : Lies W start stop t) (hk : k ≤ start) : k < stop :=
  Int.lt_of_le_of_lt (Int.le_trans hk h.start_le) (Int.lt_of_lt_of_le h.covers.lt h.le_stop)

/-- A tree lies where its mark says if the nodes below it do. -/
theorem lies_of_below {p : Position} (hkind : kind ≠ .absent ∧ kind ∉ NodeKind.literals)
    (hbelow : LieIn W p.offset k (Tree.subnodes ⟨kind, value, ts, ⟨p, k⟩⟩))
    (hlt : p.offset < k) (hstart : ∃ o ∈ W, p = o.position) (hstop : ∃ o ∈ W, k = o.stop)
    (hle : start ≤ p.offset) (hle' : k ≤ stop) : Lies W start stop ⟨kind, value, ts, ⟨p, k⟩⟩ := by
  have hcovers : Covers W ⟨kind, value, ts, ⟨p, k⟩⟩ := ⟨hlt, hstart, hstop⟩
  refine ⟨hcovers, Tree.forall_mem_walk.2 ⟨⟨fun _ => hcovers, fun habsent => ?_, hbelow.inOrder,
    fun hliteral => ?_⟩, hbelow.marked⟩, hle, hle'⟩
  · exact absurd habsent hkind.1
  · exact absurd hliteral hkind.2

/-- The node of a token covers the token. -/
theorem literal_lies (hpos : o.position.offset < o.stop) (ho : o ∈ W)
    (hkind : Parser.literal? o.kind = some kind) (hle : start ≤ o.position.offset)
    (hle' : o.stop ≤ stop) :
    Lies W start stop ⟨kind, .text (Parser.literalText o), [], ⟨o.position, o.stop⟩⟩ := by
  have hcovers : Covers W ⟨kind, .text (Parser.literalText o), [], ⟨o.position, o.stop⟩⟩ :=
    ⟨hpos, ⟨o, ho, rfl⟩, ⟨o, ho, rfl⟩⟩
  have habsent : kind ≠ .absent := by
    rintro rfl
    generalize o.kind = token at hkind
    cases token <;> cases hkind
  refine ⟨hcovers, Tree.forall_mem_walk.2 ⟨⟨fun _ => hcovers, fun h => absurd h habsent, ?_,
    fun _ => ⟨o, ho, hkind, rfl, rfl⟩⟩, by simp⟩, hle, hle'⟩
  rw [Tree.subnodes_text]
  exact Int.le_of_lt hpos

/-- The mark of a bound that is left out covers nothing. -/
theorem absent_lies {p : Position} (hle : start ≤ p.offset) (hle' : p.offset ≤ stop) :
    LieIn W start stop [⟨.absent, .none, [], ⟨p, p.offset⟩⟩] := by
  refine ⟨⟨hle, Int.le_refl _, hle'⟩, List.forall_mem_singleton.2 (Tree.forall_mem_walk.2
    ⟨⟨fun h => absurd rfl h, fun _ => rfl, ?_, fun h => ?_⟩, by simp⟩)⟩
  · rw [Tree.subnodes_none]
    exact Int.le_refl _
  · simp [NodeKind.literals] at h

end

/-! ### Trees among tokens -/

section

variable {W w : List Token} {next : Token} {t : Node} {ts : List Node}

/-- Wherever the tokens stand in order, the tree lies where they stand. -/
def LiesOn (W w : List Token) (next : Token) (t : Node) : Prop :=
  ∀ {start stop : Int}, w ⊆ W → InOrder start (w.map Token.stretch) stop →
    stop ≤ next.position.offset → Lies W start stop t

/-- Wherever the tokens stand in order, the trees lie where they stand, up to the token behind
them: a bound may be left out in front of it. -/
def LieOn (W w : List Token) (next : Token) (ts : List Node) : Prop :=
  ∀ {start stop : Int}, w ⊆ W → InOrder start (w.map Token.stretch) stop →
    stop ≤ next.position.offset → LieIn W start next.position.offset ts

/-- A node on the tokens of its phrase. -/
theorem LiesOn.single (h : LiesOn W w next t) : LieOn W w next [t] :=
  fun hw horder hnext => (h hw horder hnext).single.mono (Int.le_refl _) hnext

/-- No nodes on no tokens. -/
theorem LieOn.nil : LieOn W [] next [] :=
  fun _ horder hnext => .nil (Int.le_trans horder hnext)

/-- The trees of a phrase are marked and stand in order where its tokens stand. -/
def Phrase.IsMarked (W w : List Token) (next : Token) : Phrase → Prop
  | expression _ t | item _ t | statement t => LiesOn W w next t
  | bound t => LieOn W w next [t]
  | bounds a b c => LieOn W w next [a, b, c]
  | series _ ts | statements ts => LieOn W w next ts

end

/-! ### One rule at a time -/

section

variable {W u v w : List Token} {o m c name next : Token} {kind : NodeKind} {value : Value Node}
  {a b d t : Node} {ts us : List Node} {start stop : Int}

/-! #### Brackets and suffixes -/

/-- A literal covers its token. -/
theorem literal_liesOn (hpos : ∀ o ∈ W, o.position.offset < o.stop)
    (ho : Parser.literal? o.kind = some kind) :
    LiesOn W [o] next ⟨kind, .text (Parser.literalText o), [], ⟨o.position, o.stop⟩⟩ := by
  rintro start stop hw ⟨hstart, -, hstop⟩ -
  have hmem := hw (List.mem_singleton.2 rfl)
  exact literal_lies (hpos o hmem) hmem ho hstart hstop

/-- Parentheses leave more space around what stands in them. -/
theorem group_liesOn (h : LiesOn W w c t) : LiesOn W (o :: (w ++ [c])) next t := by
  intro start stop hw horder _
  simp only [List.cons_subset, List.append_subset] at hw
  simp only [tokens_cons, tokens_append, tokens_nil] at horder
  obtain ⟨hstart, ho, k, horder, hc, hc', hstop⟩ := horder
  obtain ⟨hcovers, hmarked, hle, hle'⟩ := h hw.2.1 horder hc
  exact ⟨hcovers, hmarked, by omega, by omega⟩

/-- What stands in brackets lies between them. -/
theorem enclosed_liesOn (hkind : kind ≠ .absent ∧ kind ∉ NodeKind.literals)
    (hpos : ∀ o ∈ W, o.position.offset < o.stop) (h : LieOn W w c ts) :
    LiesOn W (o :: (w ++ [c])) next ⟨kind, .none, ts, ⟨o.position, c.stop⟩⟩ := by
  intro start stop hw horder _
  simp only [List.cons_subset, List.append_subset] at hw
  simp only [tokens_cons, tokens_append, tokens_nil] at horder
  obtain ⟨hstart, ho, k, horder, hc, hc', hstop⟩ := horder
  have hlies := h hw.2.1 horder hc
  have hk := horder.le
  have hpo := hpos o hw.1
  refine lies_of_below hkind ?_ ?_ ⟨o, hw.1, rfl⟩ ⟨c, hw.2.2.1, rfl⟩ hstart hstop
  · rw [Tree.subnodes_none]
    exact hlies.mono ho hc'
  · omega

/-- A suffix in brackets lies behind the expression that it belongs to. -/
theorem suffixed_liesOn (hkind : kind ≠ .absent ∧ kind ∉ NodeKind.literals)
    (hsubnodes : Tree.subnodes ⟨kind, value, us, ⟨t.mark.start, c.stop⟩⟩ = t :: ts)
    (ht : LiesOn W v o t) (h : LieOn W w c ts) :
    LiesOn W (v ++ o :: (w ++ [c])) next ⟨kind, value, us, ⟨t.mark.start, c.stop⟩⟩ := by
  intro start stop hw horder _
  simp only [List.cons_subset, List.append_subset] at hw
  simp only [tokens_cons, tokens_append, tokens_nil] at horder
  obtain ⟨k, hv, hk, ho, k', hw', hc, hc', hstop⟩ := horder
  have hobject := ht hw.1 hv hk
  have hinner := h hw.2.2.1 hw' hc
  obtain ⟨hlt, hfirst, -⟩ := hobject.covers
  have hle := hobject.le_stop
  have hk' := hw'.le
  refine lies_of_below hkind ?_ ?_ hfirst ⟨c, hw.2.2.2.1, rfl⟩ hobject.start_le hstop
  · rw [hsubnodes]
    exact hobject.self.cons (hinner.mono (by omega) hc')
  · omega

/-- A member ends with its name. -/
theorem member_liesOn {s : String} (ht : LiesOn W v o t) :
    LiesOn W (v ++ [o, name]) next ⟨.member, .text s, [t], ⟨t.mark.start, name.stop⟩⟩ := by
  intro start stop hw horder _
  simp only [List.cons_subset, List.append_subset] at hw
  simp only [tokens_cons, tokens_append, tokens_nil] at horder
  obtain ⟨k, hv, hk, ho, hname, hname', hstop⟩ := horder
  have hobject := ht hw.1 hv hk
  obtain ⟨hlt, hfirst, -⟩ := hobject.covers
  have hle := hobject.le_stop
  refine lies_of_below (by decide) ?_ ?_ hfirst ⟨name, hw.2.2.1, rfl⟩ hobject.start_le hstop
  · exact hobject.self.single.mono (Int.le_refl _) (by omega)
  · omega

/-! #### Operators -/

/-- What a prefix operator makes is there, and it is no literal. -/
theorem composite_of_prefixed? {token : TokenKind} (h : Parser.prefixed? token = some kind) :
    kind ≠ .absent ∧ kind ∉ NodeKind.literals := by
  obtain ⟨s, -, hs⟩ := symbol_of_prefixed? h
  cases s <;> cases hs <;> decide

/-- What a binary operator makes is there, and it is no literal. -/
theorem composite_of_binary? {token : TokenKind} {level : Int}
    (h : Parser.binary? token = some (level, kind)) :
    kind ≠ .absent ∧ kind ∉ NodeKind.literals := by
  obtain ⟨s, -, hs⟩ := symbol_of_binary? h
  cases s <;> cases hs <;> decide

/-- A node that ends with the tokens of its last part lies where the nodes in front of that part
start. -/
theorem trailed_lies {p : Position} {k : Int} (hkind : kind ≠ .absent ∧ kind ∉ NodeKind.literals)
    (hne : w ≠ []) (hw : w ⊆ W) (horder : InOrder k (w.map Token.stretch) stop)
    (hnext : stop ≤ next.position.offset) (hfront : LieIn W p.offset k ts)
    (hlast : LiesOn W w next t) (hstart : ∃ o ∈ W, p = o.position) (hle : start ≤ p.offset)
    (hsubnodes : Tree.subnodes ⟨kind, value, us, ⟨p, lastStop w⟩⟩ = ts ++ [t]) :
    Lies W start stop ⟨kind, value, us, ⟨p, lastStop w⟩⟩ := by
  obtain ⟨horder, hstop, c, hc, hcstop⟩ := horder.lastStop hne
  have ht := hlast hw horder (Int.le_trans hstop hnext)
  refine lies_of_below hkind ?_ ?_ hstart ⟨c, hw hc, hcstop⟩ hle hstop
  · rw [hsubnodes]
    exact hfront.append ht.single
  · exact ht.lt hfront.inOrder.le

/-- A prefix operator in front of an operand. -/
theorem prefixed_liesOn {s : String} (ho : Parser.prefixed? o.kind = some kind) (hne : w ≠ [])
    (h : LiesOn W w next t) :
    LiesOn W (o :: w) next ⟨kind, .text s, [t], ⟨o.position, lastStop w⟩⟩ := by
  intro start stop hw horder hnext
  obtain ⟨ho', hw⟩ := List.cons_subset.1 hw
  obtain ⟨hstart, hle, horder⟩ := tokens_cons.1 horder
  refine trailed_lies (composite_of_prefixed? ho) hne hw horder hnext (.nil hle) h ⟨_, ho', rfl⟩
    hstart ?_
  rw [Tree.subnodes_text, List.nil_append]

/-- An iteration from its mark to the end of its transform. -/
theorem iteration_liesOn (hne : w ≠ []) (ha : LiesOn W v m a) (hb : LiesOn W w next b) :
    LiesOn W (o :: (v ++ m :: w)) next
      ⟨.iteration, .none, [a, b], ⟨o.position, lastStop w⟩⟩ := by
  intro start stop hw horder hnext
  simp only [List.cons_subset, List.append_subset] at hw
  simp only [tokens_cons, tokens_append] at horder
  obtain ⟨hstart, ho, k, hv, hm, hm', horder⟩ := horder
  have hfirst := ha hw.2.1 hv hm
  exact trailed_lies (by decide) hne hw.2.2.2 horder hnext
    (hfirst.single.mono ho (Int.le_trans hm hm')) hb ⟨_, hw.1, rfl⟩ hstart rfl

/-- An operation from its left operand to the end of the right one. -/
theorem operation_liesOn {level : Int} {s : String}
    (ho : Parser.binary? o.kind = some (level, kind)) (hne : w ≠ []) (ha : LiesOn W v o a)
    (hb : LiesOn W w next b) :
    LiesOn W (v ++ o :: w) next ⟨kind, .text s, [a, b], ⟨a.mark.start, lastStop w⟩⟩ := by
  intro start stop hw horder hnext
  simp only [List.cons_subset, List.append_subset] at hw
  simp only [tokens_cons, tokens_append] at horder
  obtain ⟨k, hv, hk, ho', horder⟩ := horder
  have hleft := ha hw.1 hv hk
  have hle := hleft.le_stop
  refine trailed_lies (composite_of_binary? ho) hne hw.2.2 horder hnext
    (hleft.self.single.mono (Int.le_refl _) (by omega)) hb hleft.covers.start hleft.start_le ?_
  rw [Tree.subnodes_text, List.singleton_append]

/-- A conditional from its condition to the end of the last branch. -/
theorem conditional_liesOn (hne : w ≠ []) (ha : LiesOn W u o a) (hb : LiesOn W v m b)
    (hd : LiesOn W w next d) :
    LiesOn W (u ++ o :: (v ++ m :: w)) next
      ⟨.conditional, .none, [a, b, d], ⟨a.mark.start, lastStop w⟩⟩ := by
  intro start stop hw horder hnext
  simp only [List.cons_subset, List.append_subset] at hw
  simp only [tokens_cons, tokens_append] at horder
  obtain ⟨k, hu, hk, ho', k', hv, hk', hm, horder⟩ := horder
  have hfirst := ha hw.1 hu hk
  have hsecond := hb hw.2.2.1 hv hk'
  have hle := hfirst.le_stop
  have hfront := hfirst.self.cons (hsecond.single.mono (by omega) (Int.le_trans hk' hm))
  exact trailed_lies (by decide) hne hw.2.2.2.2 horder hnext hfront hd hfirst.covers.start
    hfirst.start_le rfl

/-! #### Bounds and items -/

/-- The mark of a bound that is left out lies in front of the next token. -/
theorem leftOut_lieOn :
    LieOn W [] next [⟨.absent, .none, [], ⟨next.position, next.position.offset⟩⟩] :=
  fun _ horder hnext => absent_lies (Int.le_trans horder hnext) (Int.le_refl _)

/-- A step that is left out lies in front of the closing bracket. -/
theorem twoBounds_lieOn (ha : LieOn W v o [a]) (hb : LieOn W w next [b]) :
    LieOn W (v ++ o :: w) next
      [a, b, ⟨.absent, .none, [], ⟨next.position, next.position.offset⟩⟩] := by
  intro start stop hw horder hnext
  simp only [List.cons_subset, List.append_subset] at hw
  simp only [tokens_cons, tokens_append] at horder
  obtain ⟨k, hv, hk, ho, horder⟩ := horder
  have hfirst := ha hw.1 hv hk
  have hsecond := hb hw.2.2 horder hnext
  exact (hfirst.mono (Int.le_refl _) ho).append
    (hsecond.append (absent_lies (Int.le_refl _) (Int.le_refl _)))

/-- Three bounds in order. -/
theorem threeBounds_lieOn (ha : LieOn W u o [a]) (hb : LieOn W v m [b])
    (hd : LieOn W w next [d]) : LieOn W (u ++ o :: (v ++ m :: w)) next [a, b, d] := by
  intro start stop hw horder hnext
  simp only [List.cons_subset, List.append_subset] at hw
  simp only [tokens_cons, tokens_append] at horder
  obtain ⟨k, hu, hk, ho, k', hv, hk', hm, horder⟩ := horder
  have hfirst := ha hw.1 hu hk
  have hsecond := hb hw.2.2.1 hv hk'
  have hthird := hd hw.2.2.2.2 horder hnext
  exact (hfirst.mono (Int.le_refl _) ho).append ((hsecond.mono (Int.le_refl _) hm).append hthird)

/-- The bound between the two halves of a double colon lies in front of them. -/
theorem outerBounds_lieOn (ha : LieOn W v o [a]) (hd : LieOn W w next [d]) :
    LieOn W (v ++ o :: w) next
      [a, ⟨.absent, .none, [], ⟨o.position, o.position.offset⟩⟩, d] := by
  intro start stop hw horder hnext
  simp only [List.cons_subset, List.append_subset] at hw
  simp only [tokens_cons, tokens_append] at horder
  obtain ⟨k, hv, hk, ho, horder⟩ := horder
  have hfirst := ha hw.1 hv hk
  have hthird := hd hw.2.2 horder hnext
  exact hfirst.append ((absent_lies (Int.le_refl _) ho).append hthird)

/-- An entry from its key to the end of its value. -/
theorem entry_liesOn (hpos : ∀ o ∈ W, o.position.offset < o.stop)
    (hname : Parser.literal? name.kind = some kind) (hne : w ≠ []) (h : LiesOn W w next t) :
    LiesOn W (name :: o :: w) next
      ⟨.mapEntry, .node t,
        [⟨kind, .text (Parser.literalText name), [], ⟨name.position, name.stop⟩⟩],
        ⟨name.position, lastStop w⟩⟩ := by
  intro start stop hw horder hnext
  simp only [List.cons_subset] at hw
  simp only [tokens_cons] at horder
  obtain ⟨hstart, -, ho, ho', horder⟩ := horder
  have hkey := literal_lies (hpos name hw.1) hw.1 hname (Int.le_refl _) (Int.le_refl _)
  exact trailed_lies (by decide) hne hw.2.2 horder hnext
    (hkey.single.mono (Int.le_refl _) (Int.le_trans ho ho')) h ⟨name, hw.1, rfl⟩ hstart rfl

/-- An item in front of others. -/
theorem moreItems_lieOn (h : LiesOn W v o t) (hs : LieOn W w next ts) :
    LieOn W (v ++ o :: w) next (t :: ts) := by
  intro start stop hw horder hnext
  simp only [List.cons_subset, List.append_subset] at hw
  simp only [tokens_cons, tokens_append] at horder
  obtain ⟨k, hv, hk, ho, horder⟩ := horder
  have hfirst := h hw.1 hv hk
  have hrest := hs hw.2.2 horder hnext
  exact hfirst.cons (hrest.mono (Int.le_trans hk ho) (Int.le_refl _))

/-! #### Statements -/

/-- The name of a dataflow definition lies behind what is defined. -/
theorem dataflow_liesOn (hpos : ∀ o ∈ W, o.position.offset < o.stop)
    (hname : name.kind = .identifier) (h : LiesOn W w o t) :
    LiesOn W (w ++ [o, name]) next
      ⟨.dataflow, .node t, [⟨.identifier, .text name.text, [], ⟨name.position, name.stop⟩⟩],
        ⟨t.mark.start, name.stop⟩⟩ := by
  intro start stop hw horder _
  simp only [List.cons_subset, List.append_subset] at hw
  simp only [tokens_cons, tokens_append, tokens_nil] at horder
  obtain ⟨k, hv, hk, ho, hle, hle', hstop⟩ := horder
  have hdefined := h hw.1 hv hk
  obtain ⟨hlt, hfirst, -⟩ := hdefined.covers
  have hend := hdefined.le_stop
  have hleaf : Lies W name.position.offset name.stop
      ⟨.identifier, .text name.text, [], ⟨name.position, name.stop⟩⟩ := by
    have htext : Parser.literalText name = name.text := if_neg (by simp [hname])
    rw [← htext]
    exact literal_lies (hpos name hw.2.2.1) hw.2.2.1 (by rw [hname]; rfl) (Int.le_refl _)
      (Int.le_refl _)
  refine lies_of_below (by decide) ?_ ?_ hfirst ⟨name, hw.2.2.1, rfl⟩ hdefined.start_le hstop
  · exact hdefined.self.cons (hleaf.single.mono (by omega) (Int.le_refl _))
  · exact hleaf.lt (by omega)

/-- The first of some statements lies in front of the first token of the others. -/
theorem moreStatements_lieOn (h : LiesOn W v (w.headD next) t) (hs : LieOn W w next ts) :
    LieOn W (v ++ w) next (t :: ts) := by
  intro start stop hw horder hnext
  obtain ⟨hv, hw⟩ := List.append_subset.1 hw
  obtain ⟨k, hfirst, horder⟩ := tokens_append.1 horder
  have hk : k ≤ (w.headD next).position.offset := by
    cases w with
    | nil => exact Int.le_trans horder hnext
    | cons o w => exact horder.1
  exact (h hv hfirst hk).cons (hs hw horder hnext)

end

/-- The trees of phrases are marked with the places of their tokens. -/
theorem Derives.isMarked {r : Room} {W w : List Token} {next : Token} {phrase : Phrase}
    (h : Derives r w next phrase) (hpos : ∀ o ∈ W, o.position.offset < o.stop) :
    phrase.IsMarked W w next := by
  induction h with
  | looser _ _ ih | item _ _ ih | bare _ _ ih => exact ih
  | literal _ ho => exact literal_liesOn hpos ho
  | group _ _ _ ih => exact group_liesOn ih
  | array _ _ _ _ ih | map _ _ _ _ ih | block _ _ _ _ ih =>
      exact enclosed_liesOn (by decide) hpos ih
  | call _ _ _ _ ihf ih => exact suffixed_liesOn (by decide) rfl ihf ih
  | index _ _ _ _ _ iht ih => exact suffixed_liesOn (by decide) rfl iht (LiesOn.single ih)
  | slice _ _ _ _ _ iht ih => exact suffixed_liesOn (by decide) rfl iht ih
  | member _ _ _ iht => exact member_liesOn iht
  | prefixed ho h ih => exact prefixed_liesOn ho h.ne_nil_of_expression ih
  | iteration _ _ _ hb iha ihb => exact iteration_liesOn hb.ne_nil_of_expression iha ihb
  | operation _ ho hb iha ihb => exact operation_liesOn ho hb.ne_nil_of_expression iha ihb
  | conditional _ _ _ _ hc iha ihb ihc =>
      exact conditional_liesOn hc.ne_nil_of_expression iha ihb ihc
  | leftOut => exact leftOut_lieOn
  | bound _ ih | lastItem _ ih => exact LiesOn.single ih
  | twoBounds _ _ _ iha ihb => exact twoBounds_lieOn iha ihb
  | threeBounds _ _ _ _ _ iha ihb ihc => exact threeBounds_lieOn iha ihb ihc
  | outerBounds _ _ _ iha ihc => exact outerBounds_lieOn iha ihc
  | entry hkey _ h ih => exact entry_liesOn hpos (literal?_of_key hkey) h.ne_nil_of_expression ih
  | noItem | noStatement => exact LieOn.nil
  | moreItems _ _ _ _ ih ihs => exact moreItems_lieOn ih ihs
  | dataflow _ _ hname ih => exact dataflow_liesOn hpos hname ih
  | moreStatements _ _ ih ihs => exact moreStatements_lieOn ih ihs

/-! ### Walks -/

/-- A tree whose nodes lie in one another is walked forward, from its start to its end. -/
theorem walk_forward {t : Node}
    (h : ∀ u ∈ t.walk, InOrder u.mark.start.offset (u.subnodes.map Tree.stretch) u.mark.stop) :
    (∀ u ∈ t.walk, t.mark.start.offset ≤ u.mark.start.offset ∧ u.mark.stop ≤ t.mark.stop) ∧
      t.walk.Pairwise fun u v => u.mark.start.offset ≤ v.mark.start.offset := by
  induction t using Tree.induct with
  | step kind value children mark hvalue hchildren =>
      obtain ⟨hroot, hbelow⟩ := Tree.forall_mem_walk.1 h
      have ih : ∀ c ∈ Tree.subnodes ⟨kind, value, children, mark⟩,
          (∀ u ∈ c.walk, c.mark.start.offset ≤ u.mark.start.offset ∧ u.mark.stop ≤ c.mark.stop) ∧
            c.walk.Pairwise fun u v => u.mark.start.offset ≤ v.mark.start.offset := by
        intro c hc
        rcases Tree.mem_subnodes.1 hc with hc' | hc'
        · exact hvalue c hc' (hbelow c hc)
        · exact hchildren c hc' (hbelow c hc)
      have hinside : ∀ c ∈ Tree.subnodes ⟨kind, value, children, mark⟩, ∀ u ∈ c.walk,
          mark.start.offset ≤ u.mark.start.offset ∧ u.mark.stop ≤ mark.stop := by
        intro c hc u hu
        obtain ⟨hstart, -, hstop⟩ := hroot.bounds _ (List.mem_map_of_mem hc)
        obtain ⟨hstart', hstop'⟩ := (ih c hc).1 u hu
        exact ⟨Int.le_trans hstart hstart', Int.le_trans hstop' hstop⟩
      refine ⟨Tree.forall_mem_walk.2 ⟨⟨Int.le_refl _, Int.le_refl _⟩, hinside⟩, ?_⟩
      rw [Tree.walk_eq, List.pairwise_cons, List.pairwise_flatMap]
      refine ⟨fun u hu => ?_, fun c hc => (ih c hc).2, ?_⟩
      · obtain ⟨c, hc, hu⟩ := List.mem_flatMap.1 hu
        exact (hinside c hc u hu).1
      · -- what is visited below one node ends before the next one starts
        refine (List.pairwise_map.1 hroot.pairwise).imp_of_mem fun {c d} hc hd hcd u hu v hv => ?_
        have hle := (hbelow c hc u hu).le
        have hfirst := ((ih c hc).1 u hu).2
        have hsecond := ((ih d hd).1 v hv).1
        exact Int.le_trans hle (Int.le_trans hfirst (Int.le_trans hcd hsecond))

/-! ### Trees of a text -/

/-- A lexeme has a character. -/
theorem lt_stop_of_isLexeme {o : Token} (h : IsLexeme o.kind o.text.toList) :
    o.position.offset < o.stop := by
  have hlength := List.length_pos_iff.2 h.ne_nil
  rw [String.length_toList] at hlength
  rw [Token.stop]
  omega

/-- The tokens that are cut from a text stand in order. -/
theorem Cuts.inOrder {r left : Remaining} {pieces : List Piece} (h : Cuts r pieces left) :
    InOrder r.position.offset ((pieces.map Piece.token).map Token.stretch)
      left.position.offset := by
  induction h with
  | none => exact Int.le_refl _
  | @piece p gap rest t pieces left _ _ ht hposition _ ih =>
      have hfinish : t.finish.offset = t.stop := by
        rw [Token.finish, Position.offset_after, Token.stop, String.length_toList]
      refine tokens_cons.2 ⟨?_, Int.le_of_lt (lt_stop_of_isLexeme ht.isLexeme), hfinish ▸ ih⟩
      rw [hposition, Position.offset_after]
      exact Int.le_add_of_nonneg_right (Int.natCast_nonneg _)

/-- A string is written as its text between two equal quotation marks. -/
theorem quoted_of_isLexeme {o : Token} (h : IsLexeme o.kind o.text.toList)
    (ho : o.kind = .string) :
    ∃ q, isQuote q = true ∧ o.text.toList = q :: ((Parser.unquoted o.text).toList ++ [q]) := by
  rw [ho] at h
  obtain ⟨q, body, hq, -, hchars⟩ := h.of_string
  refine ⟨q, hq, ?_⟩
  rw [Parser.unquoted, hchars]
  simp

section

variable {text : String} {pieces : List Piece} {gap : List Char} {o : Token} {u : Node}

/-- A name, a number or a truth value is the text that its node covers. -/
theorem word_of_isMarked (hcut : IsCut text pieces gap [])
    (hu : IsMarked (pieces.map Piece.token) u)
    (hkind : u.kind = .identifier ∨ u.kind = .number ∨ u.kind = .boolean) :
    ∃ s, u.value = .text s ∧
      between text.toList u.mark.start.offset u.mark.stop = s.toList := by
  have hmem : u.kind ∈ NodeKind.literals := by
    rcases hkind with hkind | hkind | hkind <;> simp [hkind, NodeKind.literals]
  obtain ⟨o, ho, hliteral, hvalue, hmark⟩ := hu.literal hmem
  obtain ⟨piece, hpiece, rfl⟩ := List.mem_map.1 ho
  have hstring : piece.token.kind ≠ .string := by
    intro hstring
    rw [hstring] at hliteral
    rcases hkind with hkind | hkind | hkind <;> rw [hkind] at hliteral <;> cases hliteral
  rw [Parser.literalText, if_neg hstring] at hvalue
  rw [hmark]
  exact ⟨_, hvalue, (hcut.between_eq piece hpiece).2⟩

/-- A string stands between two equal quotation marks in the text that its node covers. -/
theorem string_of_isMarked (hcut : IsCut text pieces gap [])
    (hu : IsMarked (pieces.map Piece.token) u) (hkind : u.kind = .string) :
    ∃ q s, isQuote q = true ∧ u.value = .text s ∧
      between text.toList u.mark.start.offset u.mark.stop = q :: (s.toList ++ [q]) := by
  have hmem : u.kind ∈ NodeKind.literals := by simp [hkind, NodeKind.literals]
  obtain ⟨o, ho, hliteral, hvalue, hmark⟩ := hu.literal hmem
  obtain ⟨piece, hpiece, rfl⟩ := List.mem_map.1 ho
  have hstring : piece.token.kind = .string := by
    rw [hkind] at hliteral
    generalize piece.token.kind = token at hliteral
    cases token <;> cases hliteral
    rfl
  obtain ⟨q, hq, hquoted⟩ := quoted_of_isLexeme (hcut.cuts.isLexeme piece hpiece) hstring
  rw [Parser.literalText, if_pos hstring] at hvalue
  rw [hmark]
  exact ⟨q, _, hq, hvalue, (hcut.between_eq piece hpiece).2.trans hquoted⟩

end

/-- What the marks of a tree say about the text that it is parsed from. -/
structure FitsText (text : String) (p : Node) : Prop where
  /-- The tree covers the whole text. -/
  whole : p.mark = ⟨.start, text.length⟩
  /-- A node covers something, from the start of a token to the end of one. -/
  covers : ∀ u ∈ p.walk, u.kind ≠ .program → u.kind ≠ .absent →
    Covers ((TokenStream.ofText text).tokens.filter fun o => o.kind ≠ .endOfInput) u
  /-- The mark of a bound that is left out covers nothing. -/
  empty : ∀ u ∈ p.walk, u.kind = .absent → u.mark.stop = u.mark.start.offset
  /-- A node lies inside the node above it. -/
  inside : ∀ u ∈ p.walk, ∀ c ∈ u.subnodes,
    u.mark.start.offset ≤ c.mark.start.offset ∧ c.mark.stop ≤ u.mark.stop
  /-- Of the nodes below a node each ends before the next ones start. -/
  apart : ∀ u ∈ p.walk, u.subnodes.Pairwise fun c d => c.mark.stop ≤ d.mark.start.offset
  /-- A walk goes forward. -/
  forward : p.walk.Pairwise fun u v => u.mark.start.offset ≤ v.mark.start.offset
  /-- A word is what is covered. -/
  word : ∀ u ∈ p.walk, u.kind = .identifier ∨ u.kind = .number ∨ u.kind = .boolean →
    ∃ s, u.value = .text s ∧ between text.toList u.mark.start.offset u.mark.stop = s.toList
  /-- A string is what is covered between two equal quotation marks. -/
  string : ∀ u ∈ p.walk, u.kind = .string → ∃ q s, isQuote q = true ∧ u.value = .text s ∧
    between text.toList u.mark.start.offset u.mark.stop = q :: (s.toList ++ [q])

section

variable {W : List Token} {text : String} {pieces : List Piece} {gap : List Char} {ts : List Node}
  {stop : Int}

/-- Statements that lie in order make a program whose nodes are all marked, but for itself. -/
theorem program_marked (h : LieIn W 0 stop ts) :
    ∀ u ∈ Tree.walk ⟨.program, .none, ts, ⟨.start, stop⟩⟩,
      (u.kind ≠ .program → IsMarked W u) ∧
        InOrder u.mark.start.offset (u.subnodes.map Tree.stretch) u.mark.stop := by
  refine Tree.forall_mem_walk.2 ⟨⟨fun hkind => absurd rfl hkind, ?_⟩, fun c hc u hu => ?_⟩
  · rw [Tree.subnodes_none]
    exact h.inOrder
  · rw [Tree.subnodes_none] at hc
    exact ⟨fun _ => h.marked c hc u hu, (h.marked c hc u hu).nested⟩

/-- The end of a text that is cut up to its end. -/
theorem offset_placeBehind (hcut : IsCut text pieces gap []) :
    (placeBehind pieces gap).offset = text.length := by
  have hchars := congrArg List.length hcut.toList_eq
  rw [List.append_nil, String.length_toList] at hchars
  rw [placeBehind, Position.offset_after, ← hchars]
  exact Int.zero_add _

/-- The statements of a text lie in it. -/
theorem lieIn_of_isCut {r : Room} {last : Token} (hcut : IsCut text pieces gap [])
    (hlast : last.position = placeBehind pieces gap)
    (hd : Derives r (pieces.map Piece.token) last (.statements ts)) :
    LieIn (pieces.map Piece.token) 0 text.length ts := by
  have hpos : ∀ o ∈ pieces.map Piece.token, o.position.offset < o.stop :=
    List.forall_mem_map.2 fun piece hpiece =>
      lt_stop_of_isLexeme (hcut.cuts.isLexeme piece hpiece)
  have hend : (Position.start.after (pieces.flatMap Piece.chars)).offset ≤
      last.position.offset := by
    rw [hlast, placeBehind, Position.after_append, Position.offset_after _ gap]
    exact Int.le_add_of_nonneg_right (Int.natCast_nonneg _)
  have hlie : LieIn (pieces.map Piece.token) 0 last.position.offset ts :=
    hd.isMarked hpos (List.Subset.refl _) hcut.cuts.inOrder hend
  rwa [hlast, offset_placeBehind hcut] at hlie

end

/-- The marks of a parsed tree fit the text. -/
theorem parseText_extents (room : Nat) (text : String) (p : Node)
    (h : parseText room text = .ok p) : FitsText text p := by
  obtain ⟨pieces, gap, hcut, statements, hd, rfl⟩ := isCut_of_parseText h
  have hmarked := program_marked (lieIn_of_isCut hcut rfl hd)
  rw [offset_placeBehind hcut]
  have htokens : ∀ o ∈ pieces.map Piece.token,
      o ∈ (TokenStream.ofText text).tokens.filter fun o => o.kind ≠ .endOfInput := by
    rw [hcut.ofText_of_end]
    refine fun o ho => List.mem_filter.2 ⟨List.mem_append_left _ ho, ?_⟩
    obtain ⟨piece, hpiece, rfl⟩ := List.mem_map.1 ho
    simpa using hcut.cuts.kind_ne piece hpiece
  have hword {u : Node} (hu : u ∈ Tree.walk ⟨.program, .none, statements, ⟨.start, text.length⟩⟩)
      {kind : NodeKind} (hkind : u.kind = kind) (hne : kind ≠ .program) :
      IsMarked (pieces.map Piece.token) u :=
    (hmarked u hu).1 (hkind ▸ hne)
  constructor
  case whole => rfl
  case covers =>
    intro u hu hprogram habsent
    obtain ⟨hlt, ⟨o, ho, hstart⟩, ⟨c, hc, hstop⟩⟩ := ((hmarked u hu).1 hprogram).covers habsent
    exact ⟨hlt, ⟨o, htokens o ho, hstart⟩, ⟨c, htokens c hc, hstop⟩⟩
  case empty => exact fun u hu hkind => (hword hu hkind (by decide)).empty hkind
  case inside =>
    intro u hu c hc
    obtain ⟨hstart, -, hstop⟩ := (hmarked u hu).2.bounds _ (List.mem_map_of_mem hc)
    exact ⟨hstart, hstop⟩
  case apart => exact fun u hu => List.pairwise_map.1 (hmarked u hu).2.pairwise
  case forward => exact (walk_forward fun u hu => (hmarked u hu).2).2
  case word =>
    intro u hu hkind
    refine word_of_isMarked hcut ((hmarked u hu).1 ?_) hkind
    rcases hkind with hkind | hkind | hkind <;> simp [hkind]
  case string => exact fun u hu hkind => string_of_isMarked hcut (hword hu hkind (by decide)) hkind

/-- The bounds that are left out of `a[::2]` both have their marks in front of the double colon. -/
theorem parseText_extents_slice :
    ∃ p, p = (⟨.program, .none,
        [⟨.slice, .none,
          [⟨.identifier, .text "a", [], ⟨⟨0, 1, 1⟩, 1⟩⟩, ⟨.absent, .none, [], ⟨⟨2, 1, 3⟩, 2⟩⟩,
            ⟨.absent, .none, [], ⟨⟨2, 1, 3⟩, 2⟩⟩, ⟨.number, .text "2", [], ⟨⟨4, 1, 5⟩, 5⟩⟩],
          ⟨⟨0, 1, 1⟩, 6⟩⟩],
        ⟨.start, 6⟩⟩ : Node) ∧
      parseText 900 "a[::2]" = .ok p ∧ FitsText "a[::2]" p := by
  refine ⟨_, rfl, ?_⟩
  refine ⟨?parsed, parseText_extents _ _ _ ?parsed⟩
  exact eq_ok_of_toOption (by decide +kernel)

end Sigil
