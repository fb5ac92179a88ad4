import Sigil.Proofs.Grammar.Basic
import Sigil.Proofs.Parser.Rules

/-!
# What the parser accepts is in the grammar

Each routine of the parser, when it succeeds, has consumed the tokens of a phrase and gives the tree
of that phrase, for which the frames were enough that the routine was called with. The bodies of the
routines are treated under the assumption that the routines are sound with the frames that are left,
and the routines then by induction on their frames.

An expression routine also stops where it has to: no token that would carry the expression on is
left in front. That is what makes the repetition over binary operators sound, where the operand
built so far may be of any level from the one asked for upwards, and the next operator is never
tighter than it. A routine that goes on from an operand says what becomes of the operand, in any
room in which the frames of the routine are those that the room has for it.

## Main definitions

* `Makes`, `Continues`: a success has consumed the tokens of a phrase, or what carries one on.
* `Routine.IsSound`: what each routine makes with some frames.

## Main results

* `Parser.sound`: every routine is sound with any number of frames.
* `Parser.program_sound`: a program that was parsed is in the grammar.
-/

namespace Sigil

open Parse

/-- When the rule succeeds, the tokens it consumed are a phrase of what it gives. -/
def Makes {α : Type} (r : Room) (phrase : α → Phrase) (p : Parse α) : Prop :=
  ∀ s a s', p s = .ok a s' → ∃ w, s.Reads w s' ∧ Derives r w s'.current (phrase a)

/-- When the rule succeeds, no token in front carries on an expression of the level. -/
def Halts (least : Int) (p : Parse Node) : Prop :=
  ∀ s t s', p s = .ok t s' → s'.current.kind.Stops least

/-- When the rule succeeds behind the operand `a`, the tokens it consumed carry the operand on. -/
def Continues (r : Room) (a : Node) (level least : Int) (p : Parse Node) : Prop :=
  ∀ s t s', p s = .ok t s' → ∃ w, s.Reads w s' ∧
    ∀ v, Derives r v s.current (.expression level a) →
      Derives r (v ++ w) s'.current (.expression least t)

/-- A success of a suffix rule has consumed tokens that make `t` of `object`. -/
def Extends (r : Room) (s : Parser.State) (object t : Node) (s' : Parser.State) : Prop :=
  ∃ w, w ≠ [] ∧ s.Reads w s' ∧ ∀ v,
    Derives r v s.current (.expression Level.suffixed object) →
      Derives r (v ++ w) s'.current (.expression Level.suffixed t)

/-- The tokens that make a slice of an object, behind the first bound: the rest of the bounds and
the closing bracket. -/
def Slices (n : Nat) (s : Parser.State) (object start t : Node) (s' : Parser.State) : Prop :=
  1 < n ∧ ∃ w c stop step, s.Reads (w ++ [c]) s' ∧ c.kind = .symbol .rbracket ∧
    t = ⟨.slice, .none, [object, start, stop, step], ⟨object.mark.start, c.stop⟩⟩ ∧
    ∀ v, Derives (.resumed n) v s.current (.bound start) →
      Derives (.resumed n) (v ++ w) c (.bounds start stop step)

/-- What a routine makes that is called with `n` frames. -/
def Routine.IsSound (n : Nat) (p : Parse Node) : Routine → Prop
  | statement => Makes (.plain (n - 1)) .statement p
  | block => Makes (.plain n) .statement p
  | expression none =>
    Makes (.plain n) (.expression Level.conditional) p ∧ Halts Level.conditional p
  | expression (some a) =>
    ∀ r : Room, r.expression = n → Continues r a Level.unary Level.conditional p
  | binary least none => Level.logicalOr ≤ least → least ≤ Level.unary →
    Makes (.plain (n + 1)) (.expression least) p ∧ Halts least p
  | binary least (some a) => Level.logicalOr ≤ least → least ≤ Level.unary →
    ∀ r : Room, r.expression = n + 1 → Continues r a Level.unary least p
  | unary => Makes (.plain (n + 2)) (.expression Level.unary) p ∧ Halts Level.unary p
  | operand => Makes (.plain (n + 3)) (.expression Level.unary) p ∧ Halts Level.unary p
  | suffixed none => Makes (.plain (n + 4)) (.expression Level.suffixed) p ∧ Halts Level.unary p
  | suffixed (some a) =>
    ∀ r : Room, r.suffixed = n → Continues r a Level.suffixed Level.suffixed p
  | subscript object => ∀ r : Room, r.suffixed = n + 1 → ∀ s t s', p s = .ok t s' →
    Extends r s object t s'
  | slice object start => ∀ s t s', p s = .ok t s' → Slices n s object start t s'
  | sliceBound => Makes (.resumed (n - 1)) .bound p
  | primary => ∀ r : Room, r.primary = n → Makes r (.expression Level.primary) p
  | array | map => ∀ r : Room, r.primary = n + 1 → Makes r (.expression Level.primary) p

namespace Parser

/-- Every routine is sound that is called with `n` frames. -/
def Sound (n : Nat) : Prop :=
  ∀ routine : Routine, routine.IsSound n (run n routine)

/-- An expression calls the routine for binary operators, whatever it goes on from. -/
theorem one_lt_of_run_expression {n : Nat} {left : Option Node} {s s' : State} {t : Node}
    (h : run n (.expression left) s = .ok t s') : 1 < n := by
  cases n with
  | zero => cases h
  | succ n =>
      rw [run_succ, Routine.body, expression_eq, bind_eq_ok] at h
      obtain ⟨a, m, ha, -⟩ := h
      exact Nat.succ_lt_succ (pos_of_run ha)

end Parser

/-! ### Series -/

/-- The tokens behind an item of a series: none, or a comma and the rest of the series. -/
def SeriesTail (r : Room) (s : Series) (w : List Token) (next : Token) (ts : List Node) : Prop :=
  (w = [] ∧ ts = []) ∨ ∃ o v, w = o :: v ∧ o.kind = .symbol .comma ∧
    Derives r v next (.series s ts) ∧ (s = .arguments → ts ≠ [])

/-- An item and what stands behind it are a series. -/
theorem SeriesTail.series {r : Room} {k : Series} {v w : List Token} {next : Token} {t : Node}
    {ts : List Node} (ht : Derives r v (w.headD next) (.item k t))
    (h : SeriesTail r k w next ts) : Derives r (v ++ w) next (.series k (t :: ts)) := by
  obtain ⟨rfl, rfl⟩ | ⟨o, w, rfl, ho, hs, hlast⟩ := h
  · rw [List.append_nil]
    exact .lastItem ht
  · exact .moreItems ht ho hs hlast

namespace Parser

variable {n : Nat} {r : Room} {s m s' : State} {k : Series}

/-- A step of the repetition behind the first item of a series: it finds no comma, or only a comma
where that is allowed, or a comma and an item. -/
def ItemStep (r : Room) (k : Series) (step : Parse (Option Node)) : Prop :=
  ∀ s found s', step s = .ok found s' →
    (found = none ∧ (s' = s ∨ k ≠ .arguments ∧ ∃ o, s.Steps o s' ∧ o.kind = .symbol .comma)) ∨
      ∃ t o w, found = some t ∧ s.Reads (o :: w) s' ∧ o.kind = .symbol .comma ∧
        Derives r w s'.current (.item k t)

/-- The items behind the first one, by induction on the tokens that are left. -/
theorem collect_sound {step : Parse (Option Node)} (hstep : ItemStep r k step) {ts : List Node}
    (h : collect step s = .ok ts s') :
    ∃ w, s.Reads w s' ∧ SeriesTail r k w s'.current ts := by
  refine collect_induct (Q := fun s ts s' => ∃ w, s.Reads w s' ∧ SeriesTail r k w s'.current ts)
    ?_ ?_ ?_ h
  · intro s t m h
    obtain ⟨hnone, -⟩ | ⟨t', o, w, -, hreads, -, -⟩ := hstep s _ m h
    · cases hnone
    · exact hreads.pending_lt (by simp)
  · intro s s' h
    obtain ⟨-, rfl | ⟨hk, o, ho, hcomma⟩⟩ | ⟨t, o, w, hsome, -⟩ := hstep s _ s' h
    · exact ⟨[], rfl, .inl ⟨rfl, rfl⟩⟩
    · exact ⟨[o], ho.reads, .inr ⟨o, [], rfl, hcomma, .noItem, fun h => absurd h hk⟩⟩
    · cases hsome
  · intro s t m ts s' h ih
    obtain ⟨hnone, -⟩ | ⟨t', o, v, hsome, hreads, hcomma, ht⟩ := hstep s _ m h
    · cases hnone
    · cases hsome
      obtain ⟨w, hw, htail⟩ := ih
      rw [hw.current_eq] at ht
      refine ⟨o :: v ++ w, hreads.append hw, .inr ⟨o, v ++ w, rfl, hcomma, htail.series ht, ?_⟩⟩
      simp

/-- A series up to its closing mark: an item and, behind it, the steps of a repetition. -/
theorem series_sound {close : Symbol} {item : Parse Node} {step : Parse (Option Node)}
    (hitem : Makes r (.item k) item) (hstep : ItemStep r k step) :
    Makes r (.series k) (do
      if ← check [.symbol close] then return []
      let first ← item
      let others ← collect step
      return first :: others) := by
  intro s ts s' h
  simp only [bind_eq_ok, check_eq_ok] at h
  obtain ⟨b, m, ⟨-, rfl⟩, h⟩ := h
  cases b with
  | true =>
      simp only [if_true, pure_eq_ok] at h
      obtain ⟨rfl, rfl⟩ := h
      exact ⟨[], rfl, .noItem⟩
  | false =>
      simp only [Bool.false_eq_true, if_false, bind_eq_ok, pure_eq_ok] at h
      obtain ⟨t, m, ht, us, m', hus, rfl, rfl⟩ := h
      obtain ⟨v, hv, hd⟩ := hitem _ _ _ ht
      obtain ⟨w, hw, htail⟩ := collect_sound hstep hus
      rw [hw.current_eq] at hd
      exact ⟨v ++ w, hv.append hw, htail.series hd⟩

/-- What stands between brackets is a series of items. -/
theorem items_sound {close : Symbol} {item : Parse Node} (hk : k ≠ .arguments)
    (hitem : Makes r (.item k) item) : Makes r (.series k) (items close item) := by
  refine series_sound hitem fun s found s' h => ?_
  simp only [bind_eq_ok] at h
  obtain ⟨a, m, haccept, h⟩ := h
  obtain ⟨o, rfl, ho, hsteps⟩ | ⟨rfl, rfl, -⟩ := accept_eq_ok (by simp) haccept
  · simp only [bind_eq_ok, check_eq_ok] at h
    obtain ⟨b, m', ⟨-, rfl⟩, h⟩ := h
    have hcomma : o.kind = .symbol .comma := by simpa using ho
    cases b with
    | true =>
        simp only [if_true, pure_eq_ok] at h
        obtain ⟨rfl, rfl⟩ := h
        exact .inl ⟨rfl, .inr ⟨hk, o, hsteps, hcomma⟩⟩
    | false =>
        obtain ⟨t, ht, rfl⟩ := map_eq_ok.1 h
        obtain ⟨w, hw, hd⟩ := hitem _ _ _ ht
        exact .inr ⟨t, o, w, rfl, .cons hsteps hw, hcomma, hd⟩
  · obtain ⟨rfl, rfl⟩ := pure_eq_ok.1 h
    exact .inl ⟨rfl, .inl rfl⟩

/-- An expression is an item of a list of arguments or elements. -/
theorem item_sound (hn : Sound n) (hk : k ≠ .entries) :
    Makes (.plain n) (.item k) (run n (.expression none)) := by
  intro s t s' h
  obtain ⟨w, hw, hd⟩ := (hn (.expression none)).1 s t s' h
  exact ⟨w, hw, .item hk hd⟩

/-- What stands between parentheses behind an expression is a series of arguments. -/
theorem arguments_sound (hn : Sound n) :
    Makes (.plain n) (.series .arguments) (arguments (run n)) := by
  have hitem := item_sound hn (by decide : Series.arguments ≠ .entries)
  refine series_sound hitem fun s found s' h => ?_
  simp only [bind_eq_ok] at h
  obtain ⟨a, m, haccept, h⟩ := h
  obtain ⟨o, rfl, ho, hsteps⟩ | ⟨rfl, rfl, -⟩ := accept_eq_ok (by simp) haccept
  · obtain ⟨t, ht, rfl⟩ := map_eq_ok.1 h
    obtain ⟨w, hw, hd⟩ := hitem _ _ _ ht
    exact .inr ⟨t, o, w, rfl, .cons hsteps hw, by simpa using ho, hd⟩
  · obtain ⟨rfl, rfl⟩ := pure_eq_ok.1 h
    exact .inl ⟨rfl, .inl rfl⟩

/-! ### Primaries -/

/-- An entry is a key, a colon and a value. -/
theorem mapEntry_sound (hn : Sound n) :
    Makes (.plain n) (.item .entries) (mapEntry (run n)) := by
  intro s t s' h
  simp only [mapEntry, bind_eq_ok] at h
  obtain ⟨key, m₁, hkey, name, m₂, hname, o, m₃, ho, value, m₄, hvalue, h⟩ := h
  obtain ⟨hkind, hkey⟩ := expect_eq_ok (by decide) hkey
  rw [finish_of_steps hkey] at hname
  cases hname
  obtain ⟨hcolon, ho⟩ := expect_one_eq_ok (by decide) ho
  obtain ⟨w, hw, hd⟩ := (hn (.expression none)).1 _ _ _ hvalue
  have hreads : s.Reads (key :: o :: w) m₄ := .cons hkey (.cons ho hw)
  rw [finish_of_reads hw hd.ne_nil_of_expression] at h
  cases h
  exact ⟨key :: o :: w, hreads, .entry (by simpa using hkind) hcolon hd⟩

/-- An array leaves its items two frames less than a primary has. -/
theorem array_sound (hn : Sound n) (hr : r.primary = n + 2) :
    Makes r (.expression Level.primary) (array (run n)) := by
  intro s t s' h
  simp only [array, bind_eq_ok] at h
  obtain ⟨o, m₁, ho, ts, m₂, hts, c, m₃, hc, h⟩ := h
  obtain ⟨hopen, ho⟩ := expect_one_eq_ok (by decide) ho
  obtain ⟨hclose, hc⟩ := expect_one_eq_ok (by decide) hc
  obtain ⟨w, hw, hd⟩ :=
    items_sound (k := .elements) (by decide) (item_sound hn (by decide)) _ _ _ hts
  rw [hc.1] at hd
  rw [finish_of_steps hc] at h
  cases h
  exact ⟨o :: (w ++ [c]), .cons ho (hw.append hc.reads), 
    .array (by omega) hopen (by rwa [hr]) hclose⟩

/-- A map leaves its entries two frames less than a primary has. -/
theorem map_sound (hn : Sound n) (hr : r.primary = n + 2) :
    Makes r (.expression Level.primary) (map (run n)) := by
  intro s t s' h
  simp only [map, bind_eq_ok] at h
  obtain ⟨o, m₁, ho, ts, m₂, hts, c, m₃, hc, h⟩ := h
  obtain ⟨hopen, ho⟩ := expect_one_eq_ok (by decide) ho
  obtain ⟨hclose, hc⟩ := expect_one_eq_ok (by decide) hc
  obtain ⟨w, hw, hd⟩ := items_sound (by decide) (mapEntry_sound hn) _ _ _ hts
  rw [hc.1] at hd
  rw [finish_of_steps hc] at h
  cases h
  exact ⟨o :: (w ++ [c]), .cons ho (hw.append hc.reads), 
    .map (by omega) hopen (by rwa [hr]) hclose⟩

/-- A primary leaves the expression in parentheses one frame less. -/
theorem primary_sound (hn : Sound n) (hr : r.primary = n + 1) :
    Makes r (.expression Level.primary) (primary (run n)) := by
  intro s t s' h
  simp only [primary, bind_eq_ok, current_eq_ok] at h
  obtain ⟨o, m, ⟨rfl, rfl⟩, h⟩ := h
  cases hkind : literal? s.current.kind with
  | some kind =>
      have hend : s.current.kind ≠ .endOfInput := by
        intro hend
        simp [literal?, hend] at hkind
      simp only [hkind, bind_eq_ok, advance_eq_ok hend] at h
      obtain ⟨o, m, ho, h⟩ := h
      obtain rfl := ho.1
      rw [finish_of_steps ho] at h
      cases h
      exact ⟨[s.current], ho.reads, .literal (by omega) hkind⟩
  | none =>
      simp only [hkind] at h
      generalize hopen : s.current.kind = kind at h
      split at h
      · exact hn .array r hr s t s' h
      · exact hn .map r hr s t s' h
      · simp only [bind_eq_ok, advance_eq_ok (s := s) (by simp [hopen]), pure_eq_ok] at h
        obtain ⟨o, m₁, ho, e, m₂, he, c, m₃, hc, rfl, rfl⟩ := h
        obtain ⟨hclose, hc⟩ := expect_one_eq_ok (by decide) hc
        obtain ⟨w, hw, hd⟩ := (hn (.expression none)).1 _ _ _ he
        rw [hc.1] at hd
        exact ⟨o :: (w ++ [c]), .cons ho (hw.append hc.reads), 
          .group (ho.1 ▸ hopen) (by rwa [hr]) hclose⟩
      · cases h

/-! ### Suffixes -/

/-- A bound is a primary or is left out. -/
theorem sliceBound_sound (hn : Sound n) : Makes (.resumed n) .bound (sliceBound (run n)) := by
  intro s t s' h
  simp only [sliceBound, bind_eq_ok, check_eq_ok] at h
  obtain ⟨b, m, ⟨-, rfl⟩, h⟩ := h
  cases b with
  | true =>
      obtain ⟨w, hw, hd⟩ := hn .primary (.resumed n) rfl _ _ _ h
      exact ⟨w, hw, .bound hd⟩
  | false =>
      cases h
      exact ⟨[], rfl, .leftOut⟩

/-- Behind the bounds there is the bracket, and nothing else is consumed. -/
theorem slice_close_sound {object start stop step t : Node}
    (h : slice.close object start stop step s = .ok t s') :
    ∃ c, s.Steps c s' ∧ c.kind = .symbol .rbracket ∧
      t = ⟨.slice, .none, [object, start, stop, step], ⟨object.mark.start, c.stop⟩⟩ := by
  simp only [slice.close, bind_eq_ok] at h
  obtain ⟨c, m, hc, h⟩ := h
  obtain ⟨hkind, hc⟩ := expect_one_eq_ok (by decide) hc
  rw [finish_of_steps hc] at h
  cases h
  exact ⟨c, hc, hkind, rfl⟩

/-- Behind the second bound there is another colon with a bound, or the closing bracket. -/
theorem step_sound (hn : Sound n) (hpos : 0 < n) {object start stop t : Node} {o : Token}
    {w : List Token} {m' : State} {a : Option Token} (ho : s.Steps o m)
    (hcolon : o.kind = .symbol .colon) (hw : m.Reads w m')
    (hd : Derives (.resumed (n - 1)) w m'.current (.bound stop)) {m₁ : State}
    (haccept : accept [.symbol .colon] m' = .ok a m₁)
    (h : (match a with
      | some _ => run n .sliceBound >>= slice.close object start stop
      | none => absent >>= slice.close object start stop) m₁ = .ok t s') :
    Slices (n + 1) s object start t s' := by
  refine ⟨Nat.succ_lt_succ hpos, ?_⟩
  obtain ⟨o', rfl, ho', hsteps⟩ | ⟨rfl, rfl, -⟩ := accept_eq_ok (by decide) haccept
  · simp only [bind_eq_ok] at h
    obtain ⟨step, m₂, hstep, h⟩ := h
    obtain ⟨w', hw', hd'⟩ := hn .sliceBound _ _ _ hstep
    obtain ⟨c, hc, hkind, rfl⟩ := slice_close_sound h
    rw [hsteps.1] at hd
    rw [hc.1] at hd'
    refine ⟨o :: (w ++ o' :: w'), c, stop, step, ?_, hkind, rfl, fun v hv => ?_⟩
    · exact .cons ho (by simpa using hw.append (.cons hsteps (hw'.append hc.reads)))
    · rw [ho.1] at hv
      exact .threeBounds hv hcolon hd (by simpa using ho') hd'
  · simp only [bind_eq_ok] at h
    obtain ⟨step, m₂, hstep, h⟩ := h
    cases hstep
    obtain ⟨c, hc, hkind, rfl⟩ := slice_close_sound h
    rw [hc.1] at hd
    refine ⟨o :: w, c, stop, _, .cons ho (hw.append hc.reads), hkind, rfl, fun v hv => ?_⟩
    rw [ho.1] at hv
    rw [hc.1]
    exact .twoBounds hv hcolon hd

/-- The bounds of a slice from the first colon on, and the closing bracket. -/
theorem slice_sound (hn : Sound n) {object start t : Node}
    (h : slice (run n) object start s = .ok t s') : Slices (n + 1) s object start t s' := by
  simp only [slice, bind_eq_ok, check_eq_ok] at h
  obtain ⟨b, m, ⟨hb, rfl⟩, h⟩ := h
  cases b with
  | true =>
      have halt : s.current.kind = .symbol .alt := by simpa using hb
      simp only [if_true, bind_eq_ok] at h
      obtain ⟨stop, m, hstop, h⟩ := h
      cases hstop
      simp only [advance_eq_ok (s := s) (by simp [halt])] at h
      obtain ⟨o, m₁, ho, step, m₂, hstep, h⟩ := h
      obtain ⟨w, hw, hd⟩ := hn .sliceBound _ _ _ hstep
      refine ⟨Nat.succ_lt_succ (pos_of_run hstep), ?_⟩
      obtain ⟨c, hc, hkind, rfl⟩ := slice_close_sound h
      rw [hc.1] at hd
      refine ⟨o :: w, c, _, step, .cons ho (hw.append hc.reads), hkind, rfl, fun v hv => ?_⟩
      rw [ho.1] at hv halt ⊢
      exact .outerBounds hv halt hd
  | false =>
      simp only [Bool.false_eq_true, if_false, bind_eq_ok] at h
      obtain ⟨o, m₁, ho, stop, m₂, hstop, a, m₃, haccept, h⟩ := h
      obtain ⟨hcolon, ho⟩ := expect_one_eq_ok (by decide) ho
      obtain ⟨w, hw, hd⟩ := hn .sliceBound _ _ _ hstop
      exact step_sound hn (pos_of_run hstop) ho hcolon hw hd haccept h

/-- A slice whose first bound is already consumed. -/
theorem extends_of_slice (hn : Sound n) (hr : r.suffixed = n + 2) {object start t : Node}
    {o : Token} {v : List Token} (ho : s.Steps o m) (hopen : o.kind = .symbol .lbracket)
    {m' : State} (hv : m.Reads v m')
    (hstart : Derives (.resumed n) v m'.current (.bound start))
    (h : run n (.slice object start) m' = .ok t s') : Extends r s object t s' := by
  obtain ⟨hpos, w, c, stop, step, hw, hclose, rfl, hbounds⟩ := hn (.slice object start) _ _ _ h
  refine ⟨o :: (v ++ w ++ [c]), by simp, .cons ho (by simpa using hv.append hw), fun u hu => ?_⟩
  rw [ho.1] at hu
  exact .slice (by omega) hu hopen (by rw [hr]; exact hbounds v hstart) hclose

/-- An index whose expression is already consumed, up to the closing bracket. -/
theorem extends_of_index (hpos : 1 < n) (hr : r.suffixed = n + 2) {object i t : Node} {o : Token}
    {w : List Token} (ho : s.Steps o m) (hopen : o.kind = .symbol .lbracket) {m' : State}
    (hw : m.Reads w m') (hd : Derives (.resumed n) w m'.current (.expression Level.conditional i))
    (h : subscript.close object i m' = .ok t s') : Extends r s object t s' := by
  simp only [subscript.close, bind_eq_ok] at h
  obtain ⟨c, m₂, hc, h⟩ := h
  obtain ⟨hclose, hc⟩ := expect_one_eq_ok (by decide) hc
  rw [finish_of_steps hc] at h
  cases h
  rw [hc.1] at hd
  refine ⟨o :: (w ++ [c]), by simp, .cons ho (hw.append hc.reads), fun v hv => ?_⟩
  rw [ho.1] at hv
  exact .index (by omega) hv hopen (by rwa [hr]) hclose

/-- A subscript that starts with a primary: behind it, a slice, or the suffixes and the operators of
the expression that it starts. -/
theorem extends_behindPrimary (hn : Sound n) (hr : r.suffixed = n + 2) {object first t : Node}
    {o : Token} {v : List Token} (ho : s.Steps o m) (hopen : o.kind = .symbol .lbracket)
    {m' : State} (hv : m.Reads v m')
    (hfirst : Derives (.resumed n) v m'.current (.expression Level.primary first))
    (h : behindPrimary (run n) object first m' = .ok t s') : Extends r s object t s' := by
  by_cases hcolon : m'.current.kind ∈ [.symbol .colon, .symbol .alt]
  · rw [behindPrimary_of_colon hcolon] at h
    exact extends_of_slice hn hr ho hopen hv (.bound hfirst) h
  · simp only [behindPrimary_of_other hcolon, bind_eq_ok] at h
    obtain ⟨a, m₁, ha, i, m₂, hi, h⟩ := h
    obtain ⟨u, hu, hsuffixed⟩ := hn (.suffixed (some first)) (.resumed n) rfl _ _ _ ha
    obtain ⟨w, hw, hexpression⟩ := hn (.expression (some a)) (.resumed n) rfl _ _ _ hi
    exact extends_of_index (one_lt_of_run_expression hi) hr ho hopen ((hv.append hu).append hw)
      (hexpression _ (.looser (hsuffixed _ (.looser hfirst (by decide))) (by decide))) h

/-- A subscript extends the expression in front of it, as a slice or as an index. -/
theorem subscript_sound (hn : Sound n) (hr : r.suffixed = n + 2) {object t : Node}
    (h : subscript (run n) object s = .ok t s') : Extends r s object t s' := by
  have hexpect := h
  simp only [subscript, bind_eq_ok] at hexpect
  obtain ⟨o, m, hexpect, -⟩ := hexpect
  obtain ⟨hopen, ho⟩ := expect_one_eq_ok (by decide) hexpect
  by_cases hcolon : m.current.kind ∈ [.symbol .colon, .symbol .alt]
  · rw [subscript_of_colon ho hopen hcolon] at h
    exact extends_of_slice hn hr ho hopen (State.reads_nil.2 rfl) .leftOut h
  · by_cases hprimary : m.current.kind ∈ primaryStarts
    · rw [subscript_of_primary ho hopen hprimary, bind_eq_ok] at h
      obtain ⟨first, m', hfirst, h⟩ := h
      obtain ⟨v, hv, hd⟩ := hn .primary (.resumed n) rfl _ _ _ hfirst
      exact extends_behindPrimary hn hr ho hopen hv hd h
    · rw [subscript_of_other ho hopen hcolon hprimary, bind_eq_ok] at h
      obtain ⟨i, m', hi, h⟩ := h
      obtain ⟨w, hw, hd⟩ := (hn (.expression none)).1 _ _ _ hi
      exact extends_of_index (one_lt_of_run_expression hi) hr ho hopen hw
        (hd.mono (Room.plain_le_resumed (Nat.le_refl n))) h

/-- A suffix extends the expression in front of it. -/
theorem suffix?_sound (hn : Sound n) (hr : r.suffixed = n + 1) {object t : Node}
    (h : suffix? (run n) object s = .ok (some t) s') : Extends r s object t s' := by
  simp only [suffix?, bind_eq_ok, current_eq_ok] at h
  obtain ⟨o, m, ⟨rfl, rfl⟩, h⟩ := h
  generalize hopen : s.current.kind = kind at h
  split at h
  · simp only [bind_eq_ok, advance_eq_ok (s := s) (by simp [hopen])] at h
    obtain ⟨o, m₁, ho, ts, m₂, hts, c, m₃, hc, h⟩ := h
    obtain ⟨hclose, hc⟩ := expect_one_eq_ok (by decide) hc
    obtain ⟨w, hw, hd⟩ := arguments_sound hn _ _ _ hts
    obtain ⟨t, ht, hsome⟩ := map_eq_ok.1 h
    rw [finish_of_steps hc] at ht
    cases ht
    cases hsome
    rw [hc.1] at hd
    refine ⟨o :: (w ++ [c]), by simp, .cons ho (hw.append hc.reads), fun v hv => ?_⟩
    rw [ho.1] at hv hopen
    exact .call hv hopen (by rwa [hr]) hclose
  · obtain ⟨t, ht, hsome⟩ := map_eq_ok.1 h
    cases hsome
    exact hn (.subscript object) r hr _ _ _ ht
  · simp only [bind_eq_ok, advance_eq_ok (s := s) (by simp [hopen])] at h
    obtain ⟨o, m₁, ho, name, m₂, hname, h⟩ := h
    obtain ⟨hkind, hname⟩ := expect_one_eq_ok (by decide) hname
    obtain ⟨t, ht, hsome⟩ := map_eq_ok.1 h
    rw [finish_of_steps hname] at ht
    cases ht
    cases hsome
    refine ⟨[o, name], by simp, .cons ho hname.reads, fun v hv => ?_⟩
    rw [ho.1] at hv hopen
    exact .member hv hopen hkind
  · cases h

/-- Where no suffix is found, none is there. -/
theorem suffix?_eq_none {call : Routine → Parse Node} {object : Node}
    (h : suffix? call object s = .ok none s') :
    s' = s ∧ s.current.kind ∉ [.symbol .lparen, .symbol .lbracket, .symbol .dot] := by
  simp only [suffix?, bind_eq_ok, current_eq_ok] at h
  obtain ⟨o, m, ⟨rfl, rfl⟩, h⟩ := h
  generalize s.current.kind = kind at h ⊢
  split at h
  · simp only [bind_eq_ok] at h
    obtain ⟨_, _, -, _, _, -, _, _, -, h⟩ := h
    obtain ⟨_, -, hsome⟩ := map_eq_ok.1 h
    cases hsome
  · obtain ⟨_, -, hsome⟩ := map_eq_ok.1 h
    cases hsome
  · simp only [bind_eq_ok] at h
    obtain ⟨_, _, -, _, _, -, h⟩ := h
    obtain ⟨_, -, hsome⟩ := map_eq_ok.1 h
    cases hsome
  · next hparen hbracket hdot =>
      cases h
      exact ⟨rfl, by simpa using ⟨hparen, hbracket, hdot⟩⟩

/-- Where a repetition over suffixes ends, it has carried on what it started from, and no suffix is
in front. -/
theorem suffixes_sound (hn : Sound n) (hr : r.suffixed = n + 1) {a t : Node}
    (h : iterate (suffix? (run n)) a s = .ok t s') :
    (∃ w, s.Reads w s' ∧ ∀ v, Derives r v s.current (.expression Level.suffixed a) →
      Derives r (v ++ w) s'.current (.expression Level.suffixed t)) ∧
    s'.current.kind.Stops Level.unary := by
  obtain ⟨m, hextends, hnone⟩ := iterate_induct
    (P := fun t m => ∃ w, s.Reads w m ∧ ∀ v, Derives r v s.current (.expression Level.suffixed a) →
      Derives r (v ++ w) m.current (.expression Level.suffixed t))
    (fun t m t' m' ht h => by
      obtain ⟨w, hw, hd⟩ := ht
      obtain ⟨w', hne, hw', hextend⟩ := suffix?_sound hn hr h
      refine ⟨⟨w ++ w', hw.append hw', fun v hv => ?_⟩, hw'.pending_lt hne⟩
      rw [← List.append_assoc]
      exact hextend _ (hd v hv))
    ⟨[], State.reads_nil.2 rfl, fun v hv => by rwa [List.append_nil]⟩ h
  obtain ⟨rfl, hstop⟩ := suffix?_eq_none hnone
  exact ⟨hextends, TokenKind.stops_unary hstop⟩

/-- A primary with its suffixes, with five frames more than are left for those. -/
theorem suffixed_sound (hn : Sound n) :
    Makes (.plain (n + 5)) (.expression Level.suffixed) (suffixed (run n) none) ∧
      Halts Level.unary (suffixed (run n) none) := by
  have hsuffixed {s t s'} (h : suffixed (run n) none s = .ok t s') :
      (∃ w, s.Reads w s' ∧ Derives (.plain (n + 5)) w s'.current (.expression Level.suffixed t)) ∧
        s'.current.kind.Stops Level.unary := by
    rw [suffixed_none, bind_eq_ok] at h
    obtain ⟨first, m, hfirst, h⟩ := h
    obtain ⟨v, hv, hd⟩ := hn .primary (.plain (n + 5)) rfl _ _ _ hfirst
    obtain ⟨⟨w, hw, hextend⟩, hstop⟩ := suffixes_sound hn (r := .plain (n + 5)) rfl h
    exact ⟨⟨v ++ w, hv.append hw, hextend v (.looser hd (by decide))⟩, hstop⟩
  exact ⟨fun _ _ _ h => (hsuffixed h).1, fun _ _ _ h => (hsuffixed h).2⟩

/-! ### Operands and the operators in front of them -/

/-- An iteration or an expression with suffixes. -/
theorem operand_sound (hn : Sound n) :
    Makes (.plain (n + 4)) (.expression Level.unary) (operand (run n)) ∧
      Halts Level.unary (operand (run n)) := by
  obtain ⟨hmakes, hhalts⟩ := hn (.suffixed none)
  have hoperand {s t s'} (h : operand (run n) s = .ok t s') :
      (∃ w, s.Reads w s' ∧ Derives (.plain (n + 4)) w s'.current (.expression Level.unary t)) ∧
        s'.current.kind.Stops Level.unary := by
    by_cases hiter : s.current.kind = .symbol .iter
    · simp only [operand, bind_eq_ok, current_eq_ok] at h
      obtain ⟨o, m, ⟨rfl, rfl⟩, h⟩ := h
      simp only [hiter, if_true, bind_eq_ok, advance_eq_ok (s := s) (by simp [hiter])] at h
      obtain ⟨o, m₁, ho, a, m₂, ha, p, m₃, hp, b, m₄, hb, h⟩ := h
      obtain ⟨hpipe, hp⟩ := expect_one_eq_ok (by decide) hp
      obtain ⟨v, hv, hda⟩ := hmakes _ _ _ ha
      obtain ⟨w, hw, hdb⟩ := (hn .unary).1 _ _ _ hb
      rw [finish_of_reads hw hdb.ne_nil_of_expression] at h
      cases h
      rw [hp.1] at hda
      rw [ho.1] at hiter ⊢
      exact ⟨⟨o :: (v ++ p :: w), .cons ho (hv.append (.cons hp hw)),
        .iteration hiter hda hpipe hdb⟩, (hn .unary).2 _ _ _ hb⟩
    · rw [operand_of_ne_iter hiter] at h
      obtain ⟨w, hw, hd⟩ := hmakes _ _ _ h
      exact ⟨⟨w, hw, .looser hd (by decide)⟩, hhalts _ _ _ h⟩
  exact ⟨fun _ _ _ h => (hoperand h).1, fun _ _ _ h => (hoperand h).2⟩

/-- Operators in front of an operand. -/
theorem unary_sound (hn : Sound n) :
    Makes (.plain (n + 3)) (.expression Level.unary) (unary (run n)) ∧
      Halts Level.unary (unary (run n)) := by
  have hunary {s t s'} (h : unary (run n) s = .ok t s') :
      (∃ w, s.Reads w s' ∧ Derives (.plain (n + 3)) w s'.current (.expression Level.unary t)) ∧
        s'.current.kind.Stops Level.unary := by
    -- the operators are consumed one at a time, so the induction is on the tokens left
    induction hp : s.pending using Nat.strongRecOn generalizing s t s' with
    | ind p ih =>
        subst hp
        cases hfront : prefixed? s.current.kind with
        | none =>
            rw [unary_of_none hfront] at h
            exact ⟨(hn .operand).1 _ _ _ h, (hn .operand).2 _ _ _ h⟩
        | some kind =>
            have hend : s.current.kind ≠ .endOfInput := by
              intro hend
              simp [prefixed?, hend] at hfront
            cases hadvance : advance s with
            | error e m =>
                rw [unary_of_error hfront hadvance] at h
                cases h
            | ok o m =>
                have ho := (advance_eq_ok hend).1 hadvance
                rw [ho.1] at hfront
                rw [unary_of_prefixed ho hfront, bind_eq_ok] at h
                obtain ⟨u, m', hu, h⟩ := h
                obtain ⟨⟨w, hw, hd⟩, hstop⟩ := ih m.pending ho.pending_lt hu rfl
                rw [finish_of_reads hw hd.ne_nil_of_expression] at h
                cases h
                exact ⟨⟨o :: w, .cons ho hw, .prefixed hfront hd⟩, hstop⟩
  exact ⟨fun _ _ _ h => (hunary h).1, fun _ _ _ h => (hunary h).2⟩

/-! ### Binary operators -/

/-- An operation that was carried out on the operand on the left. -/
theorem operation?_eq_some {call : Routine → Parse Node} {least : Int} {a t : Node}
    (h : operation? call least a s = .ok (some t) s') :
    ∃ o m b level kind, s.Steps o m ∧ binary? o.kind = some (level, kind) ∧ least ≤ level ∧
      call (.binary (level + 1) none) m = .ok b s' ∧
      finish kind a.mark.start (.text o.text) [a, b] s' = .ok t s' := by
  simp only [operation?, bind_eq_ok, current_eq_ok] at h
  obtain ⟨o, m, ⟨rfl, rfl⟩, h⟩ := h
  cases hbinary : binary? s.current.kind with
  | none =>
      simp only [hbinary] at h
      cases h
  | some operator =>
      obtain ⟨level, kind⟩ := operator
      simp only [hbinary] at h
      split at h
      · next hleast =>
          have hend : s.current.kind ≠ .endOfInput := by
            intro hend
            simp [binary?, hend] at hbinary
          simp only [bind_eq_ok, advance_eq_ok hend] at h
          obtain ⟨o, m, ho, b, m', hb, h⟩ := h
          obtain ⟨u, hu, hsome⟩ := map_eq_ok.1 h
          cases hsome
          rw [ho.1] at hbinary hu
          cases hu
          exact ⟨o, m, b, level, kind, ho, hbinary, hleast, hb, rfl⟩
      · cases h

/-- Where no operation is found, no operator of a sufficient level is there. -/
theorem operation?_eq_none {call : Routine → Parse Node} {least : Int} {a : Node}
    (h : operation? call least a s = .ok none s') :
    s' = s ∧ ∀ level kind, binary? s.current.kind = some (level, kind) → level < least := by
  simp only [operation?, bind_eq_ok, current_eq_ok] at h
  obtain ⟨o, m, ⟨rfl, rfl⟩, h⟩ := h
  cases hbinary : binary? s.current.kind with
  | none =>
      simp only [hbinary] at h
      cases h
      exact ⟨rfl, by simp⟩
  | some operator =>
      obtain ⟨level, kind⟩ := operator
      simp only [hbinary] at h
      split at h
      · simp only [bind_eq_ok] at h
        obtain ⟨_, _, -, _, _, -, h⟩ := h
        obtain ⟨_, -, hsome⟩ := map_eq_ok.1 h
        cases hsome
      · next hleast =>
          cases h
          refine ⟨rfl, fun level' kind' h => ?_⟩
          cases h
          omega

/-- The invariant of the repetition over binary operators: from the operand `a` on, the one built
so far is of some level from the one asked for upwards, and no tighter operator is in front. -/
def Climbed (r : Room) (least : Int) (a : Node) (s : State) (t : Node) (m : State) : Prop :=
  ∃ w level, s.Reads w m ∧
    (∀ v, Derives r v s.current (.expression Level.unary a) →
      Derives r (v ++ w) m.current (.expression level t)) ∧
    least ≤ level ∧ ∀ l kind, binary? m.current.kind = some (l, kind) → l ≤ level

/-- One step of the repetition. The right operand of an operator is read at a tighter level. -/
theorem Climbed.step (hn : Sound n) (hr : r.expression = n + 2) {least : Int}
    (hleast : Level.logicalOr ≤ least) {a b t : Node} {m' : State} (hb : Climbed r least a s b m)
    (h : operation? (run n) least b m = .ok (some t) m') :
    Climbed r least a s t m' ∧ m'.current.kind.Stops Level.unary ∧ m'.pending < m.pending := by
  obtain ⟨o, m₁, c, level, kind, ho, hbinary, hlevel, hc, hfinish⟩ := operation?_eq_some h
  obtain ⟨u, k, hu, hdb, -, htight⟩ := hb
  have hunder := level_lt_unary hbinary
  obtain ⟨hmakes, hhalts⟩ := hn (.binary (level + 1) none) (by omega) hunder
  obtain ⟨w, hw, hdc⟩ := hmakes _ _ _ hc
  have hstop := hhalts _ _ _ hc
  rw [ho.1] at hdb htight
  have hk := htight level kind hbinary
  rw [finish_of_reads hw hdc.ne_nil_of_expression] at hfinish
  cases hfinish
  have hreads : m.Reads (o :: w) m' := .cons ho hw
  refine ⟨⟨u ++ o :: w, level, hu.append hreads, fun v hv => ?_, hlevel, fun l kind' h => ?_⟩,
    hstop.mono hunder, hreads.pending_lt (by simp)⟩
  · rw [← List.append_assoc]
    exact .operation (.looser (hdb v hv) hk) hbinary (by rwa [hr])
  · have hlt := hstop l (TokenKind.extension?_of_binary? h)
    omega

/-- Where the repetition ends, the operand is of the level asked for. If nothing but operators can
be in front of it from the start, nothing carries it on. -/
theorem operations_sound (hn : Sound n) (hr : r.expression = n + 2) {least : Int}
    (hleast : Level.logicalOr ≤ least) (htop : least ≤ Level.unary) {a t : Node}
    (h : iterate (operation? (run n) least) a s = .ok t s') :
    (∃ w, s.Reads w s' ∧ ∀ v, Derives r v s.current (.expression Level.unary a) →
      Derives r (v ++ w) s'.current (.expression least t)) ∧
    (s.current.kind.Stops Level.unary → s'.current.kind.Stops least) := by
  have hstart : Climbed r least a s a s :=
    ⟨[], Level.unary, State.reads_nil.2 rfl, fun v hv => by rwa [List.append_nil], htop,
      fun l kind h => Int.le_of_lt (level_lt_unary h)⟩
  obtain ⟨m, ⟨⟨w, level, hw, hd, hle, -⟩, hstops⟩, hnone⟩ := iterate_induct
    (P := fun t m => Climbed r least a s t m ∧
      (s.current.kind.Stops Level.unary → m.current.kind.Stops Level.unary))
    (fun b m c m' hb hstep => by
      obtain ⟨hclimbed, hstop, hlt⟩ := hb.1.step hn hr hleast hstep
      exact ⟨⟨hclimbed, fun _ => hstop⟩, hlt⟩)
    ⟨hstart, id⟩ h
  obtain ⟨rfl, hnone⟩ := operation?_eq_none hnone
  refine ⟨⟨w, hw, fun v hv => .looser (hd v hv) hle⟩, fun hstop l hl => ?_⟩
  have hlt := hstops hstop l hl
  obtain ⟨-, rfl⟩ | ⟨-, rfl⟩ | ⟨node, hb⟩ := TokenKind.extension?_cases hl
  · exact absurd hlt (by decide)
  · exact Int.lt_of_lt_of_le (by decide) hleast
  · exact hnone l node hb

/-- Operations of a least level and tighter ones, which stop in front of looser operators. -/
theorem binary_sound (hn : Sound n) {least : Int} (hleast : Level.logicalOr ≤ least)
    (htop : least ≤ Level.unary) :
    Makes (.plain (n + 2)) (.expression least) (binary (run n) least none) ∧
      Halts least (binary (run n) least none) := by
  have hbinary {s t s'} (h : binary (run n) least none s = .ok t s') :
      (∃ w, s.Reads w s' ∧ Derives (.plain (n + 2)) w s'.current (.expression least t)) ∧
        s'.current.kind.Stops least := by
    rw [binary_none, bind_eq_ok] at h
    obtain ⟨first, m, hfirst, h⟩ := h
    obtain ⟨v, hv, hd⟩ := (hn .unary).1 _ _ _ hfirst
    obtain ⟨⟨w, hw, hcontinue⟩, hstop⟩ :=
      operations_sound hn (r := .plain (n + 2)) rfl hleast htop h
    exact ⟨⟨v ++ w, hv.append hw, hcontinue v hd⟩, hstop ((hn .unary).2 _ _ _ hfirst)⟩
  exact ⟨fun _ _ _ h => (hbinary h).1, fun _ _ _ h => (hbinary h).2⟩

/-! ### Conditionals -/

/-- The branches behind a condition make a conditional of it, and without them it is an expression
by itself. -/
theorem branches_sound (hn : Sound n) (hr : r.expression = n + 1) {a t : Node}
    (h : branches (run n) a s = .ok t s') :
    (∃ w, s.Reads w s' ∧ ∀ v, Derives r v s.current (.expression Level.logicalOr a) →
      Derives r (v ++ w) s'.current (.expression Level.conditional t)) ∧
    (s.current.kind.Stops Level.logicalOr → s'.current.kind.Stops Level.conditional) := by
  simp only [branches, bind_eq_ok] at h
  obtain ⟨found, m, haccept, h⟩ := h
  obtain ⟨o, rfl, hkind, ho⟩ | ⟨rfl, rfl, hkind⟩ := accept_eq_ok (by simp) haccept
  · simp only [bind_eq_ok] at h
    obtain ⟨b, m₂, hb, p, m₃, hp, c, m₄, hc, h⟩ := h
    obtain ⟨halt, hp⟩ := expect_one_eq_ok (by decide) hp
    obtain ⟨hmakes, hhalts⟩ := hn (.expression none)
    obtain ⟨v, hv, hdb⟩ := hmakes _ _ _ hb
    obtain ⟨w, hw, hdc⟩ := hmakes _ _ _ hc
    rw [finish_of_reads hw hdc.ne_nil_of_expression] at h
    cases h
    rw [hp.1] at hdb
    refine ⟨⟨o :: (v ++ p :: w), .cons ho (hv.append (.cons hp hw)), fun u hu => ?_⟩,
      fun _ => hhalts _ _ _ hc⟩
    rw [ho.1] at hu
    exact .conditional hu (by simpa using hkind) (by rwa [hr]) halt (by rwa [hr])
  · obtain ⟨rfl, rfl⟩ := pure_eq_ok.1 h
    refine ⟨⟨[], State.reads_nil.2 rfl, fun v hv => ?_⟩, fun hstop level hlevel => ?_⟩
    · rw [List.append_nil]
      exact .looser hv (by decide)
    · have hlt := hstop level hlevel
      obtain ⟨-, rfl⟩ | ⟨hcond, rfl⟩ | ⟨node, hb⟩ := TokenKind.extension?_cases hlevel
      · exact absurd hlt (by decide)
      · exact absurd hcond (by simpa using hkind)
      · exact absurd (TokenKind.logicalOr_le_of_binary? hb) (Int.not_le.2 hlt)

/-- An expression, which stops in front of whatever would go on with it. -/
theorem expression_sound (hn : Sound n) :
    Makes (.plain (n + 1)) (.expression Level.conditional) (expression (run n) none) ∧
      Halts Level.conditional (expression (run n) none) := by
  obtain ⟨hmakes, hhalts⟩ := hn (.binary Level.logicalOr none) (Int.le_refl _) (by decide)
  have hexpression {s t s'} (h : expression (run n) none s = .ok t s') :
      (∃ w, s.Reads w s' ∧
        Derives (.plain (n + 1)) w s'.current (.expression Level.conditional t)) ∧
        s'.current.kind.Stops Level.conditional := by
    rw [expression_eq, bind_eq_ok] at h
    obtain ⟨a, m, ha, h⟩ := h
    obtain ⟨u, hu, hda⟩ := hmakes _ _ _ ha
    obtain ⟨⟨w, hw, hd⟩, hstop⟩ := branches_sound hn (r := .plain (n + 1)) rfl h
    exact ⟨⟨u ++ w, hu.append hw, hd u hda⟩, hstop (hhalts _ _ _ ha)⟩
  exact ⟨fun _ _ _ h => (hexpression h).1, fun _ _ _ h => (hexpression h).2⟩

/-- An expression that goes on from its first operand. -/
theorem expression_continues (hn : Sound n) (hr : r.expression = n + 1) (a : Node) :
    Continues r a Level.unary Level.conditional (expression (run n) (some a)) := by
  intro s t s' h
  rw [expression_eq, bind_eq_ok] at h
  obtain ⟨b, m, hb, h⟩ := h
  obtain ⟨v, hv, hcondition⟩ :=
    hn (.binary Level.logicalOr (some a)) (Int.le_refl _) (by decide) r hr _ _ _ hb
  obtain ⟨⟨w, hw, hd⟩, -⟩ := branches_sound hn hr h
  refine ⟨v ++ w, hv.append hw, fun u hu => ?_⟩
  rw [← List.append_assoc]
  exact hd _ (hcondition u hu)

/-! ### Statements -/

/-- Statements up to a token that ends them. -/
theorem statements_sound {stop : List TokenKind} {statement : Parse Node}
    (hstatement : Makes r .statement statement) {ts : List Node}
    (h : collect (do
      if ← check stop then return none else some <$> statement) s = .ok ts s') :
    (∃ w, s.Reads w s' ∧ Derives r w s'.current (.statements ts)) ∧ s'.current.kind ∈ stop := by
  have hstep {s t m} (h : (do
      if ← check stop then return none else some <$> statement : Parse (Option Node)) s =
        .ok (some t) m) : ∃ w, s.Reads w m ∧ Derives r w m.current (.statement t) := by
    simp only [bind_eq_ok, check_eq_ok] at h
    obtain ⟨b, m', ⟨-, rfl⟩, h⟩ := h
    cases b with
    | true => cases h
    | false =>
        obtain ⟨t, ht, hsome⟩ := map_eq_ok.1 h
        cases hsome
        exact hstatement _ _ _ ht
  refine collect_induct
    (Q := fun s ts s' => (∃ w, s.Reads w s' ∧ Derives r w s'.current (.statements ts)) ∧
      s'.current.kind ∈ stop) ?_ ?_ ?_ h
  · intro s t m h
    obtain ⟨w, hw, hd⟩ := hstep h
    exact hw.pending_lt hd.ne_nil_of_statement
  · intro s s' h
    simp only [bind_eq_ok, check_eq_ok] at h
    obtain ⟨b, m, ⟨hcheck, rfl⟩, h⟩ := h
    cases b with
    | true =>
        cases h
        exact ⟨⟨[], rfl, .noStatement⟩, by simpa using hcheck⟩
    | false =>
        obtain ⟨t, -, hsome⟩ := map_eq_ok.1 h
        cases hsome
  · intro s t m ts s' h ih
    obtain ⟨v, hv, hd⟩ := hstep h
    obtain ⟨⟨w, hw, hds⟩, hend⟩ := ih
    rw [hw.current_eq] at hd
    exact ⟨⟨v ++ w, hv.append hw, .moreStatements hd hds⟩, hend⟩

/-- Statements in braces. -/
theorem block_sound (hn : Sound n) : Makes (.plain (n + 1)) .statement (block (run n)) := by
  intro s t s' h
  simp only [block, bind_eq_ok] at h
  obtain ⟨o, m₁, ho, ts, m₂, hts, c, m₃, hc, h⟩ := h
  obtain ⟨hopen, ho⟩ := expect_one_eq_ok (by decide) ho
  obtain ⟨hclose, hc⟩ := expect_one_eq_ok (by decide) hc
  obtain ⟨⟨w, hw, hd⟩, -⟩ := statements_sound (hn .statement) hts
  rw [hc.1] at hd
  rw [finish_of_steps hc] at h
  cases h
  exact ⟨o :: (w ++ [c]), .cons ho (hw.append hc.reads), 
    .block (Nat.succ_pos n) hopen hd hclose⟩

/-- A statement of each kind. -/
theorem statement_sound (hn : Sound n) : Makes (.plain n) .statement (statement (run n)) := by
  obtain ⟨hmakes, hhalts⟩ := hn (.expression none)
  intro s t s' h
  simp only [statement, bind_eq_ok, check_eq_ok] at h
  obtain ⟨b, m, ⟨-, rfl⟩, h⟩ := h
  cases b with
  | true => exact hn .block s t s' h
  | false =>
      simp only [Bool.false_eq_true, if_false, bind_eq_ok] at h
      obtain ⟨e, m, he, found, m₁, haccept, h⟩ := h
      obtain ⟨w, hw, hd⟩ := hmakes _ _ _ he
      obtain ⟨o, rfl, hkind, ho⟩ | ⟨rfl, rfl, hkind⟩ := accept_eq_ok (by simp) haccept
      · simp only [bind_eq_ok] at h
        obtain ⟨name, m₂, hname, word, m₃, hword, h⟩ := h
        obtain ⟨hidentifier, hname⟩ := expect_one_eq_ok (by decide) hname
        rw [finish_of_steps hname] at hword
        cases hword
        rw [finish_of_steps hname] at h
        cases h
        rw [ho.1] at hd
        exact ⟨w ++ [o, name], hw.append (.cons ho hname.reads),
          .dataflow hd (by simpa using hkind) hidentifier⟩
      · cases h
        exact ⟨w, hw, .bare hd ⟨by simpa using hkind,
          TokenKind.extension?_of_stops (hhalts _ _ _ he)⟩⟩

/-! ### All routines -/

/-- Every routine is sound with any number of frames. Without a frame it does not succeed. -/
theorem sound (n : Nat) : Sound n := by
  induction n with
  | zero =>
      intro routine
      have hoverflow {s s' : State} {t : Node} : run 0 routine s ≠ .ok t s' := nofun
      rcases routine with _ | _ | (_ | a) | ⟨least, _ | a⟩ | _ | _ | (_ | a) | _ | _ | _ | _ | _ | _
      all_goals simp only [Routine.IsSound, Makes, Halts, Continues]
      all_goals simp only [hoverflow, false_implies, implies_true, and_self]
  | succ n hn =>
      rintro (_ | _ | (_ | a) | ⟨least, _ | a⟩ | _ | _ | (_ | a) | object | ⟨object, start⟩ | _ |
        _ | _ | _)
      case statement => exact statement_sound hn
      case block => exact block_sound hn
      case expression.none => exact expression_sound hn
      case expression.some => exact fun r hr => expression_continues hn hr a
      case binary.none => exact fun hleast htop => binary_sound hn hleast htop
      case binary.some =>
        exact fun hleast htop r hr s t s' h => (operations_sound hn hr hleast htop h).1
      case unary => exact unary_sound hn
      case operand => exact operand_sound hn
      case suffixed.none => exact suffixed_sound hn
      case suffixed.some => exact fun r hr s t s' h => (suffixes_sound hn hr h).1
      case subscript => exact fun r hr s t s' h => subscript_sound hn hr h
      case slice => exact fun s t s' h => slice_sound hn h
      case sliceBound => exact sliceBound_sound hn
      case primary => exact fun r hr => primary_sound hn hr
      case array => exact fun r hr => array_sound hn hr
      case map => exact fun r hr => map_sound hn hr

/-- A program that was parsed is in the grammar, needs no more room than there is, and goes up to
the end of input. -/
theorem program_sound {n : Nat} {s s' : State} {p : Node} (h : program n s = .ok p s') :
    ∃ w, s.Reads w s' ∧ ProgramOf n w s'.current p ∧ s'.current.kind = .endOfInput := by
  rw [program_eq, reportingOverflow_eq_ok] at h
  simp only [programWith, bind_eq_ok, current_eq_ok] at h
  obtain ⟨ts, m, hts, last, m', ⟨rfl, rfl⟩, h⟩ := h
  obtain ⟨rfl, rfl⟩ := pure_eq_ok.1 h
  obtain ⟨⟨w, hw, hd⟩, hend⟩ := statements_sound (sound n .statement) hts
  exact ⟨w, hw, ⟨ts, hd, rfl⟩, by simpa using hend⟩

end Parser

end Sigil
