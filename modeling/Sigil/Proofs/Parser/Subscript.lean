import Sigil.Proofs.Grammar.Complete
import Sigil.Proofs.Grammar.Exact
import Sigil.Proofs.Grammar.Sound
import Sigil.Proofs.Parser.Layout
import Sigil.Proofs.Parser.Unlimited

/-!
# Slices and indices

Behind an opening bracket an index and a slice may start with the same tokens. The rule for
subscripts does not try one after the other. It reads a primary, which may be the first bound of a
slice, and if no colon follows, it goes on from that primary with an ordinary expression.

That is a way to look ahead. A subscript is a slice exactly when a colon follows the bracket, or one
complete primary and then a colon, and is then decided by the grammar of bounds. In every other case
the rule does what the plain rule for an index does, in all that can be observed of it: the colon of
a conditional inside the index is not taken for one of a slice, and a failure inside the primary is
the failure of the index.

A double colon behind the first bound stands for two colons, not only where a slice succeeds.

The plain rule calls more routines in front of the primary than the rule for subscripts does, so the
two need different numbers of frames. All of this is what a subscript does on every stack on which
it does not overflow.

## Main definitions

* `Parser.index`: the plain rule for an index.
* `Parser.OpensSlice`: the tokens ahead start a slice.
* `Parser.outcome`: what a run comes to apart from all places.

## Main results

* `Parser.subscript_of_opensSlice`, `Parser.subscript_of_not_opensSlice`: what a subscript is.
* `Parser.subscript_eq_ok`: the tokens and the tree of a slice.
* `Parser.SplitsColons.outcome_eq`: a double colon does what two colons do.
* `Parser.subscript_exact`: all of this in one statement.
-/

namespace Sigil.Parser

open Parse

/-- The plain rule for an index of `object`: an expression between brackets. -/
def index (call : Routine → Parse Node) (object : Node) : Parse Node := do
  let _ ← expect [.symbol .lbracket]
  let index ← call (.expression none)
  let _ ← expect [.symbol .rbracket]
  finish .index object.mark.start .none [object, index]

/-- The tokens from the opening bracket up to `m` are the bracket and a bound, which is left out or
one complete primary, and a colon or a double colon is next. -/
def OpensSlice (s : State) (start : Node) (m : State) : Prop :=
  ∃ r o v, s.Reads (o :: v) m ∧ o.kind = .symbol .lbracket ∧
    m.current.kind ∈ [.symbol .colon, .symbol .alt] ∧ Derives r v m.current (.bound start)

variable {s m s' : State} {object start t : Node}

/-! ### What a subscript is -/

theorem unlimited_subscript (object : Node) :
    unlimited (.subscript object) = subscript unlimited object :=
  unlimited_eq_body _

/-- Where the tokens start a slice, a subscript goes on as a slice behind its first bound. -/
theorem subscript_of_opensSlice (h : OpensSlice s start m) :
    unlimited (.subscript object) s = unlimited (.slice object start) m := by
  obtain ⟨r, o, v, ⟨m₀, hopen, hv⟩, ho, hcolon, hd⟩ := h
  rw [unlimited_subscript]
  cases hd with
  | leftOut =>
      obtain rfl := State.reads_nil.1 hv
      rw [subscript_of_colon hopen ho hcolon]
      rfl
  | bound hd =>
      obtain ⟨u, w, rfl, -, hstart⟩ := hd.opensWith
      have hfirst := unlimited_of_run ((hd.parsed m₀ m hv rfl).primary (Int.le_refl _))
      have hprimary : m₀.current.kind ∈ primaryStarts := by
        rw [hv.current_eq]
        exact hstart (by decide)
      rw [subscript_of_primary hopen ho hprimary, bind_of_ok hfirst, behindPrimary_of_colon hcolon]

theorem index_of_steps {o : Token} (h : s.Steps o m) (ho : o.kind = .symbol .lbracket) :
    index unlimited object s = (unlimited (.expression none) >>= subscript.close object) m := by
  rw [index, bind_of_ok (expect_of_steps h (by simp [ho]))]
  rfl

/-- An expression that starts with a primary may be read in three parts: the primary, the suffixes
behind it, and what the operand that they make is the first one of. -/
theorem expression_of_primaryStart (h : s.current.kind ∈ primaryStarts) :
    unlimited (.expression none) s =
      (unlimited .primary >>= fun first => unlimited (.suffixed (some first)) >>= fun operand =>
        unlimited (.expression (some operand))) s := by
  have hsuffixed : unlimited (.suffixed none) =
      unlimited .primary >>= fun first => unlimited (.suffixed (some first)) := by
    rw [unlimited_eq_body (.suffixed none)]
    exact congrArg (_ >>= ·) (funext fun first => (unlimited_eq_body (.suffixed (some first))).symm)
  have hunary : unlimited .unary s = unlimited (.suffixed none) s := by
    rw [unlimited_eq_body .unary, Routine.body, unary_of_primaryStart h,
      unlimited_eq_body .operand, Routine.body, operand_of_primaryStart h]
  have hbinary : unlimited (.binary Level.logicalOr none) =
      unlimited .unary >>= fun operand => unlimited (.binary Level.logicalOr (some operand)) := by
    rw [unlimited_eq_body (.binary _ none)]
    exact congrArg (_ >>= ·) (funext fun operand =>
      (unlimited_eq_body (.binary Level.logicalOr (some operand))).symm)
  have hexpression (left : Option Node) : unlimited (.expression left) =
      unlimited (.binary Level.logicalOr left) >>= branches unlimited :=
    unlimited_eq_body _
  rw [hexpression none, hbinary, bind_assoc, bind_congr_left hunary, hsuffixed, bind_assoc]
  simp only [hexpression]

/-- Where the tokens do not start a slice, a subscript is what the plain rule makes of it. -/
theorem subscript_of_not_opensSlice (hs : s.current.kind = .symbol .lbracket)
    (h : ¬ ∃ start m, OpensSlice s start m) :
    unlimited (.subscript object) s = index unlimited object s := by
  rw [unlimited_subscript]
  cases hadvance : advance s with
  | error e m =>
      have hexpect : expect [.symbol .lbracket] s = .error e m := by
        rw [expect_of_contains (by simp [hs]), hadvance]
      rw [subscript, index, bind_of_error hexpect, bind_of_error hexpect]
  | ok o m =>
      have ho := (advance_eq_ok (by simp [hs])).1 hadvance
      have hopen : o.kind = .symbol .lbracket := ho.1 ▸ hs
      have hcolon : m.current.kind ∉ [.symbol .colon, .symbol .alt] :=
        fun hcolon => h ⟨_, m, .plain 0, o, [], ho.reads, hopen, hcolon, .leftOut⟩
      rw [index_of_steps ho hopen]
      by_cases hprimary : m.current.kind ∈ primaryStarts
      · rw [subscript_of_primary ho hopen hprimary,
          bind_congr_left (expression_of_primaryStart hprimary), bind_assoc]
        cases hfirst : unlimited .primary m with
        | error e m' => rw [bind_of_error hfirst, bind_of_error hfirst]
        | ok first m' =>
            obtain ⟨n, -, hrun⟩ := exists_run_of_unlimited hfirst 0
            obtain ⟨v, hv, hd⟩ := sound n .primary (.resumed n) rfl _ _ _ hrun
            rw [bind_of_ok hfirst, bind_of_ok hfirst, bind_assoc]
            exact behindPrimary_of_other fun hcolon =>
              h ⟨first, m', _, o, v, .cons ho hv, hopen, hcolon, .bound hd⟩
      · exact subscript_of_other ho hopen hcolon hprimary

/-! ### Successful slices -/

/-- A slice succeeds on the tokens of three bounds between brackets, and gives their tree. -/
theorem subscript_eq_ok (h : OpensSlice s start m) :
    unlimited (.subscript object) s = .ok t s' ↔
      ∃ r o w c a b d, s.Reads (o :: (w ++ [c])) s' ∧ o.kind = .symbol .lbracket ∧
        c.kind = .symbol .rbracket ∧ Derives r w c (.bounds a b d) ∧
        t = ⟨.slice, .none, [object, a, b, d], ⟨object.mark.start, c.stop⟩⟩ := by
  constructor
  · intro hslice
    rw [subscript_of_opensSlice h] at hslice
    obtain ⟨r, o, v, hreads, ho, -, hd⟩ := h
    obtain ⟨k, hk⟩ := r.exists_le_plain
    obtain ⟨n, hn, hrun⟩ := exists_run_of_unlimited hslice k
    obtain ⟨-, w, c, b, d, hw, hclose, rfl, hbounds⟩ := sound n (.slice object start) _ _ _ hrun
    have hstart := (hd.mono hk).mono (Room.plain_le_resumed hn)
    have hall := hreads.append hw
    exact ⟨_, o, v ++ w, c, start, b, d, by simpa using hall, ho, hclose, hbounds v hstart, rfl⟩
  · rintro ⟨r, o, w, c, a, b, d, ⟨m₀, hopen, hreads⟩, ho, hclose, hd, rfl⟩
    obtain ⟨k, hk⟩ := r.exists_le_plain
    have hroom := (hd.mono hk).mono (Room.plain_le_resumed (Nat.le_add_right k 2))
    refine unlimited_of_run (n := k + 2 + 1) ?_
    exact hroom.parsed (k + 2) rfl (by omega) object o s m₀ s' hopen ho hreads hclose

/-- A subscript that succeeds is a slice exactly where the tokens start one. -/
theorem kind_of_subscript (hs : s.current.kind = .symbol .lbracket)
    (h : unlimited (.subscript object) s = .ok t s') :
    t.kind = .slice ↔ ∃ start m, OpensSlice s start m := by
  constructor
  · intro hkind
    by_contra hindex
    rw [subscript_of_not_opensSlice hs hindex] at h
    simp only [index, bind_eq_ok] at h
    obtain ⟨_, _, -, _, _, -, _, _, -, h⟩ := h
    cases h
    cases hkind
  · rintro ⟨start, m, hopens⟩
    obtain ⟨r, o, w, c, a, b, d, -, -, -, -, rfl⟩ := (subscript_eq_ok hopens).1 h
    rfl

/-! ### Double colons -/

/-- What a run comes to apart from all places: the shape of the tree, the fault that the text could
not be cut for, or what was expected and the kind and text of what was found. Of an overflow nothing
more is said. -/
def outcome : EStateM.Result ParseFailure State Node →
    Except (Option (LexFault ⊕ ParseFault × TokenKind × String)) Shape
  | .ok t _ => .ok t.shape
  | .error (.lexical e) _ => .error (some (.inl e.fault))
  | .error (.grammatical e) _ => .error (some (.inr (e.fault, e.found.kind, e.found.text)))
  | .error .overflow _ => .error none

theorem outcome_eq_of_endAlike {x y : EStateM.Result ParseFailure State Node}
    (h : EndAlike .full (Tree.Alike .full) x y) : outcome x = outcome y := by
  cases h with
  | ok ht _ =>
      rw [Tree.Alike, Tree.viewed_full, Tree.viewed_full] at ht
      simp only [outcome, ht]
  | error he _ =>
      cases he with
      | lexical hfault => simp only [outcome, hfault]
      | @grammatical e e' hfault hfound =>
          have htext : e.found.text = e'.found.text := hfound.text
          simp only [outcome, hfault, hfound.kind, htext]
      | overflow => rfl

/-- Without a limit the routines treat alike what looks alike: equally many tokens are left. -/
theorem unlimited_alike (v : View) : CallsAlike v unlimited := by
  intro routine routine' hcall s s' hs
  have hframes : s.frames = s'.frames := by rw [s.frames_eq, s'.frames_eq, hs.pending_eq]
  rw [unlimited_eq_run, unlimited_eq_run, ← hframes]
  exact run_alike v s.frames hcall s s' hs

/-- The state `u` is `s`, but for places, with two colons in the place of the double colon that
stands behind the tokens `v`. -/
def SplitsColons (v : List Token) (s u : State) : Prop :=
  ∃ a b c ts failure, s.supply = ⟨v ++ a :: ts, failure⟩ ∧ a.kind = .symbol .alt ∧
    b.kind = .symbol .colon ∧ c.kind = .symbol .colon ∧
    State.Alike .full ⟨s.previous, s.current, ⟨v ++ b :: c :: ts, failure⟩⟩ u

/-- What a slice does at the last colon in front of its step, if its second bound is left out. -/
def sliceStep (call : Routine → Parse Node) (object start : Node) : Parse Node := do
  let stop ← absent
  let _ ← advance
  let step ← call .sliceBound
  slice.close object start stop step

theorem slice_of_doubleColon {call : Routine → Parse Node} (h : s.current.kind = .symbol .alt) :
    slice call object start s = sliceStep call object start s := by
  have hcheck : check [.symbol .alt] s = .ok true s := by simp [check, h]
  rw [slice, bind_of_ok hcheck]
  rfl

theorem slice_of_colons {o : Token} (h : s.Steps o m) (ho : o.kind = .symbol .colon)
    (hcolon : m.current.kind = .symbol .colon) :
    slice unlimited object start s = sliceStep unlimited object start m := by
  have hstop : unlimited .sliceBound m = absent m := by
    have hcheck : check primaryStarts m = .ok false m := by
      rw [check, hcolon]
      rfl
    rw [unlimited_eq_body, Routine.body, sliceBound, bind_of_ok hcheck]
    rfl
  have haccept : accept [.symbol .colon] m = (some <$> advance) m :=
    accept_of_contains (by simp [hcolon])
  rw [slice_of_colon h ho hstop]
  simp only [sliceStep, absent, bind, EStateM.bind, haccept, Functor.map, EStateM.map]
  cases advance m <;> rfl

/-- Behind a double colon and behind the second of two colons a slice goes on alike. -/
theorem sliceStep_outcome_eq {start' : Node} {m' : State} (hstart : start.Alike .full start')
    (hm : m.current.kind ≠ .endOfInput) (hm' : m'.current.kind ≠ .endOfInput)
    (hsupply : m.supply.Alike .full m'.supply) :
    outcome (sliceStep unlimited object start m) =
      outcome (sliceStep unlimited object start' m') := by
  have hobject : object.Alike .full object := rfl
  have hstop : Tree.Alike .full
      (⟨.absent, .none, [], ⟨m.current.position, m.current.position.offset⟩⟩ : Node)
      ⟨.absent, .none, [], ⟨m'.current.position, m'.current.position.offset⟩⟩ := .mk .none .nil
  have hrest := Parse.Alike.bind (unlimited_alike .full .sliceBound)
    fun _ _ hstep => slice_close_alike hobject hstart hstop hstep
  simp only [sliceStep, bind, EStateM.bind, absent, advance, hm, hm', if_false] at hrest ⊢
  obtain ⟨t, u, a, b, ha, hb, ht, hab⟩ | ⟨e, e', a, b, ha, hb, he, -⟩ :=
    hsupply.next (some m.current) (some m'.current)
  · simp only [ha, hb]
    exact outcome_eq_of_endAlike (hrest _ _ ⟨ht, hab⟩)
  · simp only [ha, hb, outcome, he]

/-- A double colon behind the first bound does what two colons do, in a success and in a failure. -/
theorem SplitsColons.outcome_eq {r : Room} {v : List Token} {u : State} {next : Token}
    (hs : s.current.kind = .symbol .lbracket) (hv : Derives r v next (.bound start))
    (h : SplitsColons v s u) :
    outcome (unlimited (.subscript object) s) = outcome (unlimited (.subscript object) u) := by
  obtain ⟨a, b, c, ts, failure, hsupply, ha, hb, hc, hu⟩ := h
  -- the first bound is the same in front of both, but for the place of a bound that is left out
  obtain ⟨start, start', hstart, hstart', hsame⟩ : ∃ start start', Derives r v a (.bound start) ∧
      Derives r v b (.bound start') ∧ start.Alike .full start' := by
    cases hv with
    | leftOut => exact ⟨_, _, .leftOut, .leftOut, .mk .none .nil⟩
    | bound hd =>
        have hany := hd.standsAnywhere
        exact ⟨_, _, .bound (hany a), .bound (hany b), rfl⟩
  have hreads : ∀ e us, ∃ previous, State.Reads ⟨s.previous, s.current, ⟨v ++ e :: us, failure⟩⟩
      (s.current :: v) ⟨previous, e, ⟨us, failure⟩⟩ := by
    intro e us
    have hts : ∀ t ∈ s.current :: v, t.kind ≠ .endOfInput :=
      List.forall_mem_cons.2 ⟨by simp [hs], hv.kind_ne⟩
    obtain ⟨t, us', previous, heq, hreads⟩ :=
      State.reads_of_tokens (e := e) hts s.previous us failure
    cases heq
    exact ⟨previous, hreads⟩
  obtain ⟨previous, hdouble⟩ := hreads a ts
  obtain ⟨previous', htwo⟩ := hreads b (c :: ts)
  rw [← hsupply] at hdouble
  have hopens : OpensSlice s start ⟨previous, a, ⟨ts, failure⟩⟩ :=
    ⟨r, _, v, hdouble, hs, by simp [ha], hstart⟩
  have hopens' : OpensSlice ⟨s.previous, s.current, ⟨v ++ b :: c :: ts, failure⟩⟩ start'
      ⟨previous', b, ⟨c :: ts, failure⟩⟩ := ⟨r, _, v, htwo, hs, by simp [hb], hstart'⟩
  have hfirst : State.Steps ⟨previous', b, ⟨c :: ts, failure⟩⟩ b ⟨some b, c, ⟨ts, failure⟩⟩ :=
    ⟨rfl, by simp [hb], by simp [advance, hb, TokenStream.next]⟩
  have hplaces := outcome_eq_of_endAlike <|
    unlimited_alike .full (.subscript (rfl : object.Alike .full object)) _ _ hu
  have hslice (start : Node) : unlimited (.slice object start) = slice unlimited object start :=
    unlimited_eq_body _
  calc outcome (unlimited (.subscript object) s)
      = outcome (sliceStep unlimited object start ⟨previous, a, ⟨ts, failure⟩⟩) := by
        rw [subscript_of_opensSlice hopens, hslice, slice_of_doubleColon ha]
    _ = outcome (sliceStep unlimited object start' ⟨some b, c, ⟨ts, failure⟩⟩) :=
        sliceStep_outcome_eq hsame (by simp [ha]) (by simp [hc])
          ⟨List.forall₂_same.2 fun _ _ => ⟨rfl, rfl⟩, rfl⟩
    _ = outcome (unlimited (.subscript object) u) := by
        rw [← hplaces, subscript_of_opensSlice hopens', hslice, slice_of_colons hfirst hb hc]

/-- What a subscript does, with any room on the stack on which it does not overflow. It goes on as a
slice exactly where a colon or a double colon follows the bracket, or one complete primary and then
a colon or a double colon. There it succeeds on the tokens of three bounds between brackets, and
gives their tree. In every other case it does what the plain rule for an index does, with the same
trees, failures and states. A double colon behind the first bound has the outcome of two colons in
its place. -/
theorem subscript_exact (object : Node) (s : State) (hs : s.current.kind = .symbol .lbracket) :
    (∀ room, run room (.subscript object) s = unlimited (.subscript object) s ∨
      room ≤ 8 * s.pending ∧ (run room (.subscript object)).Overflows s) ∧
    (∀ start m, OpensSlice s start m →
      unlimited (.subscript object) s = unlimited (.slice object start) m ∧
      ∀ t s', unlimited (.subscript object) s = .ok t s' ↔
        ∃ r o w c a b d, s.Reads (o :: (w ++ [c])) s' ∧ o.kind = .symbol .lbracket ∧
          c.kind = .symbol .rbracket ∧ Derives r w c (.bounds a b d) ∧
          t = ⟨.slice, .none, [object, a, b, d], ⟨object.mark.start, c.stop⟩⟩) ∧
    ((¬ ∃ start m, OpensSlice s start m) →
      unlimited (.subscript object) s = index unlimited object s) ∧
    (∀ t s', unlimited (.subscript object) s = .ok t s' →
      (t.kind = .slice ↔ ∃ start m, OpensSlice s start m)) ∧
    ∀ r v next start u, Derives r v next (.bound start) → SplitsColons v s u →
      outcome (unlimited (.subscript object) s) = outcome (unlimited (.subscript object) u) :=
  ⟨fun room => Routine.computes_iff.2 rfl room s,
    fun _ _ h => ⟨subscript_of_opensSlice h, fun _ _ => subscript_eq_ok h⟩,
    subscript_of_not_opensSlice hs, fun _ _ => kind_of_subscript hs,
    fun _ _ _ _ _ hv h => h.outcome_eq hs hv⟩

/-- The slices `x[a::]` and `x[a: :]`, and the index `x[]`, which fails. -/
theorem subscript_exact_open :
    let x : Node := ⟨.identifier, .text "x", [], ⟨⟨0, 1, 1⟩, 1⟩⟩
    let opening (ts : List Token) : State := ⟨none, ⟨.symbol .lbracket, "[", ⟨1, 1, 2⟩⟩, ⟨ts, none⟩⟩
    let a : Token := ⟨.identifier, "a", ⟨2, 1, 3⟩⟩
    let double : State :=
      opening [a, ⟨.symbol .alt, "::", ⟨3, 1, 4⟩⟩, ⟨.symbol .rbracket, "]", ⟨5, 1, 6⟩⟩]
    let two : State := opening [a, ⟨.symbol .colon, ":", ⟨3, 1, 4⟩⟩,
      ⟨.symbol .colon, ":", ⟨5, 1, 6⟩⟩, ⟨.symbol .rbracket, "]", ⟨6, 1, 7⟩⟩]
    let empty : State := opening [⟨.symbol .rbracket, "]", ⟨2, 1, 3⟩⟩]
    (∃ t s', run 900 (.subscript x) double = .ok t s' ∧ t.kind = .slice) ∧
      outcome (run 900 (.subscript x) double) = outcome (run 900 (.subscript x) two) ∧
      run 900 (.subscript x) empty = index unlimited x empty := by
  intro x opening a double two empty
  obtain ⟨first, ha⟩ : ∃ first,
      Derives (.resumed 9) [a] ⟨.symbol .alt, "::", ⟨3, 1, 4⟩⟩ (.bound first) :=
    ⟨_, .bound (.literal (by decide) rfl)⟩
  obtain ⟨hdouble, hslice, -, hkind, hcolons⟩ := subscript_exact x double rfl
  obtain ⟨htwo, -⟩ := subscript_exact x two rfl
  obtain ⟨hempty, -, hindex, -⟩ := subscript_exact x empty rfl
  rw [(hdouble 900).resolve_right fun h => absurd h.1 (by decide),
    (htwo 900).resolve_right fun h => absurd h.1 (by decide),
    (hempty 900).resolve_right fun h => absurd h.1 (by decide)]
  refine ⟨?_, ?_, hindex ?_⟩
  · have hopens : OpensSlice double first _ :=
      ⟨_, _, [a], ⟨_, ⟨rfl, by decide, rfl⟩, _, ⟨rfl, by decide, rfl⟩, rfl⟩, rfl, by decide, ha⟩
    have hok := ((hslice _ _ hopens).2 _ _).2 ⟨_, _, [a, _], _, _, _, _,
      ⟨_, ⟨rfl, by decide, rfl⟩, _, ⟨rfl, by decide, rfl⟩, _, ⟨rfl, by decide, rfl⟩, _,
        ⟨rfl, by decide, rfl⟩, rfl⟩, rfl, rfl, .outerBounds ha rfl .leftOut, rfl⟩
    exact ⟨_, _, hok, (hkind _ _ hok).2 ⟨_, _, hopens⟩⟩
  · exact hcolons _ [a] _ _ two ha ⟨_, ⟨.symbol .colon, ":", ⟨3, 1, 4⟩⟩,
      ⟨.symbol .colon, ":", ⟨5, 1, 6⟩⟩, _, none, rfl, rfl, rfl, rfl, ⟨rfl, rfl⟩,
      .cons ⟨rfl, rfl⟩ (.cons ⟨rfl, rfl⟩ (.cons ⟨rfl, rfl⟩ (.cons ⟨rfl, rfl⟩ .nil))), rfl⟩
  · rintro ⟨start, m, r, o, v, hreads, -, hcolon, hd⟩
    cases hd with
    | leftOut =>
        obtain ⟨m', ⟨-, -, hadvance⟩, rfl⟩ := hreads
        cases hadvance
        exact absurd hcolon (by decide)
    | bound hd =>
        obtain ⟨t, w, rfl, -, hstart⟩ := hd.opensWith
        obtain ⟨m', ⟨-, -, hadvance⟩, m'', ⟨rfl, -, -⟩, -⟩ := hreads
        cases hadvance
        exact absurd (hstart (by decide)) (by decide)

end Sigil.Parser
