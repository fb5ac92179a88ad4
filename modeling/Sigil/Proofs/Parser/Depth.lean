import Sigil.Proofs.Parser.Limit
import Sigil.Proofs.Parser.Run

/-!
# Room for all tokens

A routine calls the others in an order from the loose to the tight, up to a token that it or one of
them consumes, and starts again from a loose one only behind that token. There are eight places in
this order, so with eight frames for each token that is left, and those for the way to the next one,
no routine overflows: the depth of the recursion is bounded by what there is to consume, and more
room changes nothing.

## Main definitions

* `Routine.rank`: the place of a routine in the order.
* `Parse.Endures`: a rule does not overflow as long as there are few tokens left.

## Main results

* `Parse.Endures.expect_bind`, `Parse.EnduresAt.advance_bind`: behind a token, eight frames less
  will do.
* `Parser.run_endures`: with enough frames for the tokens that are left no routine overflows.
-/

namespace Sigil

/-- The number of routines that a routine may call one inside the other in front of a token: those
for tighter phrases. A bracket is a token, and so is what leads to it. -/
def Routine.rank : Routine → Nat
  | statement => 7
  | expression _ => 6
  | binary _ _ => 5
  | unary => 4
  | operand => 3
  | suffixed _ | sliceBound => 2
  | primary => 1
  | block | array | map | subscript _ | slice _ _ => 0

/-- Eight frames are enough for all routines that call each other in front of one token. -/
theorem Routine.rank_lt (routine : Routine) : routine.rank < 8 := by
  cases routine <;> simp [rank]

/-- The failure is that the stack ran out, reported as a fault or not. -/
def ParseFailure.IsOverflow : ParseFailure → Prop
  | lexical _ => False
  | grammatical e => e.fault = .nestedTooDeeply
  | overflow => True

namespace Parse

open Sigil.Parser

variable {α β : Type} {p : Parse α} {f : α → Parse β} {s m : State} {j k : Nat}
  {kinds : List TokenKind}

/-- From `s` the rule neither overflows nor reports an overflow, and it leaves no more tokens than
there are. -/
def EnduresAt (p : Parse α) (s : State) : Prop :=
  (∀ e m, p s = .error e m → ¬e.IsOverflow) ∧ ∀ a m, p s = .ok a m → m.pending ≤ s.pending

/-- The rule does not overflow in front of so few tokens that `k` frames are more than eight for
each. -/
def Endures (k : Nat) (p : Parse α) : Prop :=
  ∀ s, 8 * s.pending < k → p.EnduresAt s

namespace EnduresAt

/-- A rule that succeeds endures if it leaves no token more than there are. -/
theorem of_ok {a : α} (h : p s = .ok a m) (hle : m.pending ≤ s.pending) : p.EnduresAt s := by
  refine ⟨fun e m' h' => ?_, fun b m' h' => ?_⟩
  · rw [h] at h'
    cases h'
  · rw [h] at h'
    cases h'
    exact hle

/-- A rule that fails for another reason endures. -/
theorem of_error {e : ParseFailure} (h : p s = .error e m) (hfault : ¬e.IsOverflow) :
    p.EnduresAt s := by
  refine ⟨fun e' m' h' => ?_, fun b m' h' => ?_⟩
  · rw [h] at h'
    cases h'
    exact hfault
  · rw [h] at h'
    cases h'

/-- A rule that endures does not overflow. -/
theorem not_overflows (hp : p.EnduresAt s) : ¬p.Overflows s :=
  fun ⟨m, h⟩ => hp.1 .overflow m h trivial

/-- A rule endures where a rule does that does the same. -/
theorem congr {p' : Parse α} {s' : State} (hp : p'.EnduresAt s') (h : p s = p' s')
    (hle : s'.pending ≤ s.pending) : p.EnduresAt s := by
  refine ⟨fun e m' h' => hp.1 e m' (h ▸ h'), fun a m' h' => ?_⟩
  exact Nat.le_trans (hp.2 a m' (h ▸ h')) hle

/-- What goes on behind a rule goes on where no more tokens are left. -/
theorem bind (hp : p.EnduresAt s) (hf : ∀ a m, p s = .ok a m → (f a).EnduresAt m) :
    (p >>= f).EnduresAt s := by
  cases h : p s with
  | error e m => exact of_error (bind_of_error h) (hp.1 e m h)
  | ok a m => exact (hf a m h).congr (bind_of_ok h) (hp.2 a m h)

/-- A rule that succeeds without moving endures. -/
theorem still {a : α} (h : p s = .ok a s) : p.EnduresAt s :=
  of_ok h (Nat.le_refl _)

/-- To look at the current token takes no frame. -/
theorem current_bind {f : Token → Parse β} (h : (f s.current).EnduresAt s) :
    (current >>= f).EnduresAt s := by
  refine bind (still rfl) ?_
  rintro _ _ ⟨⟩
  exact h

/-- At an end of input nothing is consumed, and otherwise one token. -/
theorem advance (s : State) : Parse.advance.EnduresAt s := by
  by_cases hkind : s.current.kind = .endOfInput
  · refine of_ok (a := s.current) (m := { s with previous := some s.current }) ?_ (Nat.le_refl _)
    rw [Parse.advance, if_pos hkind]
  · cases h : Parse.advance s with
    | ok t m => exact of_ok h (Nat.le_of_lt (pending_advance h hkind))
    | error e m =>
        refine of_error h ?_
        rw [Parse.advance, if_neg hkind] at h
        split at h <;> cases h
        exact id

/-- Behind a token eight frames less will do. -/
theorem advance_bind {f : Token → Parse β} (hkind : s.current.kind ≠ .endOfInput)
    (hs : 8 * s.pending < k + 8) (hf : ∀ t, (f t).Endures k) :
    (Parse.advance >>= f).EnduresAt s := by
  refine (advance s).bind fun t m h => hf t m ?_
  have hlt := pending_advance h hkind
  omega

end EnduresAt

namespace Endures

/-- With fewer frames it takes fewer tokens to be safe. -/
theorem mono (h : p.Endures k) (hj : j ≤ k) : p.Endures j :=
  fun s hs => h s (Nat.lt_of_lt_of_le hs hj)

/-- A rule that never moves or fails endures with any number of frames. -/
theorem of_still {a : State → α} (h : ∀ s, p s = .ok (a s) s) : p.Endures k :=
  fun s _ => .still (h s)

/-- A result takes no frame. -/
theorem pure (a : α) : (Pure.pure a : Parse α).Endures k :=
  of_still (a := fun _ => a) fun _ => rfl

/-- To build a node takes no frame. -/
theorem finish {kind : NodeKind} {start : Position} {value : Value Node} {children : List Node} :
    (Parse.finish kind start value children).Endures k :=
  of_still fun _ => rfl

/-- To build the node of what is left out takes no frame. -/
theorem absent : Parse.absent.Endures k :=
  of_still fun _ => rfl

/-- To check the kind of the current token takes no frame. -/
theorem check : (Parse.check kinds).Endures k :=
  of_still fun _ => rfl

/-- An error at the current token is not an overflow. -/
theorem fail {expected : List Expectation} :
    (Parse.fail (.unexpected expected) : Parse α).Endures k :=
  fun _ _ => .of_error rfl nofun

/-- Two rules one after the other endure if both do, since the first leaves no token more. -/
theorem bind (hp : p.Endures k) (hf : ∀ a, (f a).Endures k) : (p >>= f).Endures k :=
  fun s hs => (hp s hs).bind fun a m h => hf a m (by
    have hle := (hp s hs).2 a m h
    omega)

/-- What is made of the result makes no difference to the frames. -/
theorem map (hp : p.Endures k) (g : α → β) : (g <$> p).Endures k := by
  rw [map_eq_pure_bind]
  exact hp.bind fun a => pure (g a)

/-- The next token is no overflow, also where it is a lexical error. -/
theorem advance : Parse.advance.Endures k :=
  fun s _ => .advance s

/-- A token that is taken where it stands calls nothing. -/
theorem accept : (Parse.accept kinds).Endures k := by
  refine check.bind fun found => ?_
  cases found with
  | true => exact advance.map some
  | false => exact pure none

/-- A token that is missing is an error, not an overflow. -/
theorem expect : (Parse.expect kinds).Endures k := by
  refine accept.bind fun r => ?_
  cases r with
  | some t => exact pure t
  | none => exact fail

/-- A rule may go on by what the current token is. -/
theorem check_bind {f : Bool → Parse β}
    (hf : ∀ s, 8 * s.pending < k → (f (kinds.contains s.current.kind)).EnduresAt s) :
    (Parse.check kinds >>= f).Endures k := by
  refine fun s hs => .bind (.still rfl) ?_
  rintro _ _ ⟨⟩
  exact hf s hs

/-- Behind a token that is there, eight frames less will do. -/
theorem accept_bind {f : Option Token → Parse β} (hkinds : .endOfInput ∉ kinds)
    (hnone : (f none).Endures (k + 8)) (hsome : ∀ t, (f (some t)).Endures k) :
    (Parse.accept kinds >>= f).Endures (k + 8) := by
  intro s hs
  refine (accept s hs).bind fun r m h => ?_
  rcases accept_eq_ok hkinds h with ⟨t, rfl, -, hstep⟩ | ⟨rfl, rfl, -⟩
  · have hlt := hstep.pending_lt
    exact hsome t m (by omega)
  · exact hnone m hs

/-- Behind a token that has to be there, eight frames less will do. -/
theorem expect_bind {f : Token → Parse β} (hkinds : .endOfInput ∉ kinds)
    (hf : ∀ t, (f t).Endures k) : (Parse.expect kinds >>= f).Endures (k + 8) := by
  intro s hs
  refine (expect s hs).bind fun t m h => hf t m ?_
  have hlt := (expect_eq_ok hkinds h).2.pending_lt
  omega

/-- A collection endures if its step does: each step starts with no more tokens than the first. -/
theorem collect {step : Parse (Option α)} (h : step.Endures k) :
    (Parse.collect step).Endures k := by
  intro s hs
  induction hn : s.pending using Nat.strongRecOn generalizing s with
  | ind n ih =>
      subst hn
      cases hstep : step s with
      | error e m =>
          exact .of_error (by rw [Parse.collect, hstep]) ((h s hs).1 e m hstep)
      | ok r m =>
          have hle := (h s hs).2 r m hstep
          cases r with
          | none => exact .of_ok (collect_of_none hstep) hle
          | some a =>
              by_cases hlt : m.pending < s.pending
              · have hrest := (ih m.pending hlt m (by omega) rfl).bind
                  (f := fun as => Pure.pure (a :: as)) fun as m' _ => .still rfl
                rw [← map_eq_pure_bind] at hrest
                exact hrest.congr (collect_of_some hstep hlt) hle
              · refine .of_ok (a := [a]) (m := m) ?_ hle
                rw [Parse.collect, hstep]
                simp only [hlt, if_false]

/-- A repetition endures if its step does, whatever has been built. -/
theorem iterate {step : α → Parse (Option α)} (h : ∀ a, (step a).Endures k) (a : α) :
    (Parse.iterate step a).Endures k := by
  intro s hs
  induction hn : s.pending using Nat.strongRecOn generalizing s a with
  | ind n ih =>
      subst hn
      cases hstep : step a s with
      | error e m =>
          exact .of_error (by rw [Parse.iterate, hstep]) ((h a s hs).1 e m hstep)
      | ok r m =>
          have hle := (h a s hs).2 r m hstep
          cases r with
          | none => exact .of_ok (iterate_of_none hstep) hle
          | some b =>
              by_cases hlt : m.pending < s.pending
              · have hrest := ih m.pending hlt b m (by omega) rfl
                exact hrest.congr (iterate_of_some hstep hlt) hle
              · refine .of_ok (a := b) (m := m) ?_ hle
                rw [Parse.iterate, hstep]
                simp only [hlt, if_false]

end Endures

end Parse

open Parse

namespace Parser

/-- The routines do not overflow with `n` frames, if these are enough for the tokens that are left
and for the way to the next one. -/
def CallsEndure (n : Nat) (call : Routine → Parse Node) : Prop :=
  ∀ routine, (call routine).Endures (n - routine.rank)

variable {call : Routine → Parse Node} {n k : Nat}

/-- Behind a token it does not matter which routine is called. -/
theorem CallsEndure.endures (h : CallsEndure n call) (routine : Routine) :
    (call routine).Endures (n - 7) :=
  (h routine).mono (by have := routine.rank_lt; omega)

/-! ### Primaries -/

/-- The items between brackets need the frames of one item: they are behind each other. -/
theorem items_endures {item : Parse Node} (close : Symbol) (h : item.Endures k) :
    (items close item).Endures k := by
  refine .bind .check fun closed => ?_
  cases closed with
  | true => exact .pure _
  | false =>
      refine .bind h fun first => .bind (.collect ?_) fun others => .pure _
      refine .bind .accept fun comma => ?_
      cases comma with
      | none => exact .pure _
      | some _ =>
          refine .bind .check fun closed => ?_
          cases closed with
          | true => exact .pure _
          | false => exact h.map some

/-- An entry needs no more frames than its value. -/
theorem mapEntry_endures (h : (call (.expression none)).Endures k) :
    (mapEntry call).Endures k :=
  .bind .expect fun _ => .bind .finish fun _ => .bind .expect fun _ => .bind h fun _ => .finish

/-- Whatever starts with a token that has to be there endures as long as routines do behind it. -/
theorem expect_endures {kinds : List TokenKind} {f : Token → Parse Node}
    (hkinds : .endOfInput ∉ kinds) (hf : ∀ t, (f t).Endures (n - 7)) :
    (expect kinds >>= f).Endures (n + 1) :=
  (Endures.expect_bind hkinds hf).mono (by omega)

/-- The bracket in front of the items pays for them, so an array needs no frame for a call of its
own. -/
theorem array_endures (h : CallsEndure n call) : (array call).Endures (n + 1) :=
  expect_endures (by decide) fun _ => .bind (items_endures _ (h.endures _)) fun _ =>
    .bind .expect fun _ => .finish

/-- The brace in front of the entries pays for them. -/
theorem map_endures (h : CallsEndure n call) : (map call).Endures (n + 1) :=
  expect_endures (by decide) fun _ =>
    .bind (items_endures _ (mapEntry_endures (h.endures _))) fun _ =>
      .bind .expect fun _ => .finish

/-- A primary calls the routines of its brackets, which have rank zero, in front of their token. It
needs one frame more than they do. -/
theorem primary_endures (h : CallsEndure n call) : (primary call).Endures n := by
  refine fun s hs => .current_bind ?_
  cases literal? s.current.kind with
  | some kind => exact Endures.bind .advance (fun _ => .finish) s hs
  | none =>
      dsimp only
      split
      · exact h .array s hs
      · exact h .map s hs
      · next hopen =>
          refine .advance_bind (k := n - 7) (by simp [hopen]) (by omega) fun _ => ?_
          exact .bind (h.endures _) fun _ => .bind .expect fun _ => .pure _
      · exact Endures.fail s hs

/-! ### Suffixes -/

/-- A bound calls for a primary in front of its first token. -/
theorem sliceBound_endures (h : CallsEndure n call) : (sliceBound call).Endures (n - 1) := by
  refine .bind .check fun starts => ?_
  cases starts with
  | true => exact h .primary
  | false => exact .absent

/-- A slice calls for its bounds behind a colon. -/
theorem slice_endures (h : CallsEndure n call) (object start : Node) :
    (slice call object start).Endures (n + 1) := by
  have hclose (stop step : Node) : (slice.close object start stop step).Endures (n - 7) :=
    .bind .expect fun _ => .finish
  refine .check_bind fun s hs => ?_
  split
  · next halt =>
      have hkind : s.current.kind = .symbol .alt := by simpa using halt
      refine .bind (.still rfl) ?_
      rintro _ _ ⟨⟩
      refine .advance_bind (k := n - 7) (by simp [hkind]) (by omega) fun _ => ?_
      exact .bind (h.endures _) fun _ => hclose _ _
  · refine expect_endures (n := n) (by decide) (fun _ => .bind (h.endures _) fun stop =>
      .bind .accept fun colon => ?_) s hs
    cases colon with
    | none => exact .bind .absent fun _ => hclose _ _
    | some _ => exact .bind (h.endures _) fun _ => hclose _ _

/-- The bracket in front of a subscript pays for what stands inside. -/
theorem subscript_endures (h : CallsEndure n call) (object : Node) :
    (subscript call object).Endures (n + 1) := by
  have hclose (index : Node) : (subscript.close object index).Endures (n - 7) :=
    .bind .expect fun _ => .finish
  refine expect_endures (by decide) fun _ => .bind .check fun colon => ?_
  cases colon with
  | true => exact .bind .absent fun _ => h.endures _
  | false =>
      refine .bind .check fun starts => ?_
      cases starts with
      | false => exact .bind (h.endures _) fun _ => hclose _
      | true =>
          refine .bind (h.endures _) fun first => .bind .check fun colon => ?_
          cases colon with
          | true => exact h.endures _
          | false => exact .bind (h.endures _) fun t => .bind (h.endures _) fun _ => hclose _

/-- The arguments of a call need the frames of one expression. -/
theorem arguments_endures (h : (call (.expression none)).Endures k) :
    (arguments call).Endures k := by
  refine .bind .check fun closed => ?_
  cases closed with
  | true => exact .pure _
  | false =>
      refine .bind h fun first => .bind (.collect ?_) fun others => .pure _
      refine .bind .accept fun comma => ?_
      cases comma with
      | none => exact .pure _
      | some _ => exact h.map some

/-- A suffix starts with a token, and what it calls is behind it. -/
theorem suffix?_endures (h : CallsEndure n call) (object : Node) :
    (suffix? call object).Endures n := by
  refine fun s hs => .current_bind ?_
  split
  · next hopen =>
      refine .advance_bind (k := n - 7) (by simp [hopen]) (by omega) fun _ => ?_
      exact .bind (arguments_endures (h.endures _)) fun _ => .bind .expect fun _ =>
        .map .finish some
  · exact (h (.subscript object)).map some s hs
  · exact Endures.bind .advance (fun _ => .bind .expect fun _ => .map .finish some) s hs
  · exact Endures.pure none s hs

/-- Suffixed expressions call for a primary, which has the rank below. -/
theorem suffixed_endures (h : CallsEndure n call) (base : Option Node) :
    (suffixed call base).Endures (n - 1) := by
  have hsuffix (t : Node) : (suffix? call t).Endures (n - 1) :=
    (suffix?_endures h t).mono (Nat.sub_le n 1)
  cases base with
  | some t => exact .iterate hsuffix t
  | none => exact .bind (h .primary) (.iterate hsuffix)

/-! ### Operators -/

/-- An operand calls for a suffixed expression. What else an iteration calls for is behind a token.
-/
theorem operand_endures (h : CallsEndure n call) : (operand call).Endures (n - 2) := by
  refine fun s hs => .current_bind ?_
  split
  · next hiter =>
      refine .advance_bind (k := n - 7) (by simp [hiter]) (by omega) fun _ => ?_
      exact .bind (h.endures _) fun _ => .bind .expect fun _ => .bind (h.endures _) fun _ => .finish
  · exact h (.suffixed none) s hs

/-- To take a prefix operator calls nothing. -/
theorem prefixOperator_endures : prefixOperator.Endures k := by
  refine fun s hs => .current_bind ?_
  split
  · exact Endures.bind .advance (fun _ => .pure _) s hs
  · exact Endures.pure none s hs

/-- A unary expression calls for an operand, behind its operators. -/
theorem unary_endures (h : CallsEndure n call) : (unary call).Endures (n - 3) := by
  refine .bind (.collect prefixOperator_endures) fun operators =>
    .bind (h .operand) fun first => ?_
  induction operators with
  | nil => exact .pure first
  | cons operator operators ih =>
      rw [List.foldrM_cons]
      exact ih.bind fun _ => .finish

/-- The right operand is behind the operator. -/
theorem operation?_endures (h : CallsEndure n call) (least : Int) (left : Node) :
    (operation? call least left).Endures n := by
  refine fun s hs => .current_bind ?_
  split
  · exact Endures.pure none s hs
  · next level kind hbinary =>
      have hkind : s.current.kind ≠ .endOfInput := by
        intro hend
        rw [hend] at hbinary
        cases hbinary
      split
      · refine .advance_bind (k := n - 7) hkind (by omega) fun _ => ?_
        exact .bind (h.endures _) fun _ => .map .finish some
      · exact Endures.pure none s hs

/-- A binary expression calls for a unary one. Its right operands are behind their operators. -/
theorem binary_endures (h : CallsEndure n call) (least : Int) (left : Option Node) :
    (binary call least left).Endures (n - 4) := by
  have hoperation (t : Node) : (operation? call least t).Endures (n - 4) :=
    (operation?_endures h least t).mono (Nat.sub_le n 4)
  cases left with
  | some t => exact .iterate hoperation t
  | none => exact .bind (h .unary) (.iterate hoperation)

/-- An expression calls for a binary one. Its branches are behind tokens. -/
theorem expression_endures (h : CallsEndure n call) (left : Option Node) :
    (expression call left).Endures (n - 5) := by
  refine .bind (h (.binary _ left)) fun condition =>
    .mono (k := n - 7 + 8) (.accept_bind (by decide) (.pure _) fun _ => ?_) (by omega)
  exact .bind (h.endures _) fun _ => .bind .expect fun _ => .bind (h.endures _) fun _ => .finish

/-! ### Statements -/

/-- Statements behind each other need the frames of one of them. -/
theorem statements_endures {stop : List TokenKind} {statement : Parse Node}
    (h : statement.Endures k) :
    (collect do
      if ← check stop then return none else some <$> statement).Endures k := by
  refine .collect (.bind .check fun closed => ?_)
  cases closed with
  | true => exact .pure none
  | false => exact h.map some

/-- The brace in front of a block pays for its statements. -/
theorem block_endures (h : CallsEndure n call) : (block call).Endures (n + 1) :=
  expect_endures (by decide) fun _ => .bind (statements_endures (h.endures _)) fun _ =>
    .bind .expect fun _ => .finish

/-- A statement calls for a block or for an expression, in front of any token. -/
theorem statement_endures (h : CallsEndure n call) : (statement call).Endures (n - 6) := by
  refine .bind .check fun opens => ?_
  cases opens with
  | true => exact (h .block).mono (Nat.sub_le n 6)
  | false =>
      refine .bind (h (.expression none)) fun _ => .bind .accept fun sign => ?_
      cases sign with
      | none => exact .pure _
      | some _ => exact .bind .expect fun _ => .bind .finish fun _ => .finish

/-- A program needs the frames of one statement. -/
theorem programWith_endures (h : (call .statement).Endures k) : (programWith call).Endures k :=
  .bind (statements_endures h) fun _ => .bind (.of_still fun _ => rfl) fun _ => .pure _

/-! ### All routines -/

/-- Of each routine: its calls in front of the first token have a smaller rank, and the others are
behind a token. -/
theorem body_endures (h : CallsEndure n call) (routine : Routine) :
    (routine.body call).Endures (n + 1 - routine.rank) := by
  cases routine with
  | statement => exact statement_endures h
  | block => exact block_endures h
  | expression left => exact expression_endures h left
  | binary least left => exact binary_endures h least left
  | unary => exact unary_endures h
  | operand => exact operand_endures h
  | suffixed base => exact suffixed_endures h base
  | subscript object => exact subscript_endures h object
  | slice object start => exact slice_endures h object start
  | sliceBound => exact sliceBound_endures h
  | primary => exact primary_endures h
  | array => exact array_endures h
  | map => exact map_endures h

/-- With enough frames for the tokens that are left no routine overflows. -/
theorem run_endures (n : Nat) : CallsEndure n (run n) := by
  induction n with
  | zero =>
      intro routine s hs
      rw [Nat.zero_sub] at hs
      exact absurd hs (Nat.not_lt_zero _)
  | succ n ih => exact body_endures ih

/-- A program is read by the routine for statements. -/
theorem program_endures (n : Nat) : (programWith (run n)).Endures (n - 7) :=
  programWith_endures (run_endures n .statement)

end Parser

end Sigil
