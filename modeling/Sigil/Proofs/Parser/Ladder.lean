import Sigil.Proofs.Grammar.Sound
import Sigil.Proofs.Parser.Unlimited

/-!
# The ladder of levels

The rule for binary operators climbs. One repetition takes the operators of all levels from the one
asked for upwards, and an operator asks for its right operand at the next tighter level. Operators
in front of an operand are collected first and applied afterwards.

Language descriptions have a ladder of rules instead, one for each level: operands of the next level
between operators of exactly this one, grouped to the left, and at its end operators in front of an
operand, one at a time. Climbing is a way to walk the ladder. The two have the same outcome from
every state, places and failures included, because a right operand leaves no operator behind that is
tighter than the one in front of it. The calls in between differ, so this is what climbing does on
every stack on which it does not overflow.

## Main definitions

* `Parser.Ladder.unary`, `Parser.Ladder.binary`: the rules of the ladder.

## Main results

* `Parser.Ladder.unary_eq`: operators in front of an operand may be taken one at a time.
* `Parser.iterate_operation?`: a repetition over some levels is one over the tighter ones and then
  one over the loosest.
* `Parser.binary_eq_ladder`: climbing from any level is the ladder from that level.
-/

namespace Sigil.Parser

open Parse

/-! ### The ladder -/

namespace Ladder

/-- An operator in front of such an operand, or an operand without an operator in front. -/
def unary (operand : Parse Node) : Parse Node := fun s =>
  match _h : prefixed? s.current.kind with
  | none => operand s
  | some kind =>
    match _h : advance s with
    | .error e m => .error e m
    | .ok o m =>
      match unary operand m with
      | .error e m' => .error e m'
      | .ok t m' => finish kind o.position (.text o.text) [t] m'
termination_by s => s.pending
decreasing_by
  refine pending_advance _h fun hend => ?_
  simp_all [prefixed?]

/-- An operator of exactly the level behind an operand and the operand on its right, if there is
such an operator. -/
def operation? (level : Int) (tighter : Parse Node) (left : Node) : Parse (Option Node) := do
  let o ← current
  match binary? o.kind with
  | none => return none
  | some (l, kind) =>
    if l = level then
      let _ ← advance
      let right ← tighter
      some <$> finish kind left.mark.start (.text o.text) [left, right]
    else return none

/-- The rule of a level: operands of the next level between operators of this one. The first of the
tightest operands may already be parsed. -/
def binary (operand : Parse Node) (level : Int) (left : Option Node) : Parse Node :=
  if level < Level.unary then do
    let first ← binary operand (level + 1) left
    iterate (operation? level (binary operand (level + 1) none)) first
  else
    match left with
    | some first => pure first
    | none => unary operand
termination_by (Level.unary - level).toNat

/-- Operators in front of an operand may be taken one at a time. -/
theorem unary_eq (call : Routine → Parse Node) : unary (call .operand) = Parser.unary call := by
  funext s
  induction hn : s.pending using Nat.strongRecOn generalizing s with
  | ind n ih =>
      subst hn
      rw [unary]
      split
      · next hnone => rw [unary_of_none hnone]
      · next kind hkind =>
          have hend : s.current.kind ≠ .endOfInput := by
            intro hend
            rw [hend] at hkind
            cases hkind
          split
          · next e m hadvance => rw [unary_of_error hkind hadvance]
          · next o m hadvance =>
              have ho := (advance_eq_ok hend).1 hadvance
              rw [unary_of_prefixed ho (ho.1 ▸ hkind), ih m.pending ho.pending_lt m rfl]
              cases hunary : Parser.unary call m with
              | ok t m' => rw [bind_of_ok hunary]
              | error e m' => rw [bind_of_error hunary]

end Ladder

/-! ### Which operators are taken -/

section

variable {call : Routine → Parse Node} {s : State} {t : Node} {least level : Int}

/-- In front of no operator that is tight enough there is no operation. -/
theorem operation?_of_lt
    (h : ∀ level kind, binary? s.current.kind = some (level, kind) → level < least) :
    operation? call least t s = .ok none s := by
  simp only [operation?, bind, EStateM.bind, current]
  cases ho : binary? s.current.kind with
  | none => rfl
  | some operator =>
      simp only [Int.not_le.2 (h operator.1 operator.2 ho), if_false]
      rfl

/-- In front of an operator tighter than a level, the level does what the next one does. -/
theorem operation?_of_tighter {l : Int} {kind : NodeKind}
    (ho : binary? s.current.kind = some (l, kind)) (hl : level < l) :
    operation? call level t s = operation? call (level + 1) t s := by
  have hle : level ≤ l := Int.le_of_lt hl
  have hnext : level + 1 ≤ l := hl
  simp only [operation?, bind, EStateM.bind, current, ho, hle, hnext, if_true]

/-- In front of an operator that is no tighter than a level, the level takes its own operators. -/
theorem operation?_of_le
    (h : ∀ l kind, binary? s.current.kind = some (l, kind) → l ≤ level) :
    operation? call level t s =
      Ladder.operation? level (call (.binary (level + 1) none)) t s := by
  simp only [operation?, Ladder.operation?, bind, EStateM.bind, current]
  cases ho : binary? s.current.kind with
  | none => rfl
  | some operator =>
      obtain ⟨l, kind⟩ := operator
      have hle := h l kind ho
      by_cases heq : l = level
      · subst heq
        simp only [Int.le_refl, if_true]
      · have hlt : ¬ level ≤ l := by omega
        simp only [hlt, heq, if_false]

/-- Of the level that is asked for it only matters which operators are tight enough for it. -/
theorem binary_congr {least' : Int}
    (h : ∀ kind level node, binary? kind = some (level, node) → (least ≤ level ↔ least' ≤ level))
    (left : Option Node) : binary call least left = binary call least' left := by
  have hoperation : operation? call least = operation? call least' := by
    funext left
    unfold operation?
    refine congrArg (current >>= ·) (funext fun o => ?_)
    cases ho : binary? o.kind with
    | none => rfl
    | some operator => simp only [h o.kind operator.1 operator.2 ho]
  cases left with
  | none => rw [binary_none, binary_none, hoperation]
  | some t => rw [binary_some, binary_some, hoperation]

end

/-! ### Climbing -/

section

variable {s m s' : State} {t u : Node} {least level : Int}

theorem operation?_pending_lt (h : operation? unlimited least t s = .ok (some u) m) :
    m.pending < s.pending :=
  (operation?_follows unlimited_follows (Int.le_refl least) t s).pending_lt h

/-- The rule for binary operators leaves none behind that is tight enough for it. -/
theorem lt_of_binary (h : unlimited (.binary least none) s = .ok t s') :
    ∀ level kind, binary? s'.current.kind = some (level, kind) → level < least := by
  rw [unlimited_eq_body, Routine.body, binary_none, bind_eq_ok] at h
  obtain ⟨first, m, -, h⟩ := h
  obtain ⟨m', -, hnone⟩ := iterate_induct (P := fun _ _ => True)
    (fun _ _ _ _ _ hstep => ⟨trivial, operation?_pending_lt hstep⟩) trivial h
  obtain ⟨rfl, hlt⟩ := operation?_eq_none hnone
  exact hlt

/-- Behind an operator of a level and its right operand there is no tighter operator. -/
theorem operation?_behind (hle : ∀ l kind, binary? s.current.kind = some (l, kind) → l ≤ level)
    (h : operation? unlimited level t s = .ok (some u) m) :
    operation? unlimited (level + 1) u m = .ok none m := by
  obtain ⟨o, m', b, l, kind, ho, hoperator, hlevel, hb, -⟩ := operation?_eq_some h
  obtain rfl : l = level := Int.le_antisymm (hle l kind (ho.1.symm ▸ hoperator)) hlevel
  exact operation?_of_lt (lt_of_binary hb)

/-- The repetition over the operators from a level upwards is the one over the operators that are
tighter, and behind it the one over those of the level itself. -/
theorem iterate_operation? (t : Node) (s : State) :
    iterate (operation? unlimited level) t s =
      (iterate (operation? unlimited (level + 1)) t >>=
        iterate (Ladder.operation? level (unlimited (.binary (level + 1) none)))) s := by
  induction hp : s.pending using Nat.strongRecOn generalizing s t with
  | ind p ih =>
      subst hp
      by_cases htight : ∃ l kind, binary? s.current.kind = some (l, kind) ∧ level < l
      · -- both sides take the tighter operator
        obtain ⟨l, kind, ho, hl⟩ := htight
        have hsame : operation? unlimited level t s = operation? unlimited (level + 1) t s :=
          operation?_of_tighter ho hl
        cases hstep : operation? unlimited (level + 1) t s with
        | error e m => rw [iterate, hsame, hstep, bind_of_error (by rw [iterate, hstep])]
        | ok r m =>
            cases r with
            | none =>
                have hlt := (operation?_eq_none hstep).2 l kind ho
                omega
            | some u =>
                have hlt := operation?_pending_lt hstep
                rw [iterate_of_some (hsame.trans hstep) hlt, ih m.pending hlt u m rfl]
                simp only [bind, EStateM.bind, iterate_of_some hstep hlt]
      · -- the first repetition on the right is over, and stays so behind an operator of the level
        have hle : ∀ l kind, binary? s.current.kind = some (l, kind) → l ≤ level :=
          fun l kind ho => Int.not_lt.1 fun hl => htight ⟨l, kind, ho, hl⟩
        have hsame : operation? unlimited level t s =
            Ladder.operation? level (unlimited (.binary (level + 1) none)) t s :=
          operation?_of_le hle
        have hnone : operation? unlimited (level + 1) t s = .ok none s :=
          operation?_of_lt fun l kind ho => Int.lt_add_one_iff.2 (hle l kind ho)
        rw [bind_of_ok (iterate_of_none hnone)]
        cases hstep : operation? unlimited level t s with
        | error e m => rw [iterate, hstep, iterate, ← hsame, hstep]
        | ok r m =>
            cases r with
            | none => rw [iterate_of_none hstep, iterate_of_none (hsame.symm.trans hstep)]
            | some u =>
                have hlt := operation?_pending_lt hstep
                rw [iterate_of_some hstep hlt, iterate_of_some (hsame.symm.trans hstep) hlt,
                  ih m.pending hlt u m rfl,
                  bind_of_ok (iterate_of_none (operation?_behind hle hstep))]

/-- The rule for binary operators of a level by that of the next level. -/
theorem binary_eq_next (level : Int) (left : Option Node) :
    unlimited (.binary level left) =
      (unlimited (.binary (level + 1) left) >>=
        iterate (Ladder.operation? level (unlimited (.binary (level + 1) none)))) := by
  rw [unlimited_eq_body (.binary level left), unlimited_eq_body (.binary (level + 1) left)]
  cases left with
  | none =>
      rw [Routine.body, Routine.body, binary_none, binary_none, bind_assoc]
      exact congrArg (_ >>= ·) (funext fun t => funext fun s => iterate_operation? t s)
  | some t =>
      rw [Routine.body, Routine.body, binary_some, binary_some]
      exact funext fun s => iterate_operation? t s

/-- No operator is as tight as the operators in front of an operand. -/
theorem binary_of_unary_le (call : Routine → Parse Node) (hlevel : Level.unary ≤ level)
    (left : Option Node) :
    binary call level left =
      match left with
      | some first => pure first
      | none => call .unary := by
  have hstop : iterate (operation? call level) = pure := by
    funext t s
    refine iterate_of_none (operation?_of_lt fun l kind ho => ?_)
    exact Int.lt_of_lt_of_le (level_lt_unary ho) hlevel
  cases left with
  | none => rw [binary_none, hstop, bind_pure]
  | some t => rw [binary_some, hstop]

/-- Climbing from a level is the ladder from there. -/
theorem Ladder.binary_eq (level : Int) (left : Option Node) :
    Ladder.binary (unlimited .operand) level left = unlimited (.binary level left) := by
  induction hd : (Level.unary - level).toNat using Nat.strongRecOn generalizing level left with
  | ind d ih =>
      subst hd
      rw [Ladder.binary.eq_def]
      split
      · next hlt =>
          have hnext := fun left =>
            ih (Level.unary - (level + 1)).toNat (by omega) (level + 1) left rfl
          rw [hnext, hnext]
          exact (binary_eq_next level left).symm
      · next hlt =>
          rw [unlimited_eq_body (.binary level left), Routine.body,
            binary_of_unary_le _ (Int.not_lt.1 hlt), Ladder.unary_eq, unlimited_eq_body .unary,
            Routine.body]

end

/-- Climbing from any level, with a first operand or without one, does what the ladder does: from
every state it comes to the same tree or the same failure, and to the same state behind it. The
ladder has its rungs from the logical operators to the operators in front of an operand, and a level
outside stands for the nearest rung. -/
theorem binary_eq_ladder (least : Int) (left : Option Node) :
    (Routine.binary least left).Computes
      (Ladder.binary (unlimited .operand) (max Level.logicalOr (min least Level.unary)) left) := by
  rw [Routine.computes_iff, Ladder.binary_eq, unlimited_eq_body, unlimited_eq_body, Routine.body,
    Routine.body]
  refine binary_congr (fun kind level node ho => ?_) left
  have hlow := TokenKind.logicalOr_le_of_binary? ho
  have hhigh := level_lt_unary ho
  simp only [Level.logicalOr, Level.unary] at *
  omega

end Sigil.Parser
