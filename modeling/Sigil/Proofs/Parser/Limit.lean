import Sigil.Proofs.Parser.Rules

/-!
# Room on the stack

A routine without a frame overflows, whatever it is asked for. Apart from that, the room on the
stack makes no difference: a routine with less room does what it does with more, up to the point
where it overflows. The property is kept by everything that routines are put together with, so it
passes from the routines that are called to the one that calls them.

## Main definitions

* `Parse.Overflows`: a rule ends because the stack runs out.
* `Parse.Approximates`: a rule does what another one does, unless it overflows.

## Main results

* `Parser.run_approximates`: more room changes nothing but overflows.
* `Parser.run_eq_of_not_overflows`: where a routine does not overflow, more room changes nothing.
-/

namespace Sigil

namespace Parse

open Sigil.Parser

variable {α β : Type} {p p' : Parse α} {f f' : α → Parse β} {s : State}

/-- From `s` the rule ends because the stack runs out. -/
def Overflows (p : Parse α) (s : State) : Prop :=
  ∃ s', p s = .error .overflow s'

/-- Where a rule does not overflow there is nothing to report. -/
theorem reportingOverflow_of_not_overflows (h : ¬p.Overflows s) : reportingOverflow p s = p s := by
  rw [reportingOverflow]
  split
  · next m hoverflow => exact absurd ⟨m, hoverflow⟩ h
  · rfl

/-- The rule `p` does what `p'` does, unless it overflows. -/
def Approximates (p p' : Parse α) : Prop :=
  ∀ s, p s = p' s ∨ p.Overflows s

namespace Approximates

/-- What calls no routine does not depend on the room. -/
theorem refl (p : Parse α) : p.Approximates p :=
  fun _ => .inl rfl

/-- A rule that overflows everywhere, as a routine without a frame does, approximates all of them.
-/
theorem of_overflow : (overflow : Parse α).Approximates p :=
  fun s => .inr ⟨s, rfl⟩

/-- A rule that overflows does so whatever would have come behind it. -/
theorem bind (hp : p.Approximates p') (hf : ∀ a, (f a).Approximates (f' a)) :
    (p >>= f).Approximates (p' >>= f') := by
  intro s
  obtain heq | ⟨m, hoverflow⟩ := hp s
  · cases hr : p s with
    | error e m =>
        rw [bind_of_error hr, bind_of_error (heq ▸ hr)]
        exact .inl rfl
    | ok a m =>
        have hr' := heq ▸ hr
        obtain hok | ⟨m', hoverflow⟩ := hf a m
        · exact .inl ((bind_of_ok hr).trans (hok.trans (bind_of_ok hr').symm))
        · exact .inr ⟨m', (bind_of_ok hr).trans hoverflow⟩
  · exact .inr ⟨m, bind_of_error hoverflow⟩

/-- What is made of the result makes no difference to the stack. -/
theorem map (hp : p.Approximates p') (g : α → β) : (g <$> p).Approximates (g <$> p') :=
  hp.bind fun a => refl (pure (g a))

/-- A collection overflows at the first step that does. Before it both collections take the same
steps. -/
theorem collect {step step' : Parse (Option α)} (h : step.Approximates step') :
    (Parse.collect step).Approximates (Parse.collect step') := by
  intro s
  induction hn : s.pending using Nat.strongRecOn generalizing s with
  | ind n ih =>
      subst hn
      obtain heq | ⟨m, hoverflow⟩ := h s
      · cases hr : step s with
        | error e m =>
            have hr' := heq ▸ hr
            rw [Parse.collect, hr, Parse.collect, hr']
            exact .inl rfl
        | ok r m =>
            have hr' := heq ▸ hr
            cases r with
            | none =>
                rw [collect_of_none hr, collect_of_none hr']
                exact .inl rfl
            | some a =>
                by_cases hlt : m.pending < s.pending
                · obtain hrest | ⟨m', hoverflow⟩ := ih m.pending hlt m rfl
                  · rw [collect_of_some hr hlt, collect_of_some hr' hlt]
                    exact .inl (by simp only [Functor.map, EStateM.map, hrest])
                  · refine .inr ⟨m', ?_⟩
                    rw [collect_of_some hr hlt]
                    simp only [Functor.map, EStateM.map, hoverflow]
                · refine .inl ?_
                  rw [Parse.collect, hr, Parse.collect, hr']
                  simp only [hlt, if_false]
      · refine .inr ⟨m, ?_⟩
        rw [Parse.collect, hoverflow]

/-- A repetition overflows at the first step that does, as a collection. -/
theorem iterate {step step' : α → Parse (Option α)} (h : ∀ a, (step a).Approximates (step' a))
    (a : α) : (Parse.iterate step a).Approximates (Parse.iterate step' a) := by
  intro s
  induction hn : s.pending using Nat.strongRecOn generalizing s a with
  | ind n ih =>
      subst hn
      obtain heq | ⟨m, hoverflow⟩ := h a s
      · cases hr : step a s with
        | error e m =>
            have hr' := heq ▸ hr
            rw [Parse.iterate, hr, Parse.iterate, hr']
            exact .inl rfl
        | ok r m =>
            have hr' := heq ▸ hr
            cases r with
            | none =>
                rw [iterate_of_none hr, iterate_of_none hr']
                exact .inl rfl
            | some b =>
                by_cases hlt : m.pending < s.pending
                · unfold Overflows
                  rw [iterate_of_some hr hlt, iterate_of_some hr' hlt]
                  exact ih m.pending hlt b m rfl
                · refine .inl ?_
                  rw [Parse.iterate, hr, Parse.iterate, hr']
                  simp only [hlt, if_false]
      · refine .inr ⟨m, ?_⟩
        rw [Parse.iterate, hoverflow]

end Approximates

end Parse

open Parse

namespace Parser

/-- Routines do what others do, unless they overflow. -/
def CallsApproximate (call call' : Routine → Parse Node) : Prop :=
  ∀ routine, (call routine).Approximates (call' routine)

variable {call call' : Routine → Parse Node}

/-! ### Primaries -/

/-- The items between brackets run out of room only inside an item. -/
theorem items_approximates {item item' : Parse Node} (close : Symbol)
    (h : item.Approximates item') : (items close item).Approximates (items close item') := by
  refine .bind (.refl _) fun closed => ?_
  cases closed with
  | true => exact .refl _
  | false =>
      refine .bind h fun first => .bind (.collect ?_) fun others => .refl _
      refine .bind (.refl _) fun comma => ?_
      cases comma with
      | none => exact .refl _
      | some _ =>
          refine .bind (.refl _) fun closed => ?_
          cases closed with
          | true => exact .refl _
          | false => exact h.map some

/-- In front of the value of an entry there are only tokens. -/
theorem mapEntry_approximates (h : CallsApproximate call call') :
    (mapEntry call).Approximates (mapEntry call') :=
  .bind (.refl _) fun _ => .bind (.refl _) fun _ => .bind (.refl _) fun _ =>
    .bind (h (.expression none)) fun _ => .refl _

/-- The items of an array are expressions. -/
theorem array_approximates (h : CallsApproximate call call') :
    (array call).Approximates (array call') :=
  .bind (.refl _) fun _ => .bind (items_approximates _ (h (.expression none))) fun _ => .refl _

/-- The items of a map are entries. -/
theorem map_approximates (h : CallsApproximate call call') : (map call).Approximates (map call') :=
  .bind (.refl _) fun _ => .bind (items_approximates _ (mapEntry_approximates h)) fun _ => .refl _

/-- A literal takes no room. The other primaries call the routine of their contents. -/
theorem primary_approximates (h : CallsApproximate call call') :
    (primary call).Approximates (primary call') := by
  refine .bind (.refl _) fun t => ?_
  cases literal? t.kind with
  | some kind => exact .refl _
  | none =>
      dsimp only
      split
      · exact h .array
      · exact h .map
      · exact .bind (.refl _) fun _ => .bind (h (.expression none)) fun _ => .refl _
      · exact .refl _

/-! ### Suffixes -/

/-- A bound is a primary or is left out. -/
theorem sliceBound_approximates (h : CallsApproximate call call') :
    (sliceBound call).Approximates (sliceBound call') := by
  refine .bind (.refl _) fun starts => ?_
  cases starts with
  | true => exact h .primary
  | false => exact .refl _

/-- Behind each colon of a slice a bound is called for. -/
theorem slice_approximates (h : CallsApproximate call call') (object start : Node) :
    (slice call object start).Approximates (slice call' object start) := by
  refine .bind (.refl _) fun double => ?_
  cases double with
  | true =>
      exact .bind (.refl _) fun _ => .bind (.refl _) fun _ =>
        .bind (h .sliceBound) fun _ => .refl _
  | false =>
      refine .bind (.refl _) fun _ => .bind (h .sliceBound) fun stop =>
        .bind (.refl _) fun colon => ?_
      cases colon with
      | none => exact .refl _
      | some _ => exact .bind (h .sliceBound) fun _ => .refl _

/-- The calls of a subscript depend on the tokens that it finds, which are the same with any room,
and on the primary that it may start with. -/
theorem subscript_approximates (h : CallsApproximate call call') (object : Node) :
    (subscript call object).Approximates (subscript call' object) := by
  refine .bind (.refl _) fun _ => .bind (.refl _) fun colon => ?_
  cases colon with
  | true => exact .bind (.refl _) fun _ => h (.slice object _)
  | false =>
      refine .bind (.refl _) fun starts => ?_
      cases starts with
      | false => exact .bind (h (.expression none)) fun _ => .refl _
      | true =>
          refine .bind (h .primary) fun first => .bind (.refl _) fun colon => ?_
          cases colon with
          | true => exact h (.slice object first)
          | false =>
              exact .bind (h (.suffixed (some first))) fun t => .bind (h (.expression (some t)))
                fun _ => .refl _

/-- The arguments of a call are expressions. -/
theorem arguments_approximates (h : CallsApproximate call call') :
    (arguments call).Approximates (arguments call') := by
  refine .bind (.refl _) fun closed => ?_
  cases closed with
  | true => exact .refl _
  | false =>
      refine .bind (h (.expression none)) fun first => .bind (.collect ?_) fun others => .refl _
      refine .bind (.refl _) fun comma => ?_
      cases comma with
      | none => exact .refl _
      | some _ => exact (h (.expression none)).map some

/-- A member calls nothing; a call and a subscript run out of room inside their brackets. -/
theorem suffix?_approximates (h : CallsApproximate call call') (object : Node) :
    (suffix? call object).Approximates (suffix? call' object) := by
  refine .bind (.refl _) fun t => ?_
  split
  · exact .bind (.refl _) fun _ => .bind (arguments_approximates h) fun _ => .refl _
  · exact (h (.subscript object)).map some
  · exact .refl _
  · exact .refl _

/-- Suffixes follow a primary, or the operand that the routine is given. -/
theorem suffixed_approximates (h : CallsApproximate call call') (base : Option Node) :
    (suffixed call base).Approximates (suffixed call' base) := by
  cases base with
  | some t => exact .iterate (suffix?_approximates h) t
  | none => exact .bind (h .primary) (.iterate (suffix?_approximates h))

/-! ### Operators -/

/-- An iteration calls for its collection and for its transform. -/
theorem operand_approximates (h : CallsApproximate call call') :
    (operand call).Approximates (operand call') := by
  refine .bind (.refl _) fun t => ?_
  by_cases hiter : t.kind = .symbol .iter
  · simp only [hiter, if_true]
    exact .bind (.refl _) fun _ => .bind (h (.suffixed none)) fun _ =>
      .bind (.refl _) fun _ => .bind (h .unary) fun _ => .refl _
  · simp only [hiter, if_false]
    exact h (.suffixed none)

/-- Prefix operators are tokens in front of one operand. -/
theorem unary_approximates (h : CallsApproximate call call') :
    (unary call).Approximates (unary call') :=
  .bind (.refl _) fun _ => .bind (h .operand) fun _ => .refl _

/-- An operator that binds too loosely is left alone with any room. -/
theorem operation?_approximates (h : CallsApproximate call call') (least : Int) (left : Node) :
    (operation? call least left).Approximates (operation? call' least left) := by
  refine .bind (.refl _) fun t => ?_
  cases binary? t.kind with
  | none => exact .refl _
  | some operator =>
      by_cases hle : least ≤ operator.1
      · simp only [hle, if_true]
        exact .bind (.refl _) fun _ => .bind (h (.binary _ none)) fun _ => .refl _
      · simp only [hle, if_false]
        exact .refl _

/-- Operators follow an operand, which the routine calls for or is given. -/
theorem binary_approximates (h : CallsApproximate call call') (least : Int) (left : Option Node) :
    (binary call least left).Approximates (binary call' least left) := by
  cases left with
  | some t => exact .iterate (operation?_approximates h least) t
  | none => exact .bind (h .unary) (.iterate (operation?_approximates h least))

/-- The branches of a conditional are called for behind its condition. -/
theorem expression_approximates (h : CallsApproximate call call') (left : Option Node) :
    (expression call left).Approximates (expression call' left) := by
  refine .bind (h (.binary _ left)) fun condition => .bind (.refl _) fun sign => ?_
  cases sign with
  | none => exact .refl _
  | some _ =>
      exact .bind (h (.expression none)) fun _ => .bind (.refl _) fun _ =>
        .bind (h (.expression none)) fun _ => .refl _

/-! ### Statements -/

/-- A block collects statements. -/
theorem block_approximates (h : CallsApproximate call call') :
    (block call).Approximates (block call') := by
  refine .bind (.refl _) fun _ => .bind (.collect (.bind (.refl _) fun closed => ?_)) fun _ =>
    .refl _
  cases closed with
  | true => exact .refl _
  | false => exact (h .statement).map some

/-- A statement is a block or starts with an expression. -/
theorem statement_approximates (h : CallsApproximate call call') :
    (statement call).Approximates (statement call') := by
  refine .bind (.refl _) fun opens => ?_
  cases opens with
  | false => exact .bind (h (.expression none)) fun _ => .refl _
  | true => exact h .block

/-- A program collects statements, to the end of the input. -/
theorem programWith_approximates (h : CallsApproximate call call') :
    (programWith call).Approximates (programWith call') := by
  refine .bind (.collect (.bind (.refl _) fun closed => ?_)) fun _ => .refl _
  cases closed with
  | true => exact .refl _
  | false => exact (h .statement).map some

/-! ### All routines -/

/-- Of each routine: if the routines that it calls do the same up to overflows, so does it. -/
theorem body_approximates (h : CallsApproximate call call') (routine : Routine) :
    (routine.body call).Approximates (routine.body call') := by
  cases routine with
  | statement => exact statement_approximates h
  | block => exact block_approximates h
  | expression left => exact expression_approximates h left
  | binary least left => exact binary_approximates h least left
  | unary => exact unary_approximates h
  | operand => exact operand_approximates h
  | suffixed base => exact suffixed_approximates h base
  | subscript object => exact subscript_approximates h object
  | slice object start => exact slice_approximates h object start
  | sliceBound => exact sliceBound_approximates h
  | primary => exact primary_approximates h
  | array => exact array_approximates h
  | map => exact map_approximates h

/-- More room changes nothing but overflows. -/
theorem run_approximates {n m : Nat} (h : n ≤ m) : CallsApproximate (run n) (run m) := by
  induction n generalizing m with
  | zero => exact fun _ => .of_overflow
  | succ n ih =>
      obtain ⟨m, rfl⟩ := Nat.exists_eq_succ_of_ne_zero (Nat.ne_of_gt (Nat.lt_of_lt_of_le
        (Nat.succ_pos n) h))
      exact body_approximates (ih (Nat.le_of_succ_le_succ h))

/-- Where a routine does not overflow, more room changes nothing. -/
theorem run_eq_of_not_overflows {n m : Nat} {routine : Routine} {s : State} (h : n ≤ m)
    (hn : ¬(run n routine).Overflows s) : run m routine s = run n routine s :=
  ((run_approximates h routine s).resolve_right hn).symm

end Parser

end Sigil
