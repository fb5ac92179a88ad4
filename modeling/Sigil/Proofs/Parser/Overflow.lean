import Sigil.Proofs.Grammar.Complete
import Sigil.Proofs.Grammar.Nesting
import Sigil.Proofs.Parser.Limit

/-!
# Overflows

A routine that is left without a frame overflows. So does a phrase if a part of it does, as long as
the parser gets to the part: the phrases in front of the part are complete, so that either they are
consumed or the parser is out of frames in one of them already. And each level further in takes a
frame at least, whatever phrase it is that opens the level.

## Main definitions

* `Parser.OverflowsAt`: the routines for expressions of a level, or of a looser one, overflow.
* `Category.OverflowsAt`: the routine for the phrases of a category overflows.

## Main results

* `Parse.Approximates.overflows_bind`, `Parse.Iterates.overflows`: an overflow behind a part that
  would be consumed with more room is an overflow of the whole.
* `Front.overflows`: a phrase with a part that overflows does so itself.
-/

namespace Sigil

open Parse

namespace Parse

open Sigil.Parser

variable {α β : Type} {p p' q : Parse α} {f : α → Parse β} {s m : State}

/-! ### Rules that overflow -/

namespace Overflows

/-- Where two rules do the same one overflows with the other. -/
theorem of_eq (hq : q.Overflows m) (h : p s = q m) : p.Overflows s := by
  obtain ⟨s', hq⟩ := hq
  exact ⟨s', h.trans hq⟩

/-- What would have come behind an overflow makes no difference. -/
theorem bind (h : p.Overflows s) (f : α → Parse β) : (p >>= f).Overflows s := by
  obtain ⟨s', h⟩ := h
  exact ⟨s', bind_of_error h⟩

/-- Behind a part that succeeds a rule overflows with the rest. -/
theorem bind_of_ok {a : α} (h : (f a).Overflows m) (hp : p s = .ok a m) : (p >>= f).Overflows s :=
  h.of_eq (Parse.bind_of_ok hp)

/-- What would be made of the result makes no difference to an overflow. -/
theorem map (h : p.Overflows s) (g : α → β) : (g <$> p).Overflows s :=
  h.bind fun a => pure (g a)

/-- A collection whose first step overflows does. -/
theorem collect {step : Parse (Option α)} (h : step.Overflows s) : (collect step).Overflows s := by
  obtain ⟨s', h⟩ := h
  exact ⟨s', by rw [Parse.collect, h]⟩

/-- A repetition whose first step overflows does. -/
theorem iterate {step : α → Parse (Option α)} {a : α} (h : (step a).Overflows s) :
    (iterate step a).Overflows s := by
  obtain ⟨s', h⟩ := h
  exact ⟨s', by rw [Parse.iterate, h]⟩

end Overflows

/-- Two rules one after the other overflow in the first or in the second. -/
theorem overflows_bind_iff : (p >>= f).Overflows s ↔
    p.Overflows s ∨ ∃ a m, p s = .ok a m ∧ (f a).Overflows m := by
  constructor
  · rintro ⟨s', h⟩
    cases hp : p s with
    | error e m =>
        rw [bind_of_error hp] at h
        cases h
        exact .inl ⟨s', hp⟩
    | ok a m => exact .inr ⟨a, m, rfl, s', (bind_of_ok hp).symm.trans h⟩
  · rintro (h | ⟨a, m, hp, h⟩)
    · exact h.bind f
    · exact h.bind_of_ok hp

/-! ### Less room -/

/-- What overflows with more room overflows with less. -/
theorem Approximates.overflows (h : p.Approximates p') (hp : p'.Overflows s) : p.Overflows s := by
  obtain heq | hoverflow := h s
  · exact hp.of_eq heq
  · exact hoverflow

/-- What overflows behind a part overflows behind it with less room for the part too: either the
part is consumed, or it overflows itself. -/
theorem Approximates.overflows_bind {a : α} (h : p.Approximates p') (hp : p' s = .ok a m)
    (hf : (f a).Overflows m) : (p >>= f).Overflows s := by
  obtain heq | hoverflow := h s
  · exact hf.bind_of_ok (heq.trans hp)
  · exact hoverflow.bind f

/-- A collection that overflows behind its first step, where the step is to do what the rule `p`
does. -/
theorem Approximates.overflows_collect {step : Parse (Option α)} {s' : State} {a : α}
    (h : p.Approximates p') (hp : p' s = .ok a m) (hstep : step s' = (some <$> p) s)
    (hlt : m.pending < s'.pending) (hrest : (Parse.collect step).Overflows m) :
    (Parse.collect step).Overflows s' := by
  obtain heq | hoverflow := h s
  · exact (hrest.map (List.cons a)).of_eq
      (collect_of_some (hstep.trans (map_of_ok (heq.trans hp))) hlt)
  · exact ((hoverflow.map some).of_eq hstep).collect

/-- A repetition that overflows behind its first steps. -/
theorem Iterates.overflows {step step' : α → Parse (Option α)} {a b : α}
    (h : Iterates step' a s b m) (happroximates : ∀ a, (step a).Approximates (step' a))
    (hb : (step b).Overflows m) : (iterate step a).Overflows s := by
  -- from the last step back, the repetition overflows from there on
  replace hb := hb.iterate
  induction h with
  | here => exact hb
  | @step b c m s' _ hstep hlt ih =>
      refine ih ?_
      obtain heq | hoverflow := happroximates b m
      · exact hb.of_eq (iterate_of_some (heq.trans hstep) hlt)
      · exact hoverflow.iterate

end Parse

namespace Room

variable {r q : Room}

/-- Two rooms are contained in that of a phrase which is read from its start. -/
theorem exists_plain_ge (r q : Room) : ∃ n, r ≤ plain n ∧ q ≤ plain n := by
  obtain ⟨n, hn⟩ := r.exists_le_plain
  obtain ⟨m, hm⟩ := q.exists_le_plain
  refine ⟨n + m, ?_, ?_⟩ <;> simp only [le_iff, plain] at * <;> omega

end Room

namespace Parser

variable {n : Nat} {r q : Room} {s m : State} {k l : Int}

/-- A routine overflows where its body does, with one frame less for the calls, and it does so
without a frame anyway. -/
theorem overflows_run (routine : Routine) (h : (routine.body (run (n - 1))).Overflows s) :
    (run n routine).Overflows s := by
  cases n with
  | zero => exact ⟨s, rfl⟩
  | succ n => exact h

/-! ### Expressions with less room -/

/-- More room for the suffixes behind an operand changes nothing but overflows. -/
theorem suffixes_approximates (h : r ≤ q) (t : Node) :
    (suffixes r t).Approximates (suffixes q t) :=
  .iterate (suffix?_approximates (run_approximates (Nat.sub_le_sub_right h.2.1 1))) t

/-- More room for the first operand changes nothing but overflows. -/
theorem firstOperand_approximates (h : r ≤ q) :
    (firstOperand r).Approximates (firstOperand q) := by
  refine .bind (.refl _) fun primary => ?_
  cases primary with
  | true =>
      exact .bind (run_approximates h.2.2 .primary) (suffixes_approximates h)
  | false => exact run_approximates (Nat.sub_le_sub_right h.1 2) .unary

/-- One suffix, with the room that is left when the routine for suffixes runs. -/
theorem suffix?_run_approximates (h : r ≤ q) (t : Node) :
    (suffix? (run (r.suffixed - 1)) t).Approximates (suffix? (run (q.suffixed - 1)) t) :=
  suffix?_approximates (run_approximates (Nat.sub_le_sub_right h.2.1 1)) t

/-- One operator, with the room that is left when the routine for operators runs. -/
theorem operation?_run_approximates (h : r ≤ q) (least : Int) (t : Node) :
    (operation? (run (r.expression - 2)) least t).Approximates
      (operation? (run (q.expression - 2)) least t) :=
  operation?_approximates (run_approximates (Nat.sub_le_sub_right h.1 2)) least t

/-! ### Expressions that overflow -/

/-- From `s` the routines for expressions that ask for `k` or a looser level overflow. -/
structure OverflowsAt (r : Room) (k : Int) (s : State) : Prop where
  primary : Level.primary ≤ k → (run r.primary .primary).Overflows s
  suffixed : Level.suffixed ≤ k → (run r.primary .primary >>= suffixes r).Overflows s
  unary : Level.unary ≤ k → (firstOperand r).Overflows s
  binary : ∀ least, Level.logicalOr ≤ least → least ≤ k → least ≤ Level.unary →
    (firstOperand r >>= operations r least).Overflows s
  expression : ((firstOperand r >>= operations r Level.logicalOr) >>=
    branches (run (r.expression - 1))).Overflows s

namespace OverflowsAt

/-- What overflows as a tight expression overflows as a looser one. -/
theorem looser (h : OverflowsAt r k s) (hl : l ≤ k) : OverflowsAt r l s where
  primary h9 := h.primary (Int.le_trans h9 hl)
  suffixed h8 := h.suffixed (Int.le_trans h8 hl)
  unary h7 := h.unary (Int.le_trans h7 hl)
  binary least hle hlk := h.binary least hle (Int.le_trans hlk hl)
  expression := h.expression

/-- At the level of conditionals only the routine for whole expressions is called. -/
theorem of_expression (hk : k < Level.logicalOr)
    (h : ((firstOperand r >>= operations r Level.logicalOr) >>=
      branches (run (r.expression - 1))).Overflows s) : OverflowsAt r k s where
  primary h9 := absurd (Int.lt_of_le_of_lt h9 hk) (by decide)
  suffixed h8 := absurd (Int.lt_of_le_of_lt h8 hk) (by decide)
  unary h7 := absurd (Int.lt_of_le_of_lt h7 hk) (by decide)
  binary least hle hlk := absurd (Int.lt_of_le_of_lt (Int.le_trans hle hlk) hk) (by decide)
  expression := h

/-- At the level of a binary operator its routine overflows, whatever the least level is. -/
theorem of_binary (hk : Level.logicalOr ≤ k) (htop : k < Level.unary)
    (h : ∀ least, Level.logicalOr ≤ least → least ≤ k →
      (firstOperand r >>= operations r least).Overflows s) : OverflowsAt r k s where
  primary h9 := absurd (Int.lt_of_le_of_lt h9 htop) (by decide)
  suffixed h8 := absurd (Int.lt_of_le_of_lt h8 htop) (by decide)
  unary h7 := absurd (Int.lt_of_le_of_lt h7 htop) (by decide)
  binary least hle hlk _ := h least hle hlk
  expression := (h Level.logicalOr (Int.le_refl _) hk).bind _

/-- At the level of prefix operators the first operand overflows, whatever calls for it. -/
theorem of_unary (h : (firstOperand r).Overflows s) : OverflowsAt r Level.unary s where
  primary h9 := absurd h9 (by decide)
  suffixed h8 := absurd h8 (by decide)
  unary _ := h
  binary least _ _ _ := h.bind _
  expression := (h.bind _).bind _

/-- At the level of suffixes it is the primary or what follows it. -/
theorem of_suffixed (hstart : s.current.kind ∈ primaryStarts)
    (h : (run r.primary .primary >>= suffixes r).Overflows s) : OverflowsAt r Level.suffixed s := by
  have hlooser : OverflowsAt r Level.unary s :=
    of_unary (h.of_eq (firstOperand_of_primaryStart hstart))
  exact {
    primary h9 := absurd h9 (by decide)
    suffixed _ := h
    unary _ := hlooser.unary (Int.le_refl _)
    binary least hle _ htop := hlooser.binary least hle htop htop
    expression := hlooser.expression }

/-- A primary overflows in whatever starts with it. -/
theorem of_primary (hstart : s.current.kind ∈ primaryStarts)
    (h : (run r.primary .primary).Overflows s) : OverflowsAt r Level.primary s := by
  have hlooser : OverflowsAt r Level.suffixed s := of_suffixed hstart (h.bind _)
  exact {
    primary _ := h
    suffixed _ := hlooser.suffixed (Int.le_refl _)
    unary _ := hlooser.unary (by decide)
    binary least hle _ htop := hlooser.binary least hle (Int.le_trans htop (by decide)) htop
    expression := hlooser.expression }

/-- Without a frame every expression overflows. -/
theorem of_no_frame (h : r ≤ .resumed 0) : OverflowsAt r k s := by
  have hprimary : (run r.primary .primary).Overflows s := by
    rw [Nat.le_zero.1 h.2.2]
    exact ⟨s, rfl⟩
  have hfirst : (firstOperand r).Overflows s := by
    by_cases hstart : s.current.kind ∈ primaryStarts
    · exact (hprimary.bind _).of_eq (firstOperand_of_primaryStart hstart)
    · refine .of_eq (q := run 0 .unary) ⟨s, rfl⟩ ?_
      rw [firstOperand_of_other hstart, Nat.le_zero.1 h.1]
  exact {
    primary _ := hprimary
    suffixed _ := hprimary.bind _
    unary _ := hfirst
    binary least _ _ _ := hfirst.bind _
    expression := (hfirst.bind _).bind _ }

/-! ### Expressions that are read from their start -/

/-- The routine for expressions overflows, with the frames of a phrase read from its start. -/
theorem run_expression (h : OverflowsAt (.plain n) k s) :
    (run n (.expression none)).Overflows s := by
  rw [Parser.run_expression, run_binary_eq]
  exact h.expression

/-- The routine for binary expressions overflows, with the frame that an expression leaves it. -/
theorem run_binary (h : OverflowsAt (.plain n) k s) (hle : Level.logicalOr ≤ k)
    (htop : k ≤ Level.unary) : (run (n - 1) (.binary k none)).Overflows s := by
  rw [run_binary_eq]
  exact h.binary k hle (Int.le_refl k) htop

/-- The routine for unary expressions overflows, with the frames that a binary one leaves it. -/
theorem run_unary (h : OverflowsAt (.plain n) k s) (hk : Level.unary ≤ k) :
    (run (n - 2) .unary).Overflows s := by
  rw [run_unary_eq]
  exact h.unary hk

/-- The routine for suffixed expressions overflows, with the frames that an operand leaves it. -/
theorem run_suffixed (h : OverflowsAt (.plain n) k s) (hk : Level.suffixed ≤ k) :
    (run (n - 4) (.suffixed none)).Overflows s := by
  rw [run_suffixed_eq]
  exact h.suffixed hk

end OverflowsAt

end Parser

/-! ### What it is for a phrase to overflow -/

/-- The routine for phrases of the category overflows. Whatever is not part of an expression or of
the bounds of a slice is read from its start. -/
def Category.OverflowsAt (r : Room) (s : Parser.State) : Category → Prop
  | expression least => Parser.OverflowsAt r least s
  | bound => (Parser.run r.primary .primary).Overflows s
  | bounds => ∀ n, r = .resumed n → ∀ (object : Node) (o : Token) (p : Parser.State),
      p.Steps o s → o.kind = .symbol .lbracket →
        (Parser.subscript (Parser.run n) object).Overflows p
  | item k => ∀ n, r = .plain n → (k.rule (Parser.run n)).Overflows s
  | series k => ∀ n, r = .plain n → (k.whole (Parser.run n)).Overflows s ∧
      ∀ o p, p.Steps o s → o.kind = .symbol .comma →
        (collect (k.step (Parser.run n))).Overflows p
  | statement => ∀ n, r = .plain (n - 1) → (Parser.run n .statement).Overflows s
  | statements => ∀ n, r = .plain (n - 1) → ∀ stop : List TokenKind,
      (∀ kind ∈ stop, ¬ kind.StartsExpression ∧ kind ≠ .symbol .lbrace) →
        (collect (do
          if ← check stop then return none else some <$> Parser.run n .statement)).Overflows s

namespace Parser

variable {n : Nat} {r q : Room} {u v : List Token} {o p : Token} {t a b : Node} {s m : State}
  {level : Int}

/-! ### Primaries -/

/-- An expression in parentheses. -/
theorem group_overflows (ho : o.kind = .symbol .lparen) (hopen : s.Steps o m)
    (h : OverflowsAt (.plain (r.primary - 1)) Level.conditional m) :
    OverflowsAt r Level.primary s := by
  refine .of_primary (by rw [hopen.1, ho]; decide) (overflows_run .primary ?_)
  exact (h.run_expression.bind _).of_eq (primary_of_lparen hopen ho)

/-- The items of an array. -/
theorem array_overflows (ho : o.kind = .symbol .arrayOpen) (hopen : s.Steps o m)
    (h : (Category.series .elements).OverflowsAt (.plain (r.primary - 2)) m) :
    OverflowsAt r Level.primary s := by
  have hkind : s.current.kind = .symbol .arrayOpen := by rw [hopen.1, ho]
  have hitems : (items .rbracket (run (r.primary - 1 - 1) (.expression none))).Overflows m :=
    (h _ rfl).1
  have harray : (array (run (r.primary - 1 - 1))).Overflows s := by
    rw [array]
    exact .bind_of_ok (hitems.bind _) (expect_of_steps hopen (by simp [ho]))
  refine .of_primary (by rw [hkind]; decide) (overflows_run .primary ?_)
  exact (overflows_run .array harray).of_eq (primary_of_arrayOpen hkind)

/-- The entries of a map. -/
theorem map_overflows (ho : o.kind = .symbol .mapOpen) (hopen : s.Steps o m)
    (h : (Category.series .entries).OverflowsAt (.plain (r.primary - 2)) m) :
    OverflowsAt r Level.primary s := by
  have hkind : s.current.kind = .symbol .mapOpen := by rw [hopen.1, ho]
  have hitems : (items .rbrace (mapEntry (run (r.primary - 1 - 1)))).Overflows m := (h _ rfl).1
  have hmap : (map (run (r.primary - 1 - 1))).Overflows s := by
    rw [map]
    exact .bind_of_ok (hitems.bind _) (expect_of_steps hopen (by simp [ho]))
  refine .of_primary (by rw [hkind]; decide) (overflows_run .primary ?_)
  exact (overflows_run .map hmap).of_eq (primary_of_mapOpen hkind)

/-! ### Suffixes -/

/-- A suffix that overflows, behind an operand that may overflow already. -/
theorem suffix_overflows (ha : Derives q v o (.expression Level.suffixed a))
    (hreads : s.Reads v m) (ho : m.current = o)
    (h : (suffix? (run (r.suffixed - 1)) a).Overflows m) : OverflowsAt r Level.suffixed s := by
  obtain ⟨n, hr, hq⟩ := Room.exists_plain_ge r q
  obtain ⟨hstart, first, m', hprimary, hsuffixes⟩ :=
    ((ha.mono hq).parsed s m hreads ho).suffixed (Int.le_refl _)
  refine .of_suffixed hstart ((run_approximates hr.2.2 .primary).overflows_bind hprimary ?_)
  exact hsuffixes.overflows (suffix?_run_approximates hr) h

/-- The arguments of a call. -/
theorem arguments_overflows (ha : Derives q v o (.expression Level.suffixed a))
    (ho : o.kind = .symbol .lparen) (hreads : s.Reads (v ++ [o]) m)
    (h : (Category.series .arguments).OverflowsAt (.plain (r.suffixed - 1)) m) :
    OverflowsAt r Level.suffixed s := by
  obtain ⟨s₁, hv, hopen⟩ := State.reads_append.1 hreads
  have hopen := State.reads_singleton.1 hopen
  have harguments : (arguments (run (r.suffixed - 1))).Overflows m := (h _ rfl).1
  exact suffix_overflows ha hv hopen.1 ((harguments.bind _).of_eq (suffix?_of_lparen hopen ho))

/-- The suffix in brackets behind an operand. -/
theorem subscript_overflows (ha : Derives q v o (.expression Level.suffixed a))
    (ho : o.kind = .symbol .lbracket) (hreads : s.Reads (v ++ [o]) m)
    (h : Category.bounds.OverflowsAt (.resumed (r.suffixed - 2)) m) :
    OverflowsAt r Level.suffixed s := by
  obtain ⟨s₁, hv, hopen⟩ := State.reads_append.1 hreads
  have hopen := State.reads_singleton.1 hopen
  have hsubscript : (run (r.suffixed - 1) (.subscript a)).Overflows s₁ :=
    overflows_run (.subscript a) (h _ rfl a o s₁ hopen ho)
  exact suffix_overflows ha hv hopen.1
    ((hsubscript.map _).of_eq (suffix?_of_lbracket (by rw [hopen.1, ho])))

/-- Suffixes behind a primary that is already parsed are the repetition over them. -/
theorem run_suffixed_some_approximates (n : Nat) (t : Node) :
    (run n (.suffixed (some t))).Approximates (suffixes (.resumed n) t) := by
  cases n with
  | zero => exact .of_overflow
  | succ n => exact .refl _

/-- An expression that goes on from an operand is the repetition over binary operators and the
branches behind it, if there are the two frames to get there. -/
theorem run_expression_some_approximates (n : Nat) (t : Node) :
    (run n (.expression (some t))).Approximates
      (operations (.resumed n) Level.logicalOr t >>= branches (run (n - 1))) := by
  obtain _ | _ | n := n
  · exact .of_overflow
  · exact .of_overflow
  · exact .refl _

/-- Behind a primary in front of a colon the rest of an expression does not overflow. -/
theorem not_overflows_of_colon (h : s.current.kind ∈ [.symbol .colon, .symbol .alt]) :
    ¬(suffixes r t >>= fun a => operations r Level.logicalOr a >>=
      branches (run (r.expression - 1))).Overflows s := by
  have hcolons : ∀ kind ∈ [TokenKind.symbol .colon, .symbol .alt], kind.extension? = none := by
    decide
  have hstops {k : Int} : s.current.kind.Stops k := stops_of_extension? (hcolons _ h)
  rintro ⟨s', hoverflow⟩
  rw [bind_of_ok (suffixes_of_stops hstops), bind_of_ok (operations_of_stops hstops),
    branches_of_stops hstops] at hoverflow
  cases hoverflow

/-- An index that overflows is not taken for a slice. -/
theorem index_overflows (hstart : m.current.kind.StartsExpression)
    (h : OverflowsAt (.resumed n) Level.conditional m) :
    Category.bounds.OverflowsAt (.resumed n) m := by
  rintro _ ⟨⟩ object o s hopen ho
  have hexpression := h.expression
  by_cases hprimary : m.current.kind ∈ primaryStarts
  · refine .of_eq ?_ (subscript_of_primary hopen ho hprimary)
    rw [bind_assoc] at hexpression
    have hresumed := hexpression.of_eq
      (bind_congr_left (firstOperand_of_primaryStart hprimary) _).symm
    rw [bind_assoc] at hresumed
    -- one routine after the other: the primary, its suffixes, and the rest of the expression
    obtain hoverflow | ⟨first, m₁, hfirst, hrest⟩ := overflows_bind_iff.1 hresumed
    · exact hoverflow.bind _
    · have hcolon : m₁.current.kind ∉ [.symbol .colon, .symbol .alt] :=
        fun hcolon => not_overflows_of_colon hcolon hrest
      refine Overflows.bind_of_ok (.of_eq ?_ (behindPrimary_of_other hcolon)) hfirst
      obtain hoverflow | ⟨t, m₂, hsuffixes, hrest⟩ := overflows_bind_iff.1 hrest
      · exact ((run_suffixed_some_approximates n first).overflows hoverflow).bind _
      · exact (run_suffixed_some_approximates n first).overflows_bind hsuffixes
          (((run_expression_some_approximates n t).overflows hrest).bind _)
  · have hcolons : ∀ kind ∈ [TokenKind.symbol .colon, .symbol .alt], ¬ kind.StartsExpression := by
      decide
    refine .of_eq (.bind ?_ _) (subscript_of_other hopen ho (fun hmem => hcolons _ hmem hstart)
      hprimary)
    rw [bind_assoc] at hexpression
    rw [run_expression, run_binary_none, bind_assoc]
    refine hexpression.of_eq ?_
    exact bind_congr_left (firstOperand_of_other (r := .resumed n) hprimary).symm _

/-! ### Operators -/

/-- What stands behind an operator in front of it. -/
theorem operand_overflows {kind : NodeKind} (ho : prefixed? o.kind = some kind)
    (hopen : s.Steps o m) (h : OverflowsAt (.plain r.expression) Level.unary m) :
    OverflowsAt r Level.unary s := by
  have hunary := h.run_unary (Int.le_refl _)
  have hother : s.current.kind ∉ primaryStarts :=
    not_primaryStart_of_unary (.inl (by rw [hopen.1, ho]; rfl))
  refine .of_unary (.of_eq ?_ (firstOperand_of_other hother))
  -- the routine goes on behind the operator as it does in front of it
  cases hframes : r.expression - 2 with
  | zero => exact ⟨s, rfl⟩
  | succ n =>
      rw [hframes] at hunary
      exact (hunary.bind _).of_eq (unary_of_prefixed hopen ho)

/-- An iteration, by its routine. -/
theorem iteration_overflows (ho : o.kind = .symbol .iter) (hopen : s.Steps o m)
    (h : (operand (run (r.expression - 4))).Overflows s) : OverflowsAt r Level.unary s := by
  have hother : s.current.kind ∉ primaryStarts :=
    not_primaryStart_of_unary (.inr (by rw [hopen.1, ho]))
  refine .of_unary (.of_eq (overflows_run .unary ?_) (firstOperand_of_other hother))
  refine .of_eq ?_ (unary_of_none (by rw [hopen.1, ho]; rfl))
  exact overflows_run .operand (by rw [Nat.sub_sub, Nat.sub_sub]; exact h)

/-- The collection of an iteration. -/
theorem collection_overflows (ho : o.kind = .symbol .iter) (hopen : s.Steps o m)
    (h : OverflowsAt (.plain r.expression) Level.suffixed m) : OverflowsAt r Level.unary s :=
  iteration_overflows ho hopen
    (((h.run_suffixed (Int.le_refl _)).bind _).of_eq (operand_of_iter hopen ho))

/-- The transform of an iteration, behind the collection. -/
theorem transform_overflows (ho : o.kind = .symbol .iter)
    (ha : Derives q v p (.expression Level.suffixed a)) (hp : p.kind = .symbol .pipe)
    (hreads : s.Reads (o :: (v ++ [p])) m)
    (h : OverflowsAt (.plain (r.expression - 2)) Level.unary m) : OverflowsAt r Level.unary s := by
  obtain ⟨s₁, hiter, hreads⟩ := hreads
  obtain ⟨s₂, hv, hpipe⟩ := State.reads_append.1 hreads
  have hpipe := State.reads_singleton.1 hpipe
  obtain ⟨n, hr, hq⟩ := Room.exists_plain_ge r q
  have hcollection := ((ha.mono hq).parsed s₁ s₂ hv hpipe.1).run_suffixed (Int.le_refl _)
    (stops_of_extension? (by rw [hpipe.1, hp]; rfl))
  have htransform : (run (r.expression - 4) .unary).Overflows m := by
    have hunary := h.run_unary (Int.le_refl _)
    rwa [Nat.sub_sub] at hunary
  refine iteration_overflows ho hiter (.of_eq ?_ (operand_of_iter hiter ho))
  refine (run_approximates (Nat.sub_le_sub_right hr.1 4) _).overflows_bind hcollection ?_
  exact .bind_of_ok (htransform.bind _) (expect_of_steps hpipe (by simp [hp]))

/-- The operand on the right of an operator. -/
theorem right_overflows {kind : NodeKind} (ha : Derives q v o (.expression level a))
    (ho : binary? o.kind = some (level, kind)) (hreads : s.Reads (v ++ [o]) m)
    (h : OverflowsAt (.plain (r.expression - 1)) (level + 1) m) : OverflowsAt r level s := by
  obtain ⟨s₁, hv, hsign⟩ := State.reads_append.1 hreads
  have hsign := State.reads_singleton.1 hsign
  have hlow := TokenKind.logicalOr_le_of_binary? ho
  have hhigh := level_lt_unary ho
  obtain ⟨n, hr, hq⟩ := Room.exists_plain_ge r q
  have hright : (run (r.expression - 2) (.binary (level + 1) none)).Overflows m := by
    have hbinary := h.run_binary (by omega) hhigh
    rwa [Nat.sub_sub] at hbinary
  refine .of_binary hlow hhigh fun least hle hlevel => ?_
  have hstep : (operation? (run (r.expression - 2)) least a).Overflows s₁ :=
    (hright.bind _).of_eq (operation?_of_steps hsign ho hlevel)
  obtain ⟨x, m', hfirst, hoperations⟩ :=
    left_of_parsed (ha.mono hq).parsed ho hv hsign.1 hle hlevel
  exact (firstOperand_approximates hr).overflows_bind hfirst
    (hoperations.overflows (operation?_run_approximates hr least) hstep)

/-- The branches behind a condition. -/
theorem branches_overflow (ha : Derives q u o (.expression Level.logicalOr a))
    (ho : o.kind = .symbol .cond) {s₁ s₂ : State} (hu : s.Reads u s₁) (hcond : s₁.Steps o s₂)
    (h : Overflows (do
      let consequence ← run (r.expression - 1) (.expression none)
      let _ ← expect [.symbol .alt]
      let alternative ← run (r.expression - 1) (.expression none)
      finish .conditional a.mark.start .none [a, consequence, alternative]) s₂) :
    OverflowsAt r Level.conditional s := by
  obtain ⟨n, hr, hq⟩ := Room.exists_plain_ge r q
  obtain ⟨x, m, hfirst, hoperations⟩ := condition_of_parsed (ha.mono hq).parsed ho hu hcond.1
  have hcondition : (firstOperand (.plain n) >>= operations (.plain n) Level.logicalOr) s =
      .ok a s₁ := (bind_of_ok hfirst).trans hoperations
  have hbranches : (branches (run (r.expression - 1)) a).Overflows s₁ := by
    rw [branches]
    exact .bind_of_ok (a := some o) h (accept_of_steps hcond (by simp [ho]))
  refine .of_expression (by decide) (Approximates.overflows_bind ?_ hcondition hbranches)
  exact (firstOperand_approximates hr).bind fun x =>
    .iterate (operation?_run_approximates hr Level.logicalOr) x

/-- The first branch of a conditional, behind the condition. -/
theorem consequence_overflows (ha : Derives q u o (.expression Level.logicalOr a))
    (ho : o.kind = .symbol .cond) (hreads : s.Reads (u ++ [o]) m)
    (h : OverflowsAt (.plain (r.expression - 1)) Level.conditional m) :
    OverflowsAt r Level.conditional s := by
  obtain ⟨s₁, hu, hcond⟩ := State.reads_append.1 hreads
  exact branches_overflow ha ho hu (State.reads_singleton.1 hcond) (h.run_expression.bind _)

/-- The second branch of a conditional, behind the first, which may overflow already. -/
theorem alternative_overflows {q' : Room} (ha : Derives q u o (.expression Level.logicalOr a))
    (ho : o.kind = .symbol .cond) (hb : Derives q' v p (.expression Level.conditional b))
    (hp : p.kind = .symbol .alt) (hreads : s.Reads (u ++ o :: (v ++ [p])) m)
    (h : OverflowsAt (.plain (r.expression - 1)) Level.conditional m) :
    OverflowsAt r Level.conditional s := by
  obtain ⟨s₁, hu, s₂, hcond, hreads⟩ := State.reads_append.1 hreads
  obtain ⟨s₃, hv, halt⟩ := State.reads_append.1 hreads
  have halt := State.reads_singleton.1 halt
  obtain ⟨n, hr, hq⟩ := Room.exists_plain_ge r q'
  have hconsequence := expression_of_parsed (hb.mono hq).parsed hv halt.1
    (stops_of_extension? (by rw [hp]; rfl))
  have hle : r.expression - 1 ≤ n := Nat.le_trans (Nat.sub_le _ 1) hr.1
  refine branches_overflow ha ho hu hcond ?_
  refine (run_approximates hle _).overflows_bind hconsequence ?_
  exact .bind_of_ok (h.run_expression.bind _) (expect_of_steps halt (by simp [hp]))

/-! ### The bounds of a slice -/

/-- The first bound, which a subscript may start with. -/
theorem start_overflows (hstart : m.current.kind ∈ primaryStarts)
    (h : (run n .primary).Overflows m) : Category.bounds.OverflowsAt (.resumed n) m := by
  rintro _ ⟨⟩ object o s hopen ho
  exact (h.bind _).of_eq (subscript_of_primary hopen ho hstart)

/-- A slice that overflows behind its first bound, which may overflow already. -/
theorem behindStart_overflows (ha : Derives q v o (.bound a))
    (ho : o.kind ∈ [.symbol .colon, .symbol .alt]) (hv : s.Reads v m) (hcurrent : m.current = o)
    (h : ∀ object, (slice (run (n - 1)) object a).Overflows m) :
    Category.bounds.OverflowsAt (.resumed n) s := by
  rintro _ ⟨⟩ object p s' hopen hp
  have hcolon : m.current.kind ∈ [.symbol .colon, .symbol .alt] := by rw [hcurrent]; exact ho
  have hslice : (run n (.slice object a)).Overflows m := overflows_run (.slice object a) (h object)
  cases ha with
  | leftOut =>
      obtain rfl := State.reads_nil.1 hv
      rw [← hcurrent] at hslice
      exact (Overflows.bind_of_ok hslice rfl).of_eq (subscript_of_colon hopen hp hcolon)
  | bound ha =>
      obtain ⟨k, hr, hq⟩ := Room.exists_plain_ge (.resumed n) q
      have hprimary := ((ha.mono hq).parsed s m hv hcurrent).primary (Int.le_refl _)
      refine .of_eq ?_ (subscript_of_primary hopen hp ((ha.current_of_expression hv).2 (by decide)))
      refine (run_approximates hr.2.2 .primary).overflows_bind hprimary ?_
      exact hslice.of_eq (behindPrimary_of_colon hcolon)

/-- A bound behind a colon is read by a routine of its own. -/
theorem sliceBound_overflows (hstart : m.current.kind ∈ primaryStarts)
    (h : (run (n - 2) .primary).Overflows m) : (run (n - 1) .sliceBound).Overflows m := by
  have hcheck : check primaryStarts m = .ok true m := by simpa [check] using hstart
  refine overflows_run .sliceBound ?_
  rw [Routine.body, sliceBound, Nat.sub_sub]
  refine .bind_of_ok ?_ hcheck
  exact h

/-- The second bound of a slice. -/
theorem stop_overflows (ha : Derives q v o (.bound a)) (ho : o.kind = .symbol .colon)
    (hreads : s.Reads (v ++ [o]) m) (hstart : m.current.kind ∈ primaryStarts)
    (h : (run (n - 2) .primary).Overflows m) : Category.bounds.OverflowsAt (.resumed n) s := by
  obtain ⟨s₁, hv, hcolon⟩ := State.reads_append.1 hreads
  have hcolon := State.reads_singleton.1 hcolon
  have hcheck : check [.symbol .alt] s₁ = .ok false s₁ := by simp [check, hcolon.1, ho]
  refine behindStart_overflows ha (by simp [ho]) hv hcolon.1 fun object => ?_
  rw [slice]
  refine .bind_of_ok ?_ hcheck
  exact .bind_of_ok ((sliceBound_overflows hstart h).bind _) (expect_of_steps hcolon (by simp [ho]))

/-- The third bound of a slice, behind the second one. -/
theorem step_overflows {q' : Room} (ha : Derives q u o (.bound a)) (ho : o.kind = .symbol .colon)
    (hb : Derives q' v p (.bound b)) (hp : p.kind = .symbol .colon)
    (hreads : s.Reads (u ++ o :: (v ++ [p])) m) (hstart : m.current.kind ∈ primaryStarts)
    (h : (run (n - 2) .primary).Overflows m) : Category.bounds.OverflowsAt (.resumed n) s := by
  obtain ⟨s₁, hu, s₂, hcolon, hreads⟩ := State.reads_append.1 hreads
  obtain ⟨s₃, hv, hsecond⟩ := State.reads_append.1 hreads
  have hsecond := State.reads_singleton.1 hsecond
  obtain ⟨k, hn, hq⟩ := Room.exists_plain_ge (.resumed n) q'
  have hbound := (hb.mono hq).mono (Room.plain_le_resumed (Nat.le_refl k))
  have hstop : run (k + 1) .sliceBound s₂ = .ok b s₃ := sliceBound_of_parsed (n := k + 2)
    (by omega) hbound.parsed hv hsecond.1 (not_primaryStart _ (by simp [hp]))
  have hcheck : check [.symbol .alt] s₁ = .ok false s₁ := by simp [check, hcolon.1, ho]
  have haccept : accept [.symbol .colon] s₃ = .ok (some p) m :=
    accept_of_steps hsecond (by simp [hp])
  have hle : n - 1 ≤ k + 1 := by
    have hn : n ≤ k := hn.1
    omega
  refine behindStart_overflows ha (by simp [ho]) hu hcolon.1 fun object => ?_
  rw [slice]
  refine .bind_of_ok ?_ hcheck
  refine .bind_of_ok ?_ (expect_of_steps hcolon (by simp [ho]))
  refine (run_approximates hle .sliceBound).overflows_bind hstop ?_
  exact .bind_of_ok ((sliceBound_overflows hstart h).bind _) haccept

/-- The third bound of a slice, behind a double colon. -/
theorem outerStep_overflows (ha : Derives q v o (.bound a)) (ho : o.kind = .symbol .alt)
    (hreads : s.Reads (v ++ [o]) m) (hstart : m.current.kind ∈ primaryStarts)
    (h : (run (n - 2) .primary).Overflows m) : Category.bounds.OverflowsAt (.resumed n) s := by
  obtain ⟨s₁, hv, hcolons⟩ := State.reads_append.1 hreads
  have hcolons := State.reads_singleton.1 hcolons
  have hcheck : check [.symbol .alt] s₁ = .ok true s₁ := by simp [check, hcolons.1, ho]
  refine behindStart_overflows ha (by simp [ho]) hv hcolons.1 fun object => ?_
  rw [slice]
  refine .bind_of_ok ?_ hcheck
  refine .bind_of_ok (m := s₁) ?_ rfl
  exact .bind_of_ok ((sliceBound_overflows hstart h).bind _) hcolons.2.2

/-! ### Series -/

/-- An item that is an expression. -/
theorem item_overflows {k : Series} (hk : k ≠ .entries)
    (h : OverflowsAt r Level.conditional s) : (Category.item k).OverflowsAt r s := by
  rintro n rfl
  cases k with
  | arguments | elements => exact h.run_expression
  | entries => exact absurd rfl hk

/-- The value of an entry, behind its key. -/
theorem value_overflows {key : Token} (hkey : key.kind = .identifier ∨ key.kind = .string)
    (ho : o.kind = .symbol .colon) (hreads : s.Reads [key, o] m)
    (h : OverflowsAt r Level.conditional m) : (Category.item .entries).OverflowsAt r s := by
  rintro n rfl
  obtain ⟨s₁, hword, hreads⟩ := hreads
  have hcolon := State.reads_singleton.1 hreads
  have hexpect : expect [.identifier, .string] s = .ok key s₁ :=
    expect_of_steps hword (by simpa using hkey)
  rw [Series.rule, mapEntry]
  refine .bind_of_ok ?_ hexpect
  refine .bind_of_ok ?_ (finish_of_steps hword)
  exact .bind_of_ok (h.run_expression.bind _) (expect_of_steps hcolon (by simp [ho]))

/-- The first item of a series, if it is not the end of it. -/
theorem firstItem_overflows {k : Series} (hstart : s.current.kind.StartsExpression)
    (h : (Category.item k).OverflowsAt r s) : (Category.series k).OverflowsAt r s := by
  rintro n rfl
  have hrule := h n rfl
  refine ⟨(hrule.bind _).of_eq (whole_of_start hstart), fun o p hsteps ho => ?_⟩
  exact ((hrule.map some).of_eq (step_of_start hsteps ho hstart)).collect

/-- The rule for the items of a series does what its expressions do. -/
theorem rule_approximates {call call' : Routine → Parse Node} (h : CallsApproximate call call')
    (k : Series) : (k.rule call).Approximates (k.rule call') := by
  cases k with
  | arguments | elements => exact h (.expression none)
  | entries => exact mapEntry_approximates h

/-- What stands behind an item and a comma. The item may overflow already. -/
theorem moreItems_overflows {k : Series} (hitem : Derives q v o (.item k t))
    (ho : o.kind = .symbol .comma) (hreads : s.Reads (v ++ [o]) m)
    (h : (Category.series k).OverflowsAt r m) : (Category.series k).OverflowsAt r s := by
  rintro n rfl
  obtain ⟨s₁, hv, hcomma⟩ := State.reads_append.1 hreads
  have hcomma := State.reads_singleton.1 hcomma
  obtain ⟨l, hn, hq⟩ := Room.exists_plain_ge (.plain n) q
  have hstart := hitem.current_of_item hv
  have hrule := (hitem.mono hq).parsed l rfl s s₁ hv hcomma.1
    (stops_of_extension? (by rw [ho]; rfl))
  have hless : (k.rule (run n)).Approximates (k.rule (run l)) :=
    rule_approximates (run_approximates hn.1) k
  have hrest := (h n rfl).2 o s₁ hcomma ho
  refine ⟨.of_eq (hless.overflows_bind hrule (hrest.bind _)) (whole_of_start hstart),
    fun o' p hsteps ho' => ?_⟩
  exact hless.overflows_collect hrule (step_of_start hsteps ho' hstart)
    (State.Reads.pending_lt (.cons hsteps hv) (by simp)) hrest

/-! ### Statements -/

/-- The statements of a block. -/
theorem block_overflows (ho : o.kind = .symbol .lbrace) (hopen : s.Steps o m)
    (h : Category.statements.OverflowsAt (.plain (r.expression - 2)) m) :
    Category.statement.OverflowsAt r s := by
  rintro n rfl
  have hcheck : check [.symbol .lbrace] s = .ok true s := by simp [check, hopen.1, ho]
  have hroom : Room.plain (n - 1 - 2) = .plain (n - 2 - 1) := by rw [Nat.sub_sub, Nat.sub_sub]
  have hstatements := h (n - 2) hroom [.symbol .rbrace, .endOfInput] (by decide)
  have hblock : (run (n - 1) .block).Overflows s := by
    refine overflows_run .block ?_
    rw [Routine.body, block, Nat.sub_sub]
    exact .bind_of_ok (hstatements.bind _) (expect_of_steps hopen (by simp [ho]))
  refine overflows_run .statement ?_
  rw [Routine.body, statement]
  refine .bind_of_ok ?_ hcheck
  exact hblock

/-- The expression that a statement starts with. -/
theorem bare_overflows (hstart : s.current.kind.StartsExpression)
    (h : OverflowsAt r Level.conditional s) : Category.statement.OverflowsAt r s := by
  rintro n rfl
  refine overflows_run .statement ?_
  rw [Routine.body, statement]
  refine .bind_of_ok ?_ (check_lbrace_of_start hstart)
  exact h.run_expression.bind _

/-- The first statement in a block or a program, if it is not the end of it. -/
theorem firstStatement_overflows
    (hstart : s.current.kind.StartsExpression ∨ s.current.kind = .symbol .lbrace)
    (h : Category.statement.OverflowsAt r s) : Category.statements.OverflowsAt r s := by
  rintro n rfl stop hstop
  refine Overflows.collect (.bind_of_ok ?_ (check_stop_of_start hstop hstart))
  exact (h n rfl).map some

/-- What stands behind a statement, which may overflow already. -/
theorem moreStatements_overflows (hfirst : Derives q v m.current (.statement t))
    (hreads : s.Reads v m) (h : Category.statements.OverflowsAt r m) :
    Category.statements.OverflowsAt r s := by
  rintro n rfl stop hstop
  obtain ⟨l, hn, hq⟩ := Room.exists_plain_ge (.plain n) q
  have hle : n ≤ l + 1 := Nat.le_succ_of_le hn.1
  have hcheck := check_stop_of_start hstop (hfirst.current_of_statement hreads)
  have hstatement : run (l + 1) .statement s = .ok t m :=
    (hfirst.mono hq).parsed (l + 1) rfl s m hreads rfl
  exact (run_approximates hle .statement).overflows_collect hstatement (bind_of_ok hcheck)
    (hreads.pending_lt hfirst.ne_nil_of_statement) (h n rfl stop hstop)

end Parser

/-! ### Fronts -/

section

variable {d k n : Nat} {r : Room} {u w : List Token} {x : Token} {b c : Category}
  {s s' m : Parser.State}

/-- A phrase overflows if a part of it does wherever there is so little room. A part one level
further in has a frame less at least than the phrase that holds it. -/
theorem Front.overflows (h : Front d u m.current b c) (hstart : c.StartsWith m.current.kind)
    (hreads : s.Reads u m) (hr : r ≤ .resumed (n + d))
    (hpart : ∀ q, q ≤ .resumed n → c.OverflowsAt q m) : b.OverflowsAt r s := by
  have hexpression : r.expression ≤ n + d := hr.1
  have hsuffixed : r.suffixed ≤ n + d := hr.2.1
  have hprimary : r.primary ≤ n + d := hr.2.2
  have hplain {i : Nat} (hi : i ≤ n) : c.OverflowsAt (.plain i) m :=
    hpart _ (Room.plain_le_resumed hi)
  have hresumed {i : Nat} (hi : i ≤ n) : c.OverflowsAt (.resumed i) m :=
    hpart _ (Room.resumed_mono hi)
  cases h with
  | looser hl =>
      obtain rfl := Parser.State.reads_nil.1 hreads
      exact Parser.OverflowsAt.looser (hpart r hr) hl
  | group ho =>
      exact Parser.group_overflows ho (Parser.State.reads_singleton.1 hreads) (hplain (by omega))
  | array ho =>
      exact Parser.array_overflows ho (Parser.State.reads_singleton.1 hreads) (hplain (by omega))
  | map ho =>
      exact Parser.map_overflows ho (Parser.State.reads_singleton.1 hreads) (hplain (by omega))
  | arguments ha ho => exact Parser.arguments_overflows ha ho hreads (hplain (by omega))
  | index ha ho =>
      exact Parser.subscript_overflows ha ho hreads
        (Parser.index_overflows hstart.1 (hresumed (by omega)))
  | slice ha ho => exact Parser.subscript_overflows ha ho hreads (hresumed (by omega))
  | operand ho =>
      exact Parser.operand_overflows ho (Parser.State.reads_singleton.1 hreads)
        (hplain hexpression)
  | collection ho =>
      exact Parser.collection_overflows ho (Parser.State.reads_singleton.1 hreads)
        (hplain hexpression)
  | transform ho ha hp => exact Parser.transform_overflows ho ha hp hreads (hplain (by omega))
  | right ha ho => exact Parser.right_overflows ha ho hreads (hplain (by omega))
  | consequence ha ho => exact Parser.consequence_overflows ha ho hreads (hplain (by omega))
  | alternative ha ho hb hp =>
      exact Parser.alternative_overflows ha ho hb hp hreads (hplain (by omega))
  | bound =>
      obtain rfl := Parser.State.reads_nil.1 hreads
      exact (hpart r hr).primary (Int.le_refl _)
  | start =>
      obtain rfl := Parser.State.reads_nil.1 hreads
      rintro i rfl
      exact Parser.start_overflows hstart (hresumed hprimary) i rfl
  | stop ha ho =>
      rintro i rfl
      have hi : i ≤ n := hprimary
      exact Parser.stop_overflows ha ho hreads hstart (hresumed (by omega)) i rfl
  | step ha ho hb hp =>
      rintro i rfl
      have hi : i ≤ n := hprimary
      exact Parser.step_overflows ha ho hb hp hreads hstart (hresumed (by omega)) i rfl
  | outerStep ha ho =>
      rintro i rfl
      have hi : i ≤ n := hprimary
      exact Parser.outerStep_overflows ha ho hreads hstart (hresumed (by omega)) i rfl
  | item hs =>
      obtain rfl := Parser.State.reads_nil.1 hreads
      exact Parser.item_overflows hs (hpart r hr)
  | value hkey ho =>
      exact Parser.value_overflows hkey ho hreads (hpart r hr)
  | firstItem =>
      obtain rfl := Parser.State.reads_nil.1 hreads
      exact Parser.firstItem_overflows hstart (hpart r hr)
  | moreItems hitem ho =>
      exact Parser.moreItems_overflows hitem ho hreads
        (hpart r hr)
  | block ho =>
      exact Parser.block_overflows ho (Parser.State.reads_singleton.1 hreads) (hplain (by omega))
  | bare =>
      obtain rfl := Parser.State.reads_nil.1 hreads
      exact Parser.bare_overflows hstart.1 (hpart r hr)
  | firstStatement =>
      obtain rfl := Parser.State.reads_nil.1 hreads
      exact Parser.firstStatement_overflows hstart (hpart r hr)
  | moreStatements h =>
      exact Parser.moreStatements_overflows h hreads (hpart r hr)

/-- Without a frame for it, whatever takes a level overflows. -/
theorem Category.TakesLevel.overflows (h : c.TakesLevel) (hr : r ≤ .resumed 0) :
    c.OverflowsAt r s := by
  cases c with
  | expression least => exact Parser.OverflowsAt.of_no_frame hr
  | statement =>
      rintro n rfl
      have hn : n - 1 = 0 := Nat.le_zero.1 hr.1
      refine Parser.overflows_run .statement ?_
      rw [hn, Routine.body, Parser.statement]
      refine .bind_of_ok (m := s) ?_ rfl
      split <;> exact ⟨s, rfl⟩
  | _ => cases h

/-- Where tokens lead as far in as there are frames, the parser overflows. -/
theorem Leads.overflows (h : Leads k w x b c) (hlevel : c.TakesLevel) (hstart : c.StartsWith x.kind)
    (hr : r ≤ .resumed k) (hreads : s.Reads w s') (hx : s'.current = x) : b.OverflowsAt r s := by
  induction h generalizing r s with
  | here => exact hlevel.overflows hr
  | @inside d k u v x b c e hfront h ih =>
      obtain ⟨m, hu, hv⟩ := Parser.State.reads_append.1 hreads
      have hcurrent : m.current = v.headD x := by rw [hv.current_eq, hx]
      rw [← hcurrent] at hfront
      exact hfront.overflows (hcurrent ▸ h.startsWith hstart) hu hr
        fun q hq => ih hlevel hstart hq hv hx

end

end Sigil
