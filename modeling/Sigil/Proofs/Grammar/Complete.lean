import Sigil.Proofs.Grammar.Basic
import Sigil.Proofs.Parser.Rules

/-!
# What is in the grammar is accepted

Wherever the tokens of a phrase are ahead, the routine for the phrase consumes exactly them and
gives the tree of the phrase, if the token behind them does not carry the phrase on and there are as
many frames as the phrase has room.

The grammar builds chains of suffixes and of binary operators from the left, and the parser repeats
a step on the operand built so far. So the routines for such chains are not said to give the tree
and stop: they get as far as the repetition that goes on with the tree (`ParsedAt`). In that form a
longer chain is one step of the repetition, and the token behind decides whether there is another.

A phrase may be read by one routine from its start, or in the content of a subscript by one routine
after the other. What both have in common is said in terms of the repetitions and the first operand
(`firstOperand`), with the frames that the room has for each of them.

## Main definitions

* `Parser.firstOperand`: how the first operand of an expression is read.
* `Parser.ParsedAt`: how far the routines for expressions get.

## Main results

* `Derives.parsed`: the routine for a phrase consumes the tokens of the phrase.
* `Parser.programWith_complete`: with enough room a program of the grammar is parsed.
-/

namespace Sigil

open Parse

namespace Parser

variable {n : Nat} {r : Room} {s m s' : State} {call : Routine → Parse Node} {t : Node}
  {least k : Int}

/-! ### Where repetitions stop -/

/-- No suffix starts at a token that stops operands. -/
theorem suffix?_of_stops (h : s.current.kind.Stops Level.unary) :
    suffix? call t s = .ok none s := by
  simp only [suffix?, bind, EStateM.bind, current]
  generalize s.current.kind = kind at h ⊢
  split
  · exact absurd (h _ rfl) (by decide)
  · exact absurd (h _ rfl) (by decide)
  · exact absurd (h _ rfl) (by decide)
  · rfl

/-- No operator that is tight enough starts at a token that stops them. -/
theorem operation?_of_stops (h : s.current.kind.Stops least) :
    operation? call least t s = .ok none s := by
  simp only [operation?, bind, EStateM.bind, current]
  cases hbinary : binary? s.current.kind with
  | none => rfl
  | some operator =>
      obtain ⟨level, kind⟩ := operator
      have hlt := h level (TokenKind.extension?_of_binary? hbinary)
      simp only [Int.not_le.2 hlt, if_false]
      rfl

/-- No branches start at a token that stops expressions. -/
theorem branches_of_stops (h : s.current.kind.Stops Level.conditional) :
    branches call t s = .ok t s := by
  have hcond : s.current.kind ∉ [.symbol .cond] := by
    intro hmem
    rw [List.mem_singleton] at hmem
    rw [hmem] at h
    exact absurd (h _ rfl) (by decide)
  rw [branches, bind_of_ok (accept_of_not_mem hcond)]
  rfl

/-! ### How far the routines for expressions get -/

/-- The repetition over suffixes, with the frames that the room has for it. -/
def suffixes (r : Room) (t : Node) : Parse Node :=
  iterate (suffix? (run (r.suffixed - 1))) t

/-- The repetition over binary operators, with the frames that the room has for it. The routine for
the expression and the one for the operators are on the stack. -/
def operations (r : Room) (least : Int) (t : Node) : Parse Node :=
  iterate (operation? (run (r.expression - 2)) least) t

/-- The repetition over suffixes gets from the operand `a` at `s` to `t` at `s'`. -/
def SuffixesTo (r : Room) (a : Node) (s : State) (t : Node) (s' : State) : Prop :=
  Iterates (suffix? (run (r.suffixed - 1))) a s t s'

/-- The repetition over binary operators gets from the operand `a` at `s` to `t` at `s'`. -/
def OperationsTo (r : Room) (least : Int) (a : Node) (s : State) (t : Node) (s' : State) : Prop :=
  Iterates (operation? (run (r.expression - 2)) least) a s t s'

/-- The first operand of an expression, with the frames that the room has for it: a primary with
its suffixes, or an operand that starts otherwise and is read by a routine of its own. -/
def firstOperand (r : Room) : Parse Node := do
  if ← check primaryStarts then run r.primary .primary >>= suffixes r
  else run (r.expression - 2) .unary

/-- From `s` the routines for expressions that ask for `k` or a looser level get to `s'` with the
expression `t`, and go on there if they are repetitions. -/
structure ParsedAt (r : Room) (k : Int) (t : Node) (s s' : State) : Prop where
  primary : Level.primary ≤ k → run r.primary .primary s = .ok t s'
  suffixed : Level.suffixed ≤ k → s.current.kind ∈ primaryStarts ∧ ∃ first m,
    run r.primary .primary s = .ok first m ∧ SuffixesTo r first m t s'
  unary : Level.unary ≤ k → s'.current.kind.Stops Level.unary → firstOperand r s = .ok t s'
  binary : ∀ least, Level.logicalOr ≤ least → least ≤ k → least ≤ Level.unary →
    s'.current.kind.Stops Level.unary → s'.current.kind.Stops (k + 1) →
    ∃ a m, firstOperand r s = .ok a m ∧ OperationsTo r least a m t s'
  expression : s'.current.kind.Stops Level.conditional →
    ∃ a m b m', firstOperand r s = .ok a m ∧ operations r Level.logicalOr a m = .ok b m' ∧
      branches (run (r.expression - 1)) b m' = .ok t s'

/-- Where a primary starts the first operand is it, with its suffixes. -/
theorem firstOperand_of_primaryStart (h : s.current.kind ∈ primaryStarts) :
    firstOperand r s = (run r.primary .primary >>= suffixes r) s := by
  simp only [firstOperand, bind, EStateM.bind, check, List.contains_iff_mem.2 h, if_true]

/-- Elsewhere it starts with an operator. -/
theorem firstOperand_of_other (h : s.current.kind ∉ primaryStarts) :
    firstOperand r s = run (r.expression - 2) .unary s := by
  simp only [firstOperand, bind, EStateM.bind, check, List.contains_iff_mem, h, if_false]

/-- The suffixes end at a token that stops operands. -/
theorem suffixes_of_stops (h : s.current.kind.Stops Level.unary) : suffixes r t s = .ok t s :=
  iterate_of_none (suffix?_of_stops h)

/-- The operators end at a token that stops them. -/
theorem operations_of_stops (h : s.current.kind.Stops least) : operations r least t s = .ok t s :=
  iterate_of_none (operation?_of_stops h)

namespace ParsedAt

/-- What is parsed as a tight expression is parsed as a looser one. -/
theorem looser {l : Int} (h : ParsedAt r k t s s') (hl : l ≤ k) : ParsedAt r l t s s' where
  primary h9 := h.primary (Int.le_trans h9 hl)
  suffixed h8 := h.suffixed (Int.le_trans h8 hl)
  unary h7 := h.unary (Int.le_trans h7 hl)
  binary least hle hlk htop hunary hstop :=
    h.binary least hle (Int.le_trans hlk hl) htop hunary (hstop.mono (by omega))
  expression := h.expression

/-- At the level of conditionals only whole expressions are asked for. -/
theorem of_expression (hk : k < Level.logicalOr)
    (h : s'.current.kind.Stops Level.conditional →
      ∃ a m b m', firstOperand r s = .ok a m ∧ operations r Level.logicalOr a m = .ok b m' ∧
        branches (run (r.expression - 1)) b m' = .ok t s') : ParsedAt r k t s s' where
  primary h9 := absurd (Int.lt_of_le_of_lt h9 hk) (by decide)
  suffixed h8 := absurd (Int.lt_of_le_of_lt h8 hk) (by decide)
  unary h7 := absurd (Int.lt_of_le_of_lt h7 hk) (by decide)
  binary least hle hlk := absurd (Int.lt_of_le_of_lt (Int.le_trans hle hlk) hk) (by decide)
  expression := h

/-- At the level of an operator it is parsed by a chain of operators, whatever looser level is asked
for. -/
theorem of_binary (hk : Level.logicalOr ≤ k) (htop : k < Level.unary)
    (h : ∀ least, Level.logicalOr ≤ least → least ≤ k → s'.current.kind.Stops Level.unary →
      s'.current.kind.Stops (k + 1) →
      ∃ a m, firstOperand r s = .ok a m ∧ OperationsTo r least a m t s') :
    ParsedAt r k t s s' where
  primary h9 := absurd (Int.lt_of_le_of_lt h9 htop) (by decide)
  suffixed h8 := absurd (Int.lt_of_le_of_lt h8 htop) (by decide)
  unary h7 := absurd (Int.lt_of_le_of_lt h7 htop) (by decide)
  binary least hle hlk _ := h least hle hlk
  expression hstop := by
    obtain ⟨a, m, hstart, hoperations⟩ := h Level.logicalOr (Int.le_refl _) hk
      (hstop.mono (by decide)) (hstop.mono (by simp only [Level.logicalOr, Level.conditional] at *
                                               omega))
    refine ⟨a, m, t, s', hstart, ?_, branches_of_stops hstop⟩
    exact hoperations.iterate_eq.trans (operations_of_stops (hstop.mono (by decide)))

/-- At the level of prefix operators it is the first operand of whatever is asked for. -/
theorem of_unary (hk : k = Level.unary)
    (h : s'.current.kind.Stops Level.unary → firstOperand r s = .ok t s') :
    ParsedAt r k t s s' := by
  have hlooser : ParsedAt r Level.multiplicative t s s' :=
    of_binary (by decide) (by decide) fun least _ _ hstop _ => ⟨t, s', h hstop, .here⟩
  subst hk
  exact {
    primary h9 := absurd h9 (by decide)
    suffixed h8 := absurd h8 (by decide)
    unary _ := h
    binary least _ _ _ hstop _ := ⟨t, s', h hstop, .here⟩
    expression := hlooser.expression }

/-- At the level of suffixes it is a primary and suffixes behind it. -/
theorem of_suffixed (hk : k = Level.suffixed) (hstart : s.current.kind ∈ primaryStarts)
    {first : Node} (hprimary : run r.primary .primary s = .ok first m)
    (h : SuffixesTo r first m t s') : ParsedAt r k t s s' := by
  have hlooser : ParsedAt r Level.unary t s s' := of_unary rfl fun hstop => by
    rw [firstOperand_of_primaryStart hstart, bind_of_ok hprimary]
    exact h.iterate_eq.trans (suffixes_of_stops hstop)
  subst hk
  exact {
    primary h9 := absurd h9 (by decide)
    suffixed _ := ⟨hstart, first, m, hprimary, h⟩
    unary _ := hlooser.unary (Int.le_refl _)
    binary least hle _ htop hstop _ := hlooser.binary least hle htop htop hstop
      (hstop.mono (by decide))
    expression := hlooser.expression }

/-- A primary is parsed whatever is asked for. -/
theorem of_primary (hstart : s.current.kind ∈ primaryStarts)
    (h : run r.primary .primary s = .ok t s') : ParsedAt r Level.primary t s s' := by
  have hlooser : ParsedAt r Level.suffixed t s s' := of_suffixed rfl hstart h .here
  exact {
    primary _ := h
    suffixed _ := hlooser.suffixed (Int.le_refl _)
    unary _ := hlooser.unary (by decide)
    binary least hle _ htop hstop _ := hlooser.binary least hle
      (Int.le_trans htop (by decide)) htop hstop (hstop.mono (by decide))
    expression := hlooser.expression }

end ParsedAt

/-! ### Phrases that are read from their start -/

/-- From its start a primary with its suffixes is read by the routine for them. -/
theorem run_suffixed_eq (n : Nat) :
    run (n - 4) (.suffixed none) = run (n - 5) .primary >>= suffixes (.plain n) :=
  run_suffixed_none (n - 4)

/-- The first operand is read by the routine for operands with operators in front of them. -/
theorem run_unary_eq (n : Nat) : run (n - 2) .unary = firstOperand (.plain n) := by
  funext s
  by_cases hstart : s.current.kind ∈ primaryStarts
  · rw [firstOperand_of_primaryStart hstart, run_unary_of_primaryStart hstart, Nat.sub_sub,
      run_suffixed_eq]
    rfl
  · rw [firstOperand_of_other hstart]
    rfl

/-- Behind the first operand the routine for binary operators goes on with them. -/
theorem run_binary_eq (n : Nat) (least : Int) :
    run (n - 1) (.binary least none) = firstOperand (.plain n) >>= operations (.plain n) least := by
  rw [run_binary_none, Nat.sub_sub, run_unary_eq]
  rfl

/-- The routine for expressions parses it, up to a token that does not go on with it. -/
theorem ParsedAt.run_expression (h : ParsedAt (.plain n) k t s s')
    (hstop : s'.current.kind.Stops Level.conditional) :
    run n (.expression none) s = .ok t s' := by
  obtain ⟨a, m, b, m', hfirst, hoperations, hbranches⟩ := h.expression hstop
  have hbinary : run (n - 1) (.binary Level.logicalOr none) s = .ok b m' := by
    rw [run_binary_eq, bind_of_ok hfirst, hoperations]
  rw [Parser.run_expression, bind_of_ok hbinary]
  exact hbranches

/-- The routine for unary expressions parses an operand, with the frames that are left there. -/
theorem ParsedAt.run_unary (h : ParsedAt (.plain n) k t s s') (hk : Level.unary ≤ k)
    (hstop : s'.current.kind.Stops Level.unary) : run (n - 2) .unary s = .ok t s' := by
  rw [run_unary_eq]
  exact h.unary hk hstop

/-- The routine for suffixed expressions parses one, with the frames that are left there. -/
theorem ParsedAt.run_suffixed (h : ParsedAt (.plain n) k t s s') (hk : Level.suffixed ≤ k)
    (hstop : s'.current.kind.Stops Level.unary) : run (n - 4) (.suffixed none) s = .ok t s' := by
  obtain ⟨-, first, m, hprimary, hsuffixes⟩ := h.suffixed hk
  rw [run_suffixed_eq]
  exact (bind_of_ok hprimary).trans (hsuffixes.iterate_eq.trans (suffixes_of_stops hstop))

/-- The routine for binary expressions parses one of its least level, with the frames that are left
there. -/
theorem ParsedAt.run_binary (h : ParsedAt (.plain n) k t s s') (hle : Level.logicalOr ≤ k)
    (htop : k ≤ Level.unary) (hstop : s'.current.kind.Stops k) :
    run (n - 1) (.binary k none) s = .ok t s' := by
  obtain ⟨a, m, hfirst, hoperations⟩ := h.binary k hle (Int.le_refl k) htop (hstop.mono htop)
    (hstop.mono (by omega))
  rw [run_binary_eq, bind_of_ok hfirst]
  exact hoperations.iterate_eq.trans (operations_of_stops hstop)

end Parser

/-! ### The current token in front of a phrase -/

namespace Derives

variable {r : Room} {w : List Token} {next : Token} {s s' : Parser.State}

/-- The first token of an expression is at the state that it is read from. -/
theorem current_of_expression {least : Int} {t : Node} (h : Derives r w next (.expression least t))
    (hreads : s.Reads w s') : s.current.kind.StartsExpression ∧
      (Level.suffixed ≤ least → s.current.kind ∈ Parser.primaryStarts) := by
  obtain ⟨o, v, rfl, hstart⟩ := h.opensWith
  rw [hreads.current_eq]
  exact hstart

/-- The first token of an item is at the state that it is read from. -/
theorem current_of_item {k : Series} {t : Node} (h : Derives r w next (.item k t))
    (hreads : s.Reads w s') : s.current.kind.StartsExpression := by
  obtain ⟨o, v, rfl, hstart⟩ := h.opensWith
  rw [hreads.current_eq]
  exact hstart

/-- The first token of a statement is at the state that it is read from. -/
theorem current_of_statement {t : Node} (h : Derives r w next (.statement t))
    (hreads : s.Reads w s') :
    s.current.kind.StartsExpression ∨ s.current.kind = .symbol .lbrace := by
  obtain ⟨o, v, rfl, hstart⟩ := h.opensWith
  rw [hreads.current_eq]
  exact hstart

end Derives

/-! ### What it is for a phrase to be parsed -/

namespace Series

/-- The mark behind a series. -/
def close : Series → Symbol
  | arguments => .rparen
  | elements => .rbracket
  | entries => .rbrace

/-- The rule for an item. -/
def rule (call : Routine → Parse Node) : Series → Parse Node
  | arguments | elements => call (.expression none)
  | entries => Parser.mapEntry call

/-- The rule for a whole series. -/
def whole (call : Routine → Parse Node) : Series → Parse (List Node)
  | arguments => Parser.arguments call
  | elements => Parser.items .rbracket (call (.expression none))
  | entries => Parser.items .rbrace (Parser.mapEntry call)

/-- The step of the repetition behind the first item. -/
def step (call : Routine → Parse Node) (k : Series) : Parse (Option Node) := do
  match ← accept [.symbol .comma] with
  | none => return none
  | some _ =>
    if k = .arguments then some <$> k.rule call
    else if ← check [.symbol k.close] then return none else some <$> k.rule call

/-- The rule for a series is the same for all kinds. -/
theorem whole_eq (call : Routine → Parse Node) (k : Series) :
    k.whole call = (do
      if ← check [.symbol k.close] then return []
      let first ← k.rule call
      let others ← collect (k.step call)
      return first :: others) := by
  cases k <;> rfl

end Series

/-- The routines for the phrase consume the tokens `w` in front of `next`. Whatever is not part of
an expression or of the bounds of a slice is read from its start. -/
def Phrase.Parsed (r : Room) (w : List Token) (next : Token) : Phrase → Prop
  | expression least t =>
      ∀ s s', s.Reads w s' → s'.current = next → Parser.ParsedAt r least t s s'
  | bound t =>
      (w = [] ∧ t = ⟨.absent, .none, [], ⟨next.position, next.position.offset⟩⟩) ∨
        (w.headD next).kind ∈ Parser.primaryStarts ∧
          ∀ s s', s.Reads w s' → s'.current = next → Parser.run r.primary .primary s = .ok t s'
  | bounds start stop step => ∀ n, r = .resumed n → 1 < n →
      ∀ (object : Node) (o : Token) (s m s' : Parser.State), s.Steps o m →
        o.kind = .symbol .lbracket → m.Reads (w ++ [next]) s' → next.kind = .symbol .rbracket →
          Parser.subscript (Parser.run n) object s =
            .ok ⟨.slice, .none, [object, start, stop, step], ⟨object.mark.start, next.stop⟩⟩ s'
  | item k t => ∀ n, r = .plain n → ∀ s s', s.Reads w s' → s'.current = next →
      next.kind.Stops Level.conditional → k.rule (Parser.run n) s = .ok t s'
  | series k ts => ∀ n, r = .plain n → ∀ s s', s.Reads w s' → s'.current = next →
      next.kind = .symbol k.close →
        k.whole (Parser.run n) s = .ok ts s' ∧
          ∀ o p, p.Steps o s → o.kind = .symbol .comma → (k = .arguments → ts ≠ []) →
            collect (k.step (Parser.run n)) p = .ok ts s'
  | statement t => ∀ n, r = .plain (n - 1) → ∀ s s', s.Reads w s' → s'.current = next →
      Parser.run n .statement s = .ok t s'
  | statements ts => ∀ n, r = .plain (n - 1) → ∀ stop s s', s.Reads w s' → s'.current = next →
      next.kind ∈ stop → (∀ kind ∈ stop, ¬ kind.StartsExpression ∧ kind ≠ .symbol .lbrace) →
        collect (do
          if ← check stop then return none else some <$> Parser.run n .statement) s = .ok ts s'

namespace Parser

variable {n : Nat} {r : Room} {u v w : List Token} {o p c next name key : Token} {t a b d : Node}
  {ts : List Node} {least level : Int} {kind : NodeKind}

/-- An expression that is read from its start. -/
theorem expression_of_parsed {s s' : State}
    (ih : (Phrase.expression Level.conditional t).Parsed (.plain n) w next) (hreads : s.Reads w s')
    (hnext : s'.current = next) (hstop : next.kind.Stops Level.conditional) :
    run n (.expression none) s = .ok t s' :=
  (ih s s' hreads hnext).run_expression (hnext ▸ hstop)

/-- A token that carries on no operand. -/
theorem stops_of_extension? {kind : TokenKind} (h : kind.extension? = none) : kind.Stops least :=
  fun level hlevel => by simp [h] at hlevel

/-! ### Primaries -/

/-- A literal is parsed by its first token. -/
theorem literal_parsed (hr : 0 < r.primary) (ho : literal? o.kind = some kind) :
    (Phrase.expression Level.primary
      ⟨kind, .text (literalText o), [], ⟨o.position, o.stop⟩⟩).Parsed r [o] next := by
  intro s s' hreads _
  have hsteps := State.reads_singleton.1 hreads
  refine .of_primary ?_ ?_
  · rw [hsteps.1]
    cases hkind : o.kind <;> simp [literal?, hkind] at ho <;> simp [primaryStarts]
  · rw [run_eq_body hr, Routine.body, primary_of_literal hsteps ho, finish_of_steps hsteps]

/-- An expression in parentheses is parsed with one frame less. -/
theorem group_parsed (ho : o.kind = .symbol .lparen)
    (ih : (Phrase.expression Level.conditional t).Parsed (.plain (r.primary - 1)) w c)
    (hc : c.kind = .symbol .rparen) :
    (Phrase.expression Level.primary t).Parsed r (o :: (w ++ [c])) next := by
  intro s s' hreads _
  obtain ⟨s₁, hopen, hreads⟩ := hreads
  obtain ⟨s₂, hw, hclose⟩ := State.reads_append.1 hreads
  have hclose := State.reads_singleton.1 hclose
  have hexpression := expression_of_parsed ih hw hclose.1 (stops_of_extension? (by rw [hc]; rfl))
  have hpos := pos_of_run hexpression
  refine .of_primary (by rw [hopen.1, ho]; decide) ?_
  rw [run_eq_body (by omega), Routine.body, primary_of_lparen hopen ho, bind_of_ok hexpression,
    bind_of_ok (expect_of_steps hclose (by simp [hc]))]
  rfl

/-- The items of an array are parsed with two frames less. -/
theorem array_parsed (hr : 1 < r.primary) (ho : o.kind = .symbol .arrayOpen)
    (ih : (Phrase.series .elements ts).Parsed (.plain (r.primary - 2)) w c)
    (hc : c.kind = .symbol .rbracket) :
    (Phrase.expression Level.primary
      ⟨.array, .none, ts, ⟨o.position, c.stop⟩⟩).Parsed r (o :: (w ++ [c])) next := by
  intro s s' hreads _
  obtain ⟨s₁, hopen, hreads⟩ := hreads
  obtain ⟨s₂, hw, hclose⟩ := State.reads_append.1 hreads
  have hclose := State.reads_singleton.1 hclose
  have hkind : s.current.kind = .symbol .arrayOpen := by rw [hopen.1, ho]
  have hitems : items .rbracket (run (r.primary - 2) (.expression none)) s₁ = .ok ts s₂ :=
    (ih _ rfl s₁ s₂ hw hclose.1 hc).1
  refine .of_primary (by rw [hkind]; decide) ?_
  rw [run_eq_body (by omega), Routine.body, primary_of_arrayOpen hkind, run_eq_body (by omega),
    Routine.body, Nat.sub_sub, array, bind_of_ok (expect_of_steps hopen (by simp [ho])),
    bind_of_ok hitems, bind_of_ok (expect_of_steps hclose (by simp [hc])),
    finish_of_steps hclose]

/-- The entries of a map are parsed with two frames less. -/
theorem map_parsed (hr : 1 < r.primary) (ho : o.kind = .symbol .mapOpen)
    (ih : (Phrase.series .entries ts).Parsed (.plain (r.primary - 2)) w c)
    (hc : c.kind = .symbol .rbrace) :
    (Phrase.expression Level.primary
      ⟨.map, .none, ts, ⟨o.position, c.stop⟩⟩).Parsed r (o :: (w ++ [c])) next := by
  intro s s' hreads _
  obtain ⟨s₁, hopen, hreads⟩ := hreads
  obtain ⟨s₂, hw, hclose⟩ := State.reads_append.1 hreads
  have hclose := State.reads_singleton.1 hclose
  have hkind : s.current.kind = .symbol .mapOpen := by rw [hopen.1, ho]
  have hitems : items .rbrace (mapEntry (run (r.primary - 2))) s₁ = .ok ts s₂ :=
    (ih _ rfl s₁ s₂ hw hclose.1 hc).1
  refine .of_primary (by rw [hkind]; decide) ?_
  rw [run_eq_body (by omega), Routine.body, primary_of_mapOpen hkind, run_eq_body (by omega),
    Routine.body, Nat.sub_sub, map, bind_of_ok (expect_of_steps hopen (by simp [ho])),
    bind_of_ok hitems, bind_of_ok (expect_of_steps hclose (by simp [hc])),
    finish_of_steps hclose]

/-! ### Suffixes -/

/-- A suffix behind an operand is one more step of the repetition. -/
theorem suffix_parsed {s s' : State} (hne : w ≠ [])
    (ih : (Phrase.expression Level.suffixed a).Parsed r v o)
    (hreads : s.Reads (v ++ w) s') (ho : w.head? = some o)
    (h : ∀ m, m.Reads w s' → suffix? (run (r.suffixed - 1)) a m = .ok (some t) s') :
    ParsedAt r Level.suffixed t s s' := by
  obtain ⟨m, hv, hw⟩ := State.reads_append.1 hreads
  have hcurrent : m.current = o := by
    rw [hw.current_eq, List.headD_eq_head?_getD, ho]
    rfl
  obtain ⟨hstart, first, m', hprimary, hsuffixes⟩ :=
    (ih s m hv hcurrent).suffixed (Int.le_refl _)
  exact .of_suffixed rfl hstart hprimary (hsuffixes.step (h m hw) (hw.pending_lt hne))

/-- The arguments are parsed by one more step of the repetition over suffixes. -/
theorem call_parsed (ihf : (Phrase.expression Level.suffixed a).Parsed r v o)
    (ho : o.kind = .symbol .lparen)
    (ih : (Phrase.series .arguments ts).Parsed (.plain (r.suffixed - 1)) w c)
    (hc : c.kind = .symbol .rparen) :
    (Phrase.expression Level.suffixed
      ⟨.call, .node a, ts, ⟨a.mark.start, c.stop⟩⟩).Parsed r (v ++ o :: (w ++ [c])) next := by
  intro s s' hreads _
  refine suffix_parsed (by simp) ihf hreads rfl fun m hreads => ?_
  obtain ⟨s₁, hopen, hreads⟩ := hreads
  obtain ⟨s₂, hw, hclose⟩ := State.reads_append.1 hreads
  have hclose := State.reads_singleton.1 hclose
  have harguments : arguments (run (r.suffixed - 1)) s₁ = .ok ts s₂ :=
    (ih _ rfl s₁ s₂ hw hclose.1 hc).1
  rw [suffix?_of_lparen hopen ho, bind_of_ok harguments,
    bind_of_ok (expect_of_steps hclose (by simp [hc])), map_of_ok (finish_of_steps hclose)]

/-- A member is one more step of the repetition over suffixes. -/
theorem member_parsed (iht : (Phrase.expression Level.suffixed a).Parsed r v o)
    (ho : o.kind = .symbol .dot) (hname : name.kind = .identifier) :
    (Phrase.expression Level.suffixed
      ⟨.member, .text name.text, [a], ⟨a.mark.start, name.stop⟩⟩).Parsed r
        (v ++ [o, name]) next := by
  intro s s' hreads _
  refine suffix_parsed (by simp) iht hreads rfl fun m hreads => ?_
  obtain ⟨s₁, hdot, hreads⟩ := hreads
  have hword := State.reads_singleton.1 hreads
  rw [suffix?_of_dot hdot ho, bind_of_ok (expect_of_steps hword (by simp [hname])),
    map_of_ok (finish_of_steps hword)]

/-- A subscript behind an operand is read by a routine of its own. -/
theorem suffix?_of_subscript {s m s' : State} (hr : 3 < r.suffixed) (hopen : s.Steps o m)
    (ho : o.kind = .symbol .lbracket)
    (h : subscript (run (r.suffixed - 2)) a s = .ok t s') :
    suffix? (run (r.suffixed - 1)) a s = .ok (some t) s' := by
  have hrun : run (r.suffixed - 1) (.subscript a) s = .ok t s' := by
    rw [run_eq_body (by omega), Nat.sub_sub]
    exact h
  rw [suffix?_of_lbracket (by rw [hopen.1, ho]), map_of_ok hrun]

/-- The bounds are parsed by the routine for subscripts, whether it starts with a primary or not. -/
theorem slice_parsed (hr : 3 < r.suffixed)
    (iht : (Phrase.expression Level.suffixed a).Parsed r v o)
    (ho : o.kind = .symbol .lbracket) {start stop step : Node}
    (ih : (Phrase.bounds start stop step).Parsed (.resumed (r.suffixed - 2)) w c)
    (hc : c.kind = .symbol .rbracket) :
    (Phrase.expression Level.suffixed
      ⟨.slice, .none, [a, start, stop, step], ⟨a.mark.start, c.stop⟩⟩).Parsed r
        (v ++ o :: (w ++ [c])) next := by
  intro s s' hreads _
  refine suffix_parsed (by simp) iht hreads rfl fun m hreads => ?_
  obtain ⟨s₁, hopen, hreads⟩ := hreads
  exact suffix?_of_subscript hr hopen ho (ih _ rfl (by omega) a o m s₁ s' hopen ho hreads hc)

/-- An index is not taken for a slice: if a colon followed its first primary, the index would be
that primary and no more. -/
theorem not_colon_of_starts {s m s' : State} {first : Node}
    (hsuffixes : suffixes r first s = .ok a m)
    (hoperations : ∃ m', operations r Level.logicalOr a m = .ok b m' ∧
      branches (run (r.expression - 1)) b m' = .ok t s')
    (hend : s'.current.kind ∉ [.symbol .colon, .symbol .alt]) :
    s.current.kind ∉ [.symbol .colon, .symbol .alt] := by
  have hcolons : ∀ kind ∈ [TokenKind.symbol .colon, .symbol .alt], kind.extension? = none := by
    decide
  intro hcolon
  obtain ⟨m', hoperations, hbranches⟩ := hoperations
  rw [suffixes_of_stops (stops_of_extension? (hcolons _ hcolon))] at hsuffixes
  cases hsuffixes
  rw [operations_of_stops (stops_of_extension? (hcolons _ hcolon))] at hoperations
  cases hoperations
  rw [branches_of_stops (stops_of_extension? (hcolons _ hcolon))] at hbranches
  cases hbranches
  exact hend hcolon

/-- The content of an index is read up to the closing bracket, if need be one routine after the
other. -/
theorem index_close {s m s' : State} (hn : 1 < n) (hopen : s.Steps o m)
    (ho : o.kind = .symbol .lbracket) (hstart : m.current.kind.StartsExpression)
    (h : ParsedAt (.resumed n) Level.conditional b m s')
    (hend : s'.current.kind = .symbol .rbracket) :
    subscript (run n) a s = subscript.close a b s' := by
  obtain ⟨x, m₁, y, m₂, hfirst, hoperations, hbranches⟩ :=
    h.expression (stops_of_extension? (by rw [hend]; rfl))
  have hbinary {l : Option Node} {m : State}
      (h : run (n - 1) (.binary Level.logicalOr l) m = .ok y m₂) :
      run n (.expression l) m = .ok b s' := by
    rw [run_expression, bind_of_ok h]
    exact hbranches
  by_cases hprimaryStart : m.current.kind ∈ primaryStarts
  · rw [firstOperand_of_primaryStart hprimaryStart] at hfirst
    obtain ⟨first, m₀, hprimary, hsuffixes⟩ := bind_eq_ok.1 hfirst
    have hprimary : run n .primary m = .ok first m₀ := hprimary
    have hcolon := not_colon_of_starts hsuffixes ⟨m₂, hoperations, hbranches⟩
      (by rw [hend]; decide)
    have hsuffixed : run n (.suffixed (some first)) m₀ = .ok x m₁ := by
      rw [run_eq_body (by omega)]
      exact hsuffixes
    have hexpression : run n (.expression (some x)) m₁ = .ok b s' := hbinary (by
      rw [run_eq_body (by omega), Nat.sub_sub]
      exact hoperations)
    rw [subscript_of_primary hopen ho hprimaryStart, bind_of_ok hprimary,
      behindPrimary_of_other hcolon, bind_of_ok hsuffixed, bind_of_ok hexpression]
  · rw [firstOperand_of_other hprimaryStart] at hfirst
    have hcolons : ∀ kind ∈ [TokenKind.symbol .colon, .symbol .alt], ¬ kind.StartsExpression := by
      decide
    have hexpression : run n (.expression none) m = .ok b s' := hbinary (by
      rw [run_binary_none, Nat.sub_sub]
      exact (bind_of_ok hfirst).trans hoperations)
    rw [subscript_of_other hopen ho (fun hmem => hcolons _ hmem hstart) hprimaryStart,
      bind_of_ok hexpression]

/-- An index is no slice: its first primary, if there is one, has no colon behind it. -/
theorem index_parsed (hr : 3 < r.suffixed)
    (iht : (Phrase.expression Level.suffixed a).Parsed r v o) (ho : o.kind = .symbol .lbracket)
    (hi : Derives (.resumed (r.suffixed - 2)) w c (.expression Level.conditional b))
    (ih : (Phrase.expression Level.conditional b).Parsed (.resumed (r.suffixed - 2)) w c)
    (hc : c.kind = .symbol .rbracket) :
    (Phrase.expression Level.suffixed
      ⟨.index, .none, [a, b], ⟨a.mark.start, c.stop⟩⟩).Parsed r
        (v ++ o :: (w ++ [c])) next := by
  intro s s' hreads _
  refine suffix_parsed (by simp) iht hreads rfl fun m hreads => ?_
  obtain ⟨s₁, hopen, hreads⟩ := hreads
  obtain ⟨s₂, hw, hclose⟩ := State.reads_append.1 hreads
  have hclose := State.reads_singleton.1 hclose
  have hstart := (hi.current_of_expression hw).1
  refine suffix?_of_subscript hr hopen ho ?_
  rw [index_close (by omega) hopen ho hstart (ih s₁ s₂ hw hclose.1) (by rw [hclose.1, hc]),
    subscript.close, bind_of_ok (expect_of_steps hclose (by simp [hc])), finish_of_steps hclose]

/-! ### Operators -/

/-- What starts an operator in front of an operand or an iteration starts no primary. -/
theorem not_primaryStart_of_unary {kind : TokenKind}
    (h : (prefixed? kind).isSome ∨ kind = .symbol .iter) : kind ∉ primaryStarts := by
  intro hmem
  obtain ⟨hnone, hiter⟩ := prefixed?_of_primaryStart kind hmem
  exact h.elim (fun hsome => by simp [hnone] at hsome) hiter

/-- The operators in front are collected, and the last one is applied first. -/
theorem prefixed_parsed (ho : prefixed? o.kind = some kind)
    (hd : Derives (.plain r.expression) w next (.expression Level.unary a))
    (ih : (Phrase.expression Level.unary a).Parsed (.plain r.expression) w next) :
    (Phrase.expression Level.unary
      ⟨kind, .text o.text, [a], ⟨o.position, lastStop w⟩⟩).Parsed r (o :: w) next := by
  intro s s' hreads hnext
  refine .of_unary rfl fun hstop => ?_
  obtain ⟨s₁, hsteps, hw⟩ := hreads
  have hunary := (ih s₁ s' hw hnext).run_unary (Int.le_refl _) hstop
  have hpos := pos_of_run hunary
  rw [run_eq_body hpos, Routine.body] at hunary
  rw [firstOperand_of_other (not_primaryStart_of_unary (.inl (by rw [hsteps.1, ho]; rfl))),
    run_eq_body hpos, Routine.body, unary_of_prefixed hsteps ho, bind_of_ok hunary,
    finish_of_reads hw hd.ne_nil_of_expression]

/-- An iteration is parsed by the routine for operands. -/
theorem iteration_parsed (ho : o.kind = .symbol .iter)
    (iha : (Phrase.expression Level.suffixed a).Parsed (.plain r.expression) v p)
    (hp : p.kind = .symbol .pipe)
    (hd : Derives (.plain (r.expression - 2)) w next (.expression Level.unary b))
    (ihb : (Phrase.expression Level.unary b).Parsed (.plain (r.expression - 2)) w next) :
    (Phrase.expression Level.unary ⟨.iteration, .none, [a, b], ⟨o.position, lastStop w⟩⟩).Parsed r
      (o :: (v ++ p :: w)) next := by
  intro s s' hreads hnext
  refine .of_unary rfl fun hstop => ?_
  obtain ⟨s₁, hiter, hreads⟩ := hreads
  obtain ⟨s₂, hv, s₃, hpipe, hw⟩ := State.reads_append.1 hreads
  have hcollection := (iha s₁ s₂ hv hpipe.1).run_suffixed (Int.le_refl _)
    (stops_of_extension? (by rw [hpipe.1, hp]; rfl))
  have htransform := (ihb s₃ s' hw hnext).run_unary (Int.le_refl _) hstop
  have hpos := pos_of_run hcollection
  rw [firstOperand_of_other (not_primaryStart_of_unary (.inr (by rw [hiter.1, ho]))),
    run_eq_body (by omega), Routine.body, unary_of_none (by rw [hiter.1, ho]; rfl),
    run_eq_body (by omega), Routine.body, operand_of_iter hiter ho, Nat.sub_sub, Nat.sub_sub,
    bind_of_ok hcollection, bind_of_ok (expect_of_steps hpipe (by simp [hp]))]
  rw [Nat.sub_sub] at htransform
  rw [bind_of_ok htransform, finish_of_reads hw hd.ne_nil_of_expression]

/-- The repetition of operations goes on with the operand in front of an operator. -/
theorem left_of_parsed {s m : State} (ih : (Phrase.expression level a).Parsed r v o)
    (ho : binary? o.kind = some (level, kind)) (hreads : s.Reads v m) (hm : m.current = o)
    (hle : Level.logicalOr ≤ least) (hlevel : least ≤ level) :
    ∃ x m', firstOperand r s = .ok x m' ∧ OperationsTo r least x m' a m := by
  have hhigh := level_lt_unary ho
  have hoperator {k : Int} (hk : level < k) : m.current.kind.Stops k := by
    intro l hl
    rw [hm, TokenKind.extension?_of_binary? ho] at hl
    cases hl
    exact hk
  exact (ih s m hreads hm).binary least hle hlevel (by omega) (hoperator hhigh)
    (hoperator (by omega))

/-- An operation on the operand built so far is one more step of the repetition. -/
theorem operation_parsed (iha : (Phrase.expression level a).Parsed r v o)
    (ho : binary? o.kind = some (level, kind))
    (hd : Derives (.plain (r.expression - 1)) w next (.expression (level + 1) b))
    (ihb : (Phrase.expression (level + 1) b).Parsed (.plain (r.expression - 1)) w next) :
    (Phrase.expression level
      ⟨kind, .text o.text, [a, b], ⟨a.mark.start, lastStop w⟩⟩).Parsed r (v ++ o :: w) next := by
  have hlow := TokenKind.logicalOr_le_of_binary? ho
  have hhigh := level_lt_unary ho
  intro s s' hreads hnext
  refine .of_binary hlow hhigh fun least hle hlevel _ hstops => ?_
  obtain ⟨s₁, hv, s₂, hsteps, hw⟩ := State.reads_append.1 hreads
  have hright := (ihb s₂ s' hw hnext).run_binary (by omega) hhigh hstops
  rw [Nat.sub_sub] at hright
  have hstep : operation? (run (r.expression - 2)) least a s₁ =
      .ok (some ⟨kind, .text o.text, [a, b], ⟨a.mark.start, lastStop w⟩⟩) s' := by
    rw [operation?_of_steps hsteps ho hlevel, bind_of_ok hright,
      map_of_ok (finish_of_reads hw hd.ne_nil_of_expression)]
  have hlt : s'.pending < s₁.pending :=
    State.Reads.pending_lt (.cons hsteps hw) (by simp)
  obtain ⟨x, m, hstart, hoperations⟩ := left_of_parsed iha ho hv hsteps.1 hle hlevel
  exact ⟨x, m, hstart, hoperations.step hstep hlt⟩

/-- The condition in front of the branches is consumed up to the sign behind it. -/
theorem condition_of_parsed {s m : State}
    (ih : (Phrase.expression Level.logicalOr a).Parsed r u o) (ho : o.kind = .symbol .cond)
    (hreads : s.Reads u m) (hm : m.current = o) :
    ∃ x m', firstOperand r s = .ok x m' ∧ operations r Level.logicalOr x m' = .ok a m := by
  have hsign {k : Int} (hk : Level.conditional < k) : m.current.kind.Stops k := by
    intro l hl
    rw [hm, ho] at hl
    cases hl
    exact hk
  obtain ⟨x, m', hstart, hoperations⟩ := (ih s m hreads hm).binary Level.logicalOr
    (Int.le_refl _) (Int.le_refl _) (by decide) (hsign (by decide)) (hsign (by decide))
  exact ⟨x, m', hstart, hoperations.iterate_eq.trans (operations_of_stops (hsign (by decide)))⟩

/-- The branches are parsed behind a condition that is parsed up to its mark. -/
theorem conditional_parsed (iha : (Phrase.expression Level.logicalOr a).Parsed r u o)
    (ho : o.kind = .symbol .cond)
    (ihb : (Phrase.expression Level.conditional b).Parsed (.plain (r.expression - 1)) v p)
    (hp : p.kind = .symbol .alt)
    (hd : Derives (.plain (r.expression - 1)) w next (.expression Level.conditional d))
    (ihd : (Phrase.expression Level.conditional d).Parsed (.plain (r.expression - 1)) w next) :
    (Phrase.expression Level.conditional
      ⟨.conditional, .none, [a, b, d], ⟨a.mark.start, lastStop w⟩⟩).Parsed r
        (u ++ o :: (v ++ p :: w)) next := by
  intro s s' hreads hnext
  refine .of_expression (by decide) fun hstop => ?_
  obtain ⟨s₁, hu, s₂, hcond, hreads⟩ := State.reads_append.1 hreads
  obtain ⟨s₃, hv, s₄, halt, hw⟩ := State.reads_append.1 hreads
  obtain ⟨x, m, hstart, hoperations⟩ := condition_of_parsed iha ho hu hcond.1
  have hconsequence := expression_of_parsed ihb hv halt.1 (stops_of_extension? (by rw [hp]; rfl))
  have halternative := expression_of_parsed ihd hw hnext (hnext ▸ hstop)
  have hexpect : expect [.symbol .alt] s₃ = .ok p s₄ := expect_of_steps halt (by simp [hp])
  have haccept : accept [.symbol .cond] s₁ = .ok (some o) s₂ :=
    accept_of_steps hcond (by simp [ho])
  refine ⟨x, m, a, s₁, hstart, hoperations, ?_⟩
  rw [branches, bind_of_ok haccept]
  change (run (r.expression - 1) (.expression none) >>= _) s₂ = _
  rw [bind_of_ok hconsequence, bind_of_ok hexpect, bind_of_ok halternative,
    finish_of_reads hw hd.ne_nil_of_expression]

/-! ### The bounds of a slice -/

/-- No primary starts where a bound is left out. -/
theorem not_primaryStart : ∀ kind ∈ [TokenKind.symbol .rbracket, .symbol .colon],
    kind ∉ primaryStarts := by
  decide

/-- A bound of a slice is consumed in front of a token that starts no primary. The routine for the
slice and the one for the bound are on the stack. -/
theorem sliceBound_of_parsed {s s' : State} (hn : 1 < n)
    (ih : (Phrase.bound t).Parsed (.resumed (n - 2)) w next) (hreads : s.Reads w s')
    (hnext : s'.current = next) (hstart : next.kind ∉ primaryStarts) :
    run (n - 1) .sliceBound s = .ok t s' := by
  rw [run_eq_body (by omega), Nat.sub_sub]
  obtain ⟨rfl, rfl⟩ | ⟨hopen, hprimary⟩ := ih
  · obtain rfl := State.reads_nil.1 hreads
    rw [← hnext] at hstart ⊢
    simp only [Routine.body, sliceBound, bind, EStateM.bind, check, List.contains_iff_mem, hstart,
      if_false]
    rfl
  · have hcurrent : s.current.kind ∈ primaryStarts := by
      rw [hreads.current_eq, hnext]
      exact hopen
    simp only [Routine.body, sliceBound, bind, EStateM.bind, check, List.contains_iff_mem, hcurrent,
      if_true]
    exact hprimary s s' hreads hnext

/-- A subscript with a bound and a colon in front is a slice. -/
theorem subscript_of_bound {s m m' : State} {start : Node} (hn : 1 < n)
    (ih : (Phrase.bound start).Parsed (.resumed n) v o)
    (ho : o.kind ∈ [.symbol .colon, .symbol .alt]) (hopen : s.Steps p m)
    (hp : p.kind = .symbol .lbracket) (hv : m.Reads v m') (hcurrent : m'.current = o) :
    subscript (run n) a s = slice (run (n - 1)) a start m' := by
  have hcolon : m'.current.kind ∈ [.symbol .colon, .symbol .alt] := by rw [hcurrent]; exact ho
  have hslice : run n (.slice a start) = slice (run (n - 1)) a start :=
    run_eq_body (by omega)
  obtain ⟨rfl, rfl⟩ | ⟨hstart, hprimary⟩ := ih
  · obtain rfl := State.reads_nil.1 hv
    have habsent : absent m' = .ok ⟨.absent, .none, [], ⟨o.position, o.position.offset⟩⟩ m' := by
      rw [← hcurrent]
      rfl
    rw [subscript_of_colon hopen hp hcolon, bind_of_ok habsent, hslice]
  · have hprimaryStart : m.current.kind ∈ primaryStarts := by
      rw [hv.current_eq, hcurrent]
      exact hstart
    have hfirst : run n .primary m = .ok start m' := hprimary m m' hv hcurrent
    rw [subscript_of_primary hopen hp hprimaryStart, bind_of_ok hfirst,
      behindPrimary_of_colon hcolon, hslice]

/-- The closing bracket of a slice. -/
theorem slice_close {s s' : State} {start stop step : Node} (hclose : s.Steps c s')
    (hc : c.kind = .symbol .rbracket) :
    slice.close a start stop step s =
      .ok ⟨.slice, .none, [a, start, stop, step], ⟨a.mark.start, c.stop⟩⟩ s' := by
  rw [slice.close, bind_of_ok (expect_of_steps hclose (by simp [hc])), finish_of_steps hclose]

/-- The rest of a slice behind the colon in front of its second bound. -/
theorem slice_of_colon {call : Routine → Parse Node} {s m m' : State} {start stop : Node}
    (hcolon : s.Steps o m) (ho : o.kind = .symbol .colon)
    (hstop : call .sliceBound m = .ok stop m') :
    slice call a start s = (do
      let step ← match ← accept [.symbol .colon] with
        | some _ => call .sliceBound
        | none => absent
      slice.close a start stop step) m' := by
  have hcheck : check [.symbol .alt] s = .ok false s := by simp [check, hcolon.1, ho]
  have hexpect : expect [.symbol .colon] s = .ok o m := expect_of_steps hcolon (by simp [ho])
  rw [slice, bind_of_ok hcheck]
  change (expect [.symbol .colon] >>= _) s = _
  rw [bind_of_ok hexpect]
  exact bind_of_ok hstop

/-- Two bounds are parsed up to the closing bracket. -/
theorem twoBounds_parsed (iha : (Phrase.bound a).Parsed r v o) (ho : o.kind = .symbol .colon)
    (ihb : (Phrase.bound b).Parsed (.resumed (r.primary - 2)) w next) :
    (Phrase.bounds a b
      ⟨.absent, .none, [], ⟨next.position, next.position.offset⟩⟩).Parsed r (v ++ o :: w) next := by
  rintro n rfl hn object p s m s' hopen hp hreads hnext
  rw [List.append_assoc] at hreads
  obtain ⟨s₁, hv, s₂, hcolon, hreads⟩ := State.reads_append.1 hreads
  obtain ⟨s₃, hw, hclose⟩ := State.reads_append.1 hreads
  have hclose := State.reads_singleton.1 hclose
  have hstop := sliceBound_of_parsed hn ihb hw hclose.1 (not_primaryStart _ (by simp [hnext]))
  have haccept : accept [.symbol .colon] s₃ = .ok none s₃ :=
    accept_of_not_mem (by simp [hclose.1, hnext])
  have hstep : absent s₃ =
      .ok ⟨.absent, .none, [], ⟨next.position, next.position.offset⟩⟩ s₃ := by
    rw [← hclose.1]
    rfl
  rw [subscript_of_bound hn iha (by simp [ho]) hopen hp hv hcolon.1,
    slice_of_colon hcolon ho hstop, bind_of_ok haccept]
  change (absent >>= _) s₃ = _
  rw [bind_of_ok hstep]
  exact slice_close hclose hnext

/-- Three bounds are parsed, a colon in front of each but the first. -/
theorem threeBounds_parsed (iha : (Phrase.bound a).Parsed r u o) (ho : o.kind = .symbol .colon)
    (ihb : (Phrase.bound b).Parsed (.resumed (r.primary - 2)) v p) (hp : p.kind = .symbol .colon)
    (ihd : (Phrase.bound d).Parsed (.resumed (r.primary - 2)) w next) :
    (Phrase.bounds a b d).Parsed r (u ++ o :: (v ++ p :: w)) next := by
  rintro n rfl hn object q s m s' hopen hq hreads hnext
  rw [List.append_assoc, List.cons_append, List.append_assoc] at hreads
  obtain ⟨s₁, hu, s₂, hcolon, hreads⟩ := State.reads_append.1 hreads
  obtain ⟨s₃, hv, s₄, hsecond, hreads⟩ := State.reads_append.1 hreads
  obtain ⟨s₅, hw, hclose⟩ := State.reads_append.1 hreads
  have hclose := State.reads_singleton.1 hclose
  have hstop := sliceBound_of_parsed hn ihb hv hsecond.1 (not_primaryStart _ (by simp [hp]))
  have hstep := sliceBound_of_parsed hn ihd hw hclose.1 (not_primaryStart _ (by simp [hnext]))
  have haccept : accept [.symbol .colon] s₃ = .ok (some p) s₄ :=
    accept_of_steps hsecond (by simp [hp])
  rw [subscript_of_bound hn iha (by simp [ho]) hopen hq hu hcolon.1,
    slice_of_colon hcolon ho hstop, bind_of_ok haccept]
  change (run (n - 1) .sliceBound >>= _) s₄ = _
  rw [bind_of_ok hstep]
  exact slice_close hclose hnext

/-- A double colon leaves the second bound out. -/
theorem outerBounds_parsed (iha : (Phrase.bound a).Parsed r v o) (ho : o.kind = .symbol .alt)
    (ihd : (Phrase.bound d).Parsed (.resumed (r.primary - 2)) w next) :
    (Phrase.bounds a ⟨.absent, .none, [], ⟨o.position, o.position.offset⟩⟩ d).Parsed r
      (v ++ o :: w) next := by
  rintro n rfl hn object q s m s' hopen hq hreads hnext
  rw [List.append_assoc] at hreads
  obtain ⟨s₁, hv, s₂, hcolons, hreads⟩ := State.reads_append.1 hreads
  obtain ⟨s₃, hw, hclose⟩ := State.reads_append.1 hreads
  have hclose := State.reads_singleton.1 hclose
  have hstep := sliceBound_of_parsed hn ihd hw hclose.1 (not_primaryStart _ (by simp [hnext]))
  have hcheck : check [.symbol .alt] s₁ = .ok true s₁ := by simp [check, hcolons.1, ho]
  have hstop : absent s₁ = .ok ⟨.absent, .none, [], ⟨o.position, o.position.offset⟩⟩ s₁ := by
    rw [← hcolons.1]
    rfl
  rw [subscript_of_bound hn iha (by simp [ho]) hopen hq hv hcolons.1, slice, bind_of_ok hcheck]
  change (absent >>= _) s₁ = _
  rw [bind_of_ok hstop, bind_of_ok hcolons.2.2, bind_of_ok hstep]
  exact slice_close hclose hnext

/-- A bound that is there is parsed as a primary. -/
theorem bound_parsed (h : Derives r w next (.expression Level.primary t))
    (ih : (Phrase.expression Level.primary t).Parsed r w next) :
    (Phrase.bound t).Parsed r w next := by
  obtain ⟨o, v, rfl, -, hstart⟩ := h.opensWith
  exact .inr ⟨hstart (by decide), fun s s' hreads hnext => (ih s s' hreads hnext).primary
    (Int.le_refl _)⟩

/-! ### Series -/

/-- An item is parsed as the expression that it is. -/
theorem item_parsed {k : Series} (hk : k ≠ .entries)
    (ih : (Phrase.expression Level.conditional t).Parsed r w next) :
    (Phrase.item k t).Parsed r w next := by
  rintro n rfl s s' hreads hnext hstop
  have hexpression := expression_of_parsed ih hreads hnext hstop
  cases k with
  | arguments | elements => exact hexpression
  | entries => exact absurd rfl hk

/-- An entry is parsed behind its key and the colon. -/
theorem entry_parsed (hkey : key.kind = .identifier ∨ key.kind = .string)
    (ho : o.kind = .symbol .colon) (hd : Derives r w next (.expression Level.conditional t))
    (ih : (Phrase.expression Level.conditional t).Parsed r w next) :
    (Phrase.item .entries
      ⟨.mapEntry, .node t,
        [⟨if key.kind = .string then .string else .identifier, .text (literalText key), [],
          ⟨key.position, key.stop⟩⟩],
        ⟨key.position, lastStop w⟩⟩).Parsed r (key :: o :: w) next := by
  rintro n rfl s s' hreads hnext hstop
  obtain ⟨s₁, hword, s₂, hcolon, hw⟩ := hreads
  have hexpression := expression_of_parsed ih hw hnext hstop
  have hexpect : expect [.identifier, .string] s = .ok key s₁ :=
    expect_of_steps hword (by simpa using hkey)
  have hsign : expect [.symbol .colon] s₁ = .ok o s₂ := expect_of_steps hcolon (by simp [ho])
  rw [Series.rule, mapEntry, bind_of_ok hexpect, bind_of_ok (finish_of_steps hword),
    bind_of_ok hsign, bind_of_ok hexpression, finish_of_reads hw hd.ne_nil_of_expression]

/-- Neither a comma nor a closing mark carries on an expression or starts an item. -/
theorem close_stops : ∀ kind ∈ [TokenKind.symbol .comma, .symbol .rparen, .symbol .rbracket,
    .symbol .rbrace], kind.extension? = none ∧ ¬ kind.StartsExpression := by
  decide

/-- A series is closed by a mark that may stand behind an item. -/
theorem Series.close_mem (k : Series) : TokenKind.symbol k.close ∈ [TokenKind.symbol .comma,
    .symbol .rparen, .symbol .rbracket, .symbol .rbrace] := by
  cases k <;> decide

/-- In front of the closing mark no item is parsed. -/
theorem noItem_parsed {k : Series} : (Phrase.series k []).Parsed r [] next := by
  intro n _ s s' hreads hnext hclose
  obtain rfl := State.reads_nil.1 hreads
  have hcheck : check [.symbol k.close] s' = .ok true s' := by simp [check, hnext, hclose]
  refine ⟨by rw [k.whole_eq, bind_of_ok hcheck]; rfl, fun o p hsteps ho hlast => ?_⟩
  have haccept : accept [.symbol .comma] p = .ok (some o) s' :=
    accept_of_steps hsteps (by simp [ho])
  have hstep : k.step (run n) p = .ok none s' := by
    rw [Series.step, bind_of_ok haccept]
    by_cases hk : k = .arguments
    · exact absurd rfl (hlast hk)
    · simp only [hk, if_false]
      rw [bind_of_ok hcheck]
      rfl
  exact collect_of_none hstep

/-- An item is no closing mark. -/
theorem check_close_of_start {k : Series} {s : State} (h : s.current.kind.StartsExpression) :
    check [.symbol k.close] s = .ok false s := by
  have hne : s.current.kind ≠ .symbol k.close :=
    fun heq => (close_stops _ (Series.close_mem k)).2 (heq ▸ h)
  simpa [check] using hne

/-- At the start of a series whatever starts an item is one. -/
theorem whole_of_start {call : Routine → Parse Node} {k : Series} {s : State}
    (h : s.current.kind.StartsExpression) :
    k.whole call s = (do
      let first ← k.rule call
      let others ← collect (k.step call)
      return first :: others) s := by
  rw [k.whole_eq, bind_of_ok (check_close_of_start h)]
  rfl

/-- Behind a comma whatever starts an item is one. -/
theorem step_of_start {call : Routine → Parse Node} {k : Series} {s m : State}
    (hsteps : s.Steps o m) (ho : o.kind = .symbol .comma) (h : m.current.kind.StartsExpression) :
    k.step call s = (some <$> k.rule call) m := by
  have haccept : accept [.symbol .comma] s = .ok (some o) m :=
    accept_of_steps hsteps (by simp [ho])
  rw [Series.step, bind_of_ok haccept]
  by_cases hk : k = .arguments
  · simp only [hk, if_true]
  · simp only [hk, if_false]
    rw [bind_of_ok (check_close_of_start h)]
    rfl

/-- An item in front of the rest of a series, at the start of the series and behind a comma. -/
theorem first_parsed {k : Series} {s m s' : State} (hitem : Derives r v c (.item k t))
    (hreads : s.Reads v m) (hrule : k.rule (run n) s = .ok t m)
    (hrest : collect (k.step (run n)) m = .ok ts s') :
    k.whole (run n) s = .ok (t :: ts) s' ∧
      ∀ o p, p.Steps o s → o.kind = .symbol .comma →
        collect (k.step (run n)) p = .ok (t :: ts) s' := by
  have hstart := hitem.current_of_item hreads
  refine ⟨?_, fun o p hsteps ho => ?_⟩
  · rw [whole_of_start hstart, bind_of_ok hrule, bind_of_ok hrest]
    rfl
  · have hstep : k.step (run n) p = .ok (some t) m := by
      rw [step_of_start hsteps ho hstart, map_of_ok hrule]
    have hlt : m.pending < p.pending :=
      State.Reads.pending_lt (.cons hsteps hreads) (by simp)
    rw [collect_of_some hstep hlt, map_of_ok hrest]

/-- The last item is parsed up to the closing mark. -/
theorem lastItem_parsed {k : Series} (h : Derives r w next (.item k t))
    (ih : (Phrase.item k t).Parsed r w next) : (Phrase.series k [t]).Parsed r w next := by
  intro n hn s s' hreads hnext hclose
  have hstops := (close_stops _ (Series.close_mem k)).1
  have hrule := ih n hn s s' hreads hnext (stops_of_extension? (by rw [hclose]; exact hstops))
  have hrest : collect (k.step (run n)) s' = .ok [] s' := by
    have haccept : accept [.symbol .comma] s' = .ok none s' := by
      refine accept_of_not_mem ?_
      rw [hnext, hclose]
      cases k <;> decide
    refine collect_of_none ?_
    rw [Series.step, bind_of_ok haccept]
    rfl
  obtain ⟨hwhole, hbehind⟩ := first_parsed h hreads hrule hrest
  exact ⟨hwhole, fun o p hsteps ho _ => hbehind o p hsteps ho⟩

/-- The items behind a comma are parsed by more steps of the collection. -/
theorem moreItems_parsed {k : Series} (h : Derives r v o (.item k t))
    (ih : (Phrase.item k t).Parsed r v o) (ho : o.kind = .symbol .comma)
    (ihs : (Phrase.series k ts).Parsed r w next) (hlast : k = .arguments → ts ≠ []) :
    (Phrase.series k (t :: ts)).Parsed r (v ++ o :: w) next := by
  intro n hn s s' hreads hnext hclose
  obtain ⟨s₁, hv, s₂, hcomma, hw⟩ := State.reads_append.1 hreads
  have hrule := ih n hn s s₁ hv hcomma.1 (stops_of_extension? (by rw [ho]; rfl))
  have hrest := (ihs n hn s₂ s' hw hnext hclose).2 o s₁ hcomma ho hlast
  obtain ⟨hwhole, hbehind⟩ := first_parsed h hv hrule hrest
  exact ⟨hwhole, fun o p hsteps ho _ => hbehind o p hsteps ho⟩

/-! ### Statements -/

/-- The statements of a block are parsed with two frames less. -/
theorem block_parsed (hr : 0 < r.expression) (ho : o.kind = .symbol .lbrace)
    (ih : (Phrase.statements ts).Parsed (.plain (r.expression - 2)) w c)
    (hc : c.kind = .symbol .rbrace) :
    (Phrase.statement ⟨.block, .none, ts, ⟨o.position, c.stop⟩⟩).Parsed r
      (o :: (w ++ [c])) next := by
  rintro n rfl s s' hreads _
  have hr : 0 < n - 1 := hr
  obtain ⟨s₁, hopen, hreads⟩ := hreads
  obtain ⟨s₂, hw, hclose⟩ := State.reads_append.1 hreads
  have hclose := State.reads_singleton.1 hclose
  have hcheck : check [.symbol .lbrace] s = .ok true s := by simp [check, hopen.1, ho]
  have hroom : Room.plain (n - 1 - 2) = .plain (n - 2 - 1) := by rw [Nat.sub_sub, Nat.sub_sub]
  have hstatements := ih (n - 2) hroom [.symbol .rbrace, .endOfInput] s₁ s₂ hw hclose.1
    (by simp [hc]) (by decide)
  rw [run_eq_body (by omega), Routine.body, statement, bind_of_ok hcheck]
  change run (n - 1) .block s = _
  rw [run_eq_body hr, Routine.body, Nat.sub_sub, block,
    bind_of_ok (expect_of_steps hopen (by simp [ho])), bind_of_ok hstatements,
    bind_of_ok (expect_of_steps hclose (by simp [hc])), finish_of_steps hclose]

/-- An expression is no block. -/
theorem check_lbrace_of_start {s : State} (h : s.current.kind.StartsExpression) :
    check [.symbol .lbrace] s = .ok false s := by
  have hne : s.current.kind ≠ .symbol .lbrace :=
    fun heq => TokenKind.not_startsExpression _ (by simp) (heq ▸ h)
  simpa [check] using hne

/-- A statement that is no block starts with an expression. -/
theorem statement_of_expression {s m : State} {n : Nat}
    (h : Derives (.plain (n - 1)) w next (.expression Level.conditional t)) (hreads : s.Reads w m)
    (hexpression : run (n - 1) (.expression none) s = .ok t m) :
    run n .statement s = (do
      match ← accept [.symbol .flow] with
      | none => return t
      | some _ =>
        let word ← expect [.identifier]
        let name ← finish .identifier word.position (.text word.text) []
        finish .dataflow t.mark.start (.node t) [name]) m := by
  have hpos := pos_of_run hexpression
  rw [run_eq_body (by omega), Routine.body, statement,
    bind_of_ok (check_lbrace_of_start (h.current_of_expression hreads).1)]
  exact bind_of_ok hexpression

/-- The arrow and the name are parsed behind an expression. -/
theorem dataflow_parsed (h : Derives r w o (.expression Level.conditional t))
    (ih : (Phrase.expression Level.conditional t).Parsed r w o) (ho : o.kind = .symbol .flow)
    (hname : name.kind = .identifier) :
    (Phrase.statement
      ⟨.dataflow, .node t, [⟨.identifier, .text name.text, [], ⟨name.position, name.stop⟩⟩],
        ⟨t.mark.start, name.stop⟩⟩).Parsed r (w ++ [o, name]) next := by
  rintro n rfl s s' hreads _
  obtain ⟨s₁, hw, s₂, hflow, hreads⟩ := State.reads_append.1 hreads
  have hword := State.reads_singleton.1 hreads
  have hexpression := expression_of_parsed ih hw hflow.1 (stops_of_extension? (by rw [ho]; rfl))
  have haccept : accept [.symbol .flow] s₁ = .ok (some o) s₂ :=
    accept_of_steps hflow (by simp [ho])
  have hexpect : expect [.identifier] s₂ = .ok name s' := expect_of_steps hword (by simp [hname])
  rw [statement_of_expression h hw hexpression, bind_of_ok haccept]
  change (expect [.identifier] >>= _) s₂ = _
  rw [bind_of_ok hexpect, bind_of_ok (finish_of_steps hword), finish_of_steps hword]

/-- Without an arrow the expression is the statement. -/
theorem bare_parsed (h : Derives r w next (.expression Level.conditional t))
    (ih : (Phrase.expression Level.conditional t).Parsed r w next)
    (hnext : next.kind.EndsStatement) : (Phrase.statement t).Parsed r w next := by
  rintro n rfl s s' hreads hcurrent
  have hexpression := expression_of_parsed ih hreads hcurrent hnext.stops
  have haccept : accept [.symbol .flow] s' = .ok none s' :=
    accept_of_not_mem (by simpa [hcurrent] using hnext.1)
  rw [statement_of_expression h hreads hexpression, bind_of_ok haccept]
  rfl

/-- No mark behind statements starts a statement. -/
theorem check_stop_of_start {stop : List TokenKind} {s : State}
    (hstop : ∀ kind ∈ stop, ¬ kind.StartsExpression ∧ kind ≠ .symbol .lbrace)
    (h : s.current.kind.StartsExpression ∨ s.current.kind = .symbol .lbrace) :
    check stop s = .ok false s := by
  have hne : s.current.kind ∉ stop := by
    intro hmem
    obtain ⟨hexpression, hbrace⟩ := hstop _ hmem
    exact h.elim hexpression hbrace
  simpa [check] using hne

/-- The step that the repetition of statements takes in front of a statement. -/
theorem moreStatements_parsed (h : Derives r v (w.headD next) (.statement t))
    (ih : (Phrase.statement t).Parsed r v (w.headD next))
    (ihs : (Phrase.statements ts).Parsed r w next) :
    (Phrase.statements (t :: ts)).Parsed r (v ++ w) next := by
  intro n hn stop s s' hreads hnext hmem hstop
  obtain ⟨m, hv, hw⟩ := State.reads_append.1 hreads
  have hstatement := ih n hn s m hv (by rw [hw.current_eq, hnext])
  have hrest := ihs n hn stop m s' hw hnext hmem hstop
  have hcheck := check_stop_of_start hstop (h.current_of_statement hv)
  refine (collect_of_some (a := t) (m := m) ?_ (hv.pending_lt h.ne_nil_of_statement)).trans
    (map_of_ok hrest)
  rw [bind_of_ok hcheck]
  exact map_of_ok hstatement

end Parser

/-! ### Phrases and programs -/

/-- The rule for a phrase consumes the tokens of the phrase. -/
theorem Derives.parsed {r : Room} {w : List Token} {next : Token} {phrase : Phrase}
    (h : Derives r w next phrase) : phrase.Parsed r w next := by
  induction h with
  | looser _ hl ih => exact fun s s' hreads hnext => (ih s s' hreads hnext).looser hl
  | literal hr ho => exact Parser.literal_parsed hr ho
  | group ho _ hc ih => exact Parser.group_parsed ho ih hc
  | array hr ho _ hc ih => exact Parser.array_parsed hr ho ih hc
  | map hr ho _ hc ih => exact Parser.map_parsed hr ho ih hc
  | call _ ho _ hc ihf ih => exact Parser.call_parsed ihf ho ih hc
  | index hr _ ho hi hc iht ih => exact Parser.index_parsed hr iht ho hi ih hc
  | slice hr _ ho _ hc iht ih => exact Parser.slice_parsed hr iht ho ih hc
  | member _ ho hname iht => exact Parser.member_parsed iht ho hname
  | prefixed ho h ih => exact Parser.prefixed_parsed ho h ih
  | iteration ho _ hm hb iha ihb => exact Parser.iteration_parsed ho iha hm hb ihb
  | operation _ ho hb iha ihb => exact Parser.operation_parsed iha ho hb ihb
  | conditional _ ho _ hm hc iha ihb ihc => exact Parser.conditional_parsed iha ho ihb hm hc ihc
  | leftOut => exact .inl ⟨rfl, rfl⟩
  | bound h ih => exact Parser.bound_parsed h ih
  | twoBounds _ ho _ iha ihb => exact Parser.twoBounds_parsed iha ho ihb
  | threeBounds _ ho _ hm _ iha ihb ihc => exact Parser.threeBounds_parsed iha ho ihb hm ihc
  | outerBounds _ ho _ iha ihc => exact Parser.outerBounds_parsed iha ho ihc
  | item hs _ ih => exact Parser.item_parsed hs ih
  | entry hkey ho h ih => exact Parser.entry_parsed hkey ho h ih
  | noItem => exact Parser.noItem_parsed
  | lastItem h ih => exact Parser.lastItem_parsed h ih
  | moreItems h ho _ hlast ih ihs => exact Parser.moreItems_parsed h ih ho ihs hlast
  | block hr ho _ hc ih => exact Parser.block_parsed hr ho ih hc
  | dataflow h ho hname ih => exact Parser.dataflow_parsed h ih ho hname
  | bare h hnext ih => exact Parser.bare_parsed h ih hnext
  | noStatement =>
      intro n _ stop s s' hreads hnext hmem _
      obtain rfl := Parser.State.reads_nil.1 hreads
      refine collect_of_none ?_
      simp [Parse.check, bind, EStateM.bind, hnext, hmem]
      rfl
  | moreStatements h _ ih ihs => exact Parser.moreStatements_parsed h ih ihs

/-- With enough room a program of the grammar is parsed. -/
theorem Parser.programWith_complete {n : Nat} {w : List Token} {p : Node} {s s' : Parser.State}
    (h : ProgramOf n w s'.current p) (hreads : s.Reads w s')
    (hlast : s'.current.kind = .endOfInput) : programWith (run n) s = .ok p s' := by
  obtain ⟨ts, h, rfl⟩ := h
  have hstatements := h.parsed n rfl [.endOfInput] s s' hreads rfl (by simp [hlast]) (by decide)
  rw [programWith, bind_of_ok hstatements]
  rfl

end Sigil
