import Sigil.Parser.Program
import Sigil.Proofs.Parser.Run

/-!
# The routines as equations

Each routine for expressions is put in the form in which runs of it can be followed: a run of
operators in front of an operand by its first operator, the binary operators as one repetition, a
subscript by what it starts with.

## Main results

* `Parser.unary_of_prefixed`: operators in front of an operand, one at a time.
* `Parser.binary_some`, `Parser.binary_none`: operations on an operand, as long as there are any.
* `Parser.subscript_of_primary`: a subscript that starts with a primary.
* `Parser.program_eq`: a whole program, up to the report of an overflow.
-/

namespace Sigil

namespace Parser

open Parse

variable {call : Routine → Parse Node} {s m : State}

/-! ### Calls -/

/-- Without a frame every routine overflows. -/
@[simp] theorem run_zero (routine : Routine) : run 0 routine = overflow := rfl

/-- A routine takes one frame and leaves the others to the routines that it calls. -/
@[simp] theorem run_succ (room : Nat) (routine : Routine) :
    run (room + 1) routine = routine.body (run room) := rfl

/-- A routine with a frame calls others with one frame less. -/
theorem run_eq_body {room : Nat} {routine : Routine} (h : 0 < room) :
    run room routine = routine.body (run (room - 1)) := by
  obtain ⟨room, rfl⟩ := Nat.exists_eq_succ_of_ne_zero (Nat.ne_of_gt h)
  rfl

/-- Only a routine with a frame succeeds. -/
theorem pos_of_run {room : Nat} {routine : Routine} {t : Node}
    (h : run room routine s = .ok t m) : 0 < room := by
  cases room with
  | zero => cases h
  | succ room => exact Nat.succ_pos room

/-! ### Primaries -/

/-- The token of a literal is a primary. -/
theorem primary_of_literal {o : Token} {kind : NodeKind} (h : s.Steps o m)
    (ho : literal? o.kind = some kind) :
    primary call s = finish kind o.position (.text (literalText o)) [] m := by
  obtain ⟨rfl, -, h⟩ := h
  simp only [primary, bind, EStateM.bind, current, ho, h]

/-- The mark of an array calls for its routine. -/
theorem primary_of_arrayOpen (h : s.current.kind = .symbol .arrayOpen) :
    primary call s = call .array s := by
  simp only [primary, bind, EStateM.bind, current, h, literal?]

/-- The mark of a map calls for its routine. -/
theorem primary_of_mapOpen (h : s.current.kind = .symbol .mapOpen) :
    primary call s = call .map s := by
  simp only [primary, bind, EStateM.bind, current, h, literal?]

/-- Behind a parenthesis an expression is called for. -/
theorem primary_of_lparen {o : Token} (h : s.Steps o m) (ho : o.kind = .symbol .lparen) :
    primary call s = (do
      let expression ← call (.expression none)
      let _ ← expect [.symbol .rparen]
      return expression) m := by
  obtain ⟨rfl, -, h⟩ := h
  simp only [primary, bind, EStateM.bind, current, ho, literal?, h]

/-! ### Operators in front of an operand -/

/-- A prefix operator is taken. -/
theorem prefixOperator_of_steps {o : Token} {kind : NodeKind} (h : s.Steps o m)
    (ho : prefixed? o.kind = some kind) : prefixOperator s = .ok (some (o, kind)) m := by
  obtain ⟨rfl, -, h⟩ := h
  simp only [prefixOperator, bind, EStateM.bind, current, ho, h]
  rfl

/-- Another token is left where it is. -/
theorem prefixOperator_of_none (h : prefixed? s.current.kind = none) :
    prefixOperator s = .ok none s := by
  simp only [prefixOperator, bind, EStateM.bind, current, h]
  rfl

/-- An operator in front of an operand is applied to what stands behind it. -/
theorem unary_of_prefixed {o : Token} {kind : NodeKind} (h : s.Steps o m)
    (ho : prefixed? o.kind = some kind) :
    unary call s =
      (unary call >>= fun t => finish kind o.position (.text o.text) [t]) m := by
  have hcollect := collect_of_some (prefixOperator_of_steps h ho) h.pending_lt
  simp only [unary, bind, EStateM.bind, hcollect, Functor.map, EStateM.map]
  cases collect prefixOperator m with
  | error e m' => rfl
  | ok operators m' =>
      cases hoperand : call .operand m' with
      | error e m'' => simp only [hoperand]
      | ok first m'' =>
          simp only [hoperand, List.foldrM_cons]
          rfl

/-- An operator behind which no token can be taken. -/
theorem unary_of_error {kind : NodeKind} {e : ParseFailure}
    (hfront : prefixed? s.current.kind = some kind) (h : advance s = .error e m) :
    unary call s = .error e m := by
  have hoperator : prefixOperator s = .error e m := by
    simp only [prefixOperator, bind, EStateM.bind, current, hfront, h]
  have hcollect : collect prefixOperator s = .error e m := by
    rw [collect, hoperator]
  exact bind_of_error hcollect

/-- Without an operator in front there is only the operand. -/
theorem unary_of_none (h : prefixed? s.current.kind = none) : unary call s = call .operand s := by
  simp only [unary, bind, EStateM.bind, collect_of_none (prefixOperator_of_none h)]
  cases call .operand s <;> rfl

/-- The mark of an iteration starts one. -/
theorem operand_of_iter {o : Token} (h : s.Steps o m) (ho : o.kind = .symbol .iter) :
    operand call s = (do
      let collection ← call (.suffixed none)
      let _ ← expect [.symbol .pipe]
      let transform ← call .unary
      finish .iteration o.position .none [collection, transform]) m := by
  obtain ⟨rfl, -, h⟩ := h
  simp only [operand, bind, EStateM.bind, current, ho, h, if_true]

/-- Without it an operand is an expression with suffixes. -/
theorem operand_of_ne_iter (h : s.current.kind ≠ .symbol .iter) :
    operand call s = call (.suffixed none) s := by
  simp only [operand, bind, EStateM.bind, current, h, if_false]

/-! ### Suffixes and binary operators -/

/-- From its start an expression with suffixes is a primary and what follows. -/
theorem suffixed_none (call : Routine → Parse Node) :
    suffixed call none = call .primary >>= iterate (suffix? call) :=
  rfl

/-- A parenthesis behind an expression starts arguments. -/
theorem suffix?_of_lparen {object : Node} {o : Token} (h : s.Steps o m)
    (ho : o.kind = .symbol .lparen) :
    suffix? call object s = (do
      let arguments ← arguments call
      let _ ← expect [.symbol .rparen]
      some <$> finish .call object.mark.start (.node object) arguments) m := by
  obtain ⟨rfl, -, h⟩ := h
  simp only [suffix?, bind, EStateM.bind, current, ho, h]

/-- A bracket behind an expression starts a subscript. -/
theorem suffix?_of_lbracket {object : Node} (h : s.current.kind = .symbol .lbracket) :
    suffix? call object s = (some <$> call (.subscript object)) s := by
  simp only [suffix?, bind, EStateM.bind, current, h]

/-- A point behind an expression starts a member. -/
theorem suffix?_of_dot {object : Node} {o : Token} (h : s.Steps o m)
    (ho : o.kind = .symbol .dot) :
    suffix? call object s = (do
      let name ← expect [.identifier]
      some <$> finish .member object.mark.start (.text name.text) [object]) m := by
  obtain ⟨rfl, -, h⟩ := h
  simp only [suffix?, bind, EStateM.bind, current, ho, h]

/-- An operator that is tight enough calls for a right operand that is tighter. -/
theorem operation?_of_steps {least level : Int} {left : Node} {o : Token} {kind : NodeKind}
    (h : s.Steps o m) (ho : binary? o.kind = some (level, kind)) (hlevel : least ≤ level) :
    operation? call least left s = (do
      let right ← call (.binary (level + 1) none)
      some <$> finish kind left.mark.start (.text o.text) [left, right]) m := by
  obtain ⟨rfl, -, h⟩ := h
  simp only [operation?, bind, EStateM.bind, current, ho, h, hlevel, if_true]

/-- Operations are carried out on an operand as long as there are any. -/
theorem binary_some (call : Routine → Parse Node) (least : Int) (left : Node) :
    binary call least (some left) = iterate (operation? call least) left :=
  rfl

/-- From its start a binary expression is a unary one and the operators that follow. -/
theorem binary_none (call : Routine → Parse Node) (least : Int) :
    binary call least none = call .unary >>= iterate (operation? call least) :=
  rfl

/-- What an expression does behind the condition that it may start with. -/
def branches (call : Routine → Parse Node) (condition : Node) : Parse Node := do
  match ← accept [.symbol .cond] with
  | none => return condition
  | some _ =>
    let consequence ← call (.expression none)
    let _ ← expect [.symbol .alt]
    let alternative ← call (.expression none)
    finish .conditional condition.mark.start .none [condition, consequence, alternative]

/-- An expression is a condition with or without branches. -/
theorem expression_eq (call : Routine → Parse Node) (left : Option Node) :
    expression call left = call (.binary Level.logicalOr left) >>= branches call :=
  rfl

/-! ### Expressions that start with a primary -/

/-- Neither an operator in front of an operand nor an iteration starts like a primary. -/
theorem prefixed?_of_primaryStart :
    ∀ kind ∈ primaryStarts, prefixed? kind = none ∧ kind ≠ .symbol .iter := by
  decide

/-- Where a primary starts there is no prefix operator. -/
theorem unary_of_primaryStart (h : s.current.kind ∈ primaryStarts) :
    unary call s = call .operand s :=
  unary_of_none (prefixed?_of_primaryStart _ h).1

/-- Where a primary starts there is no iteration. -/
theorem operand_of_primaryStart (h : s.current.kind ∈ primaryStarts) :
    operand call s = call (.suffixed none) s :=
  operand_of_ne_iter (prefixed?_of_primaryStart _ h).2

/-! ### The way to the first operand -/

/-- The routine for expressions calls the one for binary operators, whatever room there is: without
a frame both overflow. -/
theorem run_expression (room : Nat) (left : Option Node) :
    run room (.expression left) =
      run (room - 1) (.binary Level.logicalOr left) >>= branches (run (room - 1)) := by
  cases room <;> rfl

/-- The routine for binary operators calls the one for operands with operators in front. -/
theorem run_binary_none (room : Nat) (least : Int) :
    run room (.binary least none) =
      run (room - 1) .unary >>= iterate (operation? (run (room - 1)) least) := by
  cases room <;> rfl

/-- In front of a primary the routine for operands with operators in front leads to the one for
chains of suffixes, through that for operands. -/
theorem run_unary_of_primaryStart {room : Nat} (h : s.current.kind ∈ primaryStarts) :
    run room .unary s = run (room - 2) (.suffixed none) s := by
  obtain _ | _ | room := room
  · rfl
  · exact unary_of_primaryStart h
  · exact (unary_of_primaryStart h).trans (operand_of_primaryStart h)

/-- The routine for chains of suffixes calls the one for primaries. -/
theorem run_suffixed_none (room : Nat) :
    run room (.suffixed none) =
      run (room - 1) .primary >>= iterate (suffix? (run (room - 1))) := by
  cases room <;> rfl

/-- Two rules that agree on a state agree there when the same goes on behind them. -/
theorem bind_congr_left {α β : Type} {p q : Parse α} (h : p s = q s) (f : α → Parse β) :
    (p >>= f) s = (q >>= f) s := by
  simp only [bind, EStateM.bind, h]

/-! ### Subscripts -/

variable {object : Node} {o : Token}

/-- A subscript that starts with a colon is a slice. -/
theorem subscript_of_colon (h : s.Steps o m) (ho : o.kind = .symbol .lbracket)
    (hcolon : m.current.kind ∈ [.symbol .colon, .symbol .alt]) :
    subscript call object s = (absent >>= fun start => call (.slice object start)) m := by
  rw [subscript, bind_of_ok (expect_of_steps h (by simp [ho]))]
  simp only [bind, EStateM.bind, check, List.contains_iff_mem.2 hcolon, if_true]

/-- A subscript that starts neither with a colon nor with a primary is an index. -/
theorem subscript_of_other (h : s.Steps o m) (ho : o.kind = .symbol .lbracket)
    (hcolon : m.current.kind ∉ [.symbol .colon, .symbol .alt])
    (hprimary : m.current.kind ∉ primaryStarts) :
    subscript call object s = (call (.expression none) >>= subscript.close object) m := by
  rw [subscript, bind_of_ok (expect_of_steps h (by simp [ho]))]
  simp only [bind, EStateM.bind, check, List.contains_iff_mem, hcolon, hprimary, if_false]

/-- A subscript that starts with a colon or with a primary is told by its first token. -/
theorem not_colon_of_primaryStart {kind : TokenKind} (h : kind ∈ primaryStarts) :
    kind ∉ [.symbol .colon, .symbol .alt] := by
  have hdisjoint : ∀ kind ∈ primaryStarts, kind ∉ [.symbol .colon, .symbol .alt] := by decide
  exact hdisjoint kind h

/-- What a subscript does behind a primary that it starts with: a slice if a colon follows, and an
index that goes on from the primary otherwise. -/
def behindPrimary (call : Routine → Parse Node) (object first : Node) : Parse Node := do
  if ← check [.symbol .colon, .symbol .alt] then call (.slice object first)
  else do
    let t ← call (.suffixed (some first))
    let index ← call (.expression (some t))
    subscript.close object index

/-- Where a primary starts behind the bracket it is called for before anything else. -/
theorem subscript_of_primary (h : s.Steps o m) (ho : o.kind = .symbol .lbracket)
    (hprimary : m.current.kind ∈ primaryStarts) :
    subscript call object s = (call .primary >>= behindPrimary call object) m := by
  have hcolon := not_colon_of_primaryStart hprimary
  rw [subscript, bind_of_ok (expect_of_steps h (by simp [ho]))]
  simp only [bind, EStateM.bind, check, List.contains_iff_mem, hcolon, hprimary, if_false, if_true,
    behindPrimary]

/-- A colon behind that primary makes it the start of a slice. -/
theorem behindPrimary_of_colon {first : Node}
    (hcolon : s.current.kind ∈ [.symbol .colon, .symbol .alt]) :
    behindPrimary call object first s = call (.slice object first) s := by
  simp only [behindPrimary, bind, EStateM.bind, check, List.contains_iff_mem.2 hcolon, if_true]

/-- Otherwise it is the first operand of an index. -/
theorem behindPrimary_of_other {first : Node}
    (hcolon : s.current.kind ∉ [.symbol .colon, .symbol .alt]) :
    behindPrimary call object first s =
      (call (.suffixed (some first)) >>= fun t =>
        call (.expression (some t)) >>= subscript.close object) s := by
  simp only [behindPrimary, bind, EStateM.bind, check, List.contains_iff_mem, hcolon, if_false]

/-! ### Programs -/

/-- A whole program, given the routine for statements, without a report of an overflow. -/
def programWith (call : Routine → Parse Node) : Parse Node := do
  let statements ← collect do
    if ← check [.endOfInput] then return none else some <$> call .statement
  let last ← current
  return ⟨.program, .none, statements, ⟨.start, last.position.offset⟩⟩

/-- Nothing behind the statements of a program calls a routine. -/
theorem program_eq (room : Nat) : program room = reportingOverflow (programWith (run room)) := by
  funext s
  simp only [program, programWith, bind, EStateM.bind, reportingOverflow]
  generalize collect _ s = result
  rcases result with ⟨ts, m⟩ | ⟨_ | _ | _, m⟩ <;> rfl

/-- An overflow is reported at the token that it was found at. -/
theorem reportingOverflow_of_overflow {α : Type} {p : Parse α} {s s' : State}
    (h : p s = .error .overflow s') :
    reportingOverflow p s = .error (.grammatical ⟨.nestedTooDeeply, s'.current⟩) s' := by
  simp only [reportingOverflow, h]

/-- Where there is a result there is nothing to report. -/
theorem reportingOverflow_eq_ok {α : Type} {p : Parse α} {a : α} {s s' : State} :
    reportingOverflow p s = .ok a s' ↔ p s = .ok a s' := by
  rw [reportingOverflow]
  split
  · next h => simp [h]
  · rfl

end Parser

end Sigil
