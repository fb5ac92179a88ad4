import Sigil.Print.Fault
import Sigil.Text.Joined
import Sigil.Tree.Outline

/-!
# Source text

Trees as source text: a statement to a line, blocks indented, one blank on each side of a binary
operator. Grouping is not kept in trees, so an expression is put in parentheses exactly where it
binds looser than its place allows.

## Main definitions

* `Source.expression`: the text of an expression at a place that asks for a level.
* `Source.statement`: writes a statement, possibly a whole block, on a sheet.
* `Source.program`: the text of a whole program.
-/

namespace Sigil

/-- Lines of text, and the number of blocks that are open behind them. -/
structure Sheet where
  lines : List String
  depth : Nat
  deriving DecidableEq, Repr

/-- An empty sheet. -/
def Sheet.empty : Sheet := ⟨[], 0⟩

/-- The lines as one text. -/
def Sheet.text (s : Sheet) : String :=
  Text.joined "\n" s.lines

/-- Writing on a sheet. A failure leaves what was written before it. -/
abbrev Writing := EStateM PrintFault Sheet

namespace Source

/-! ### Expressions -/

/-- A string between the quotation marks that it does not hold, by preference double ones. -/
def stringLiteral (text : String) : Printed :=
  if '"' ∉ text.toList then .ok ("\"" ++ text ++ "\"")
  else if '\'' ∉ text.toList then .ok ("'" ++ text ++ "'")
  else .error (.bothQuotes text)

/-- An expression of a level at a place that asks for expressions of at least another. -/
def atLevel (least level : Int) (text : String) : String :=
  if level < least then "(" ++ text ++ ")" else text

/-- The text of the child at an index, given the texts of the children at each level. -/
def child (texts : List (Int → Printed)) (i : Nat) (least : Int) : Printed :=
  match texts[i]? with
  | some text => text least
  | none => .error (.access .missingChild)

/-- The texts of all the children at places that allow any expression, with commas between them. -/
def commaSeparated (texts : List (Int → Printed)) : Printed := do
  let written ← texts.mapM fun text => text Level.conditional
  return Text.joined ", " written

/-- Two operands with a binary operator between them, given the texts of the operands at each level.
The left operand may be of the operator's own level, the right one has to bind tighter. -/
def binaryOperation (texts : List (Int → Printed)) (level : Int) (operator : String) : Printed := do
  let left ← child texts 0 level
  let right ← child texts 1 (level + 1)
  return left ++ " " ++ operator ++ " " ++ right

mutual

/-- The text of an expression at a place that asks for expressions of at least a level. -/
def expression : Node → Int → Printed
  | ⟨kind, value, children, mark⟩, least =>
    let texts := expressions children
    let bound (i : Nat) : Printed :=
      match children[i]? with
      | some c => if c.kind = .absent then .ok "" else child texts i Level.primary
      | none => .error (.access .missingChild)
    match kind with
    | .identifier | .number | .boolean => .ok (atLevel least Level.primary value.shown)
    | .string => atLevel least Level.primary <$> stringLiteral value.shown
    | .conditional => do
      let condition ← child texts 0 Level.logicalOr
      let consequence ← child texts 1 Level.conditional
      let alternative ← child texts 2 Level.conditional
      return atLevel least Level.conditional
        (condition ++ " ?? " ++ consequence ++ " :: " ++ alternative)
    | .logicalOr =>
      atLevel least Level.logicalOr <$> binaryOperation texts Level.logicalOr value.shown
    | .logicalAnd =>
      atLevel least Level.logicalAnd <$> binaryOperation texts Level.logicalAnd value.shown
    | .comparison =>
      atLevel least Level.comparison <$> binaryOperation texts Level.comparison value.shown
    | .additive =>
      atLevel least Level.additive <$> binaryOperation texts Level.additive value.shown
    | .multiplicative =>
      atLevel least Level.multiplicative <$> binaryOperation texts Level.multiplicative value.shown
    | .unary | .strategy => do
      let operand ← child texts 0 Level.unary
      return atLevel least Level.unary (value.shown ++ operand)
    | .iteration => do
      let collection ← child texts 0 Level.suffixed
      let transform ← child texts 1 Level.unary
      return atLevel least Level.unary ("@@ " ++ collection ++ " >> " ++ transform)
    | .call => do
      let callee ← match value with
        | .node t => expression t Level.suffixed
        | .none | .text _ => .error .calleeNotNode
      let arguments ← commaSeparated texts
      return atLevel least Level.suffixed (callee ++ "(" ++ arguments ++ ")")
    | .index => do
      let object ← child texts 0 Level.suffixed
      let index ← child texts 1 Level.conditional
      return atLevel least Level.suffixed (object ++ "[" ++ index ++ "]")
    | .slice => do
      let object ← child texts 0 Level.suffixed
      let start ← bound 1
      let stop ← bound 2
      let step ← match children[3]? with
        | some c => if c.kind = .absent then .ok "" else (":" ++ ·) <$> bound 3
        | none => .error (.access .missingChild)
      return atLevel least Level.suffixed (object ++ "[" ++ start ++ ":" ++ stop ++ step ++ "]")
    | .member => do
      let object ← child texts 0 Level.suffixed
      return atLevel least Level.suffixed (object ++ "." ++ value.shown)
    | .array => do
      let elements ← commaSeparated texts
      return atLevel least Level.primary ("#[" ++ elements ++ "]")
    | .map => do
      let entries ← entries children
      return atLevel least Level.primary ("#\x7b" ++ Text.joined ", " entries ++ "\x7d")
    | .binary => .error (.noLevel kind)
    | .program | .block | .dataflow | .mapEntry | .absent | .other _ =>
      .error (.noSourceForm kind mark.start)
termination_by structural t => t

/-- The texts of expressions at each level. -/
def expressions : List Node → List (Int → Printed)
  | [] => []
  | t :: ts => expression t :: expressions ts
termination_by structural ts => ts

/-- The texts of the entries of a map. -/
def entries : List Node → Except PrintFault (List String)
  | [] => .ok []
  | ⟨kind, value, children, _⟩ :: ts => do
    let key ←
      if (kind.slot? Field.key.word).isSome then child (expressions children) 0 Level.conditional
      else .error (.access (.noField kind Field.key.word))
    let value ← match value with
      | .node t => expression t Level.conditional
      | .text _ => .error (.access .textForNode)
      | .none => .error (.access .nothingForNode)
    return (key ++ ": " ++ value) :: (← entries ts)
termination_by structural ts => ts

end

/-- The text of a value that has to be an expression. -/
def valueExpression : Value Node → Printed
  | .node t => expression t Level.conditional
  | .text _ => .error (.access .textForNode)
  | .none => .error (.access .nothingForNode)

/-! ### Statements -/

/-- Writes a line, indented by a width for every open block. -/
def line (width : Int) (text : String) : Writing Unit := fun s =>
  let blanks := String.ofList (List.replicate (width * s.depth).toNat ' ')
  .ok () { s with lines := s.lines ++ [blanks ++ text] }

/-- Goes on after a text that may not exist. -/
def written (p : Printed) : Writing String := fun s =>
  match p with
  | .ok text => .ok text s
  | .error fault => .error fault s

mutual

/-- Writes a statement: a block with its statements, a dataflow definition, or an expression. -/
def statement (width : Int) : Node → Writing Unit
  | ⟨kind, value, children, mark⟩ =>
    match kind with
    | .block =>
      if children.isEmpty then line width "\x7b\x7d"
      else do
        line width "\x7b"
        modify fun s => { s with depth := s.depth + 1 }
        statements width children
        modify fun s => { s with depth := s.depth - 1 }
        line width "\x7d"
    | .dataflow => do
      let defined ← written (valueExpression value)
      match children with
      | [] => throw (.access .missingChild)
      | name :: _ => line width (defined ++ " => " ++ name.value.shown)
    | _ => do line width (← written (expression ⟨kind, value, children, mark⟩ Level.conditional))
termination_by structural t => t

/-- Writes statements one after the other. -/
def statements (width : Int) : List Node → Writing Unit
  | [] => return
  | t :: ts => do
    statement width t
    statements width ts
termination_by structural ts => ts

end

/-- The number of blanks that a block indents its statements by. -/
def indentWidth : Int := 4

/-- The source text of a program. Its children are taken as statements. -/
def program (width : Int) (p : Node) : Printed :=
  match statements width p.children .empty with
  | .ok _ sheet => .ok sheet.text
  | .error fault _ => .error fault

end Source

end Sigil
