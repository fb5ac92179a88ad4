import Sigil.Parser.State

/-!
# Expressions

The routines for expressions, from the primaries up to the conditional. They call one another, and
each call takes a frame of the stack for as long as it lasts, so how a routine calls the others is a
parameter of all that is defined here: the stack may have no room for the call. What takes no frame
of its own is part of the routine that it stands in, such as the arguments of a call or the
repetition over operators of one level.
-/

namespace Sigil

/-- The routines that call one another, each with what it is given. -/
inductive Routine where
  | statement
  | block
  /-- An expression, which may go on from a first operand that is already parsed. -/
  | expression (left : Option Node)
  /-- Binary operators of a level and the tighter ones; the first operand may already be parsed. -/
  | binary (least : Int) (left : Option Node)
  /-- An operand with the operators in front of it. -/
  | unary
  /-- An iteration, or a primary with its suffixes. -/
  | operand
  /-- A chain of suffixes behind a primary, which may already be parsed. -/
  | suffixed (base : Option Node)
  | subscript (object : Node)
  | slice (object start : Node)
  | sliceBound
  | primary
  | array
  | map
  deriving DecidableEq

namespace Parser

open Parse

variable (call : Routine → Parse Node)

/-! ### Primaries -/

/-- The kind of node that a token makes by itself. -/
def literal? : TokenKind → Option NodeKind
  | .identifier => some .identifier
  | .number => some .number
  | .string => some .string
  | .boolean => some .boolean
  | .symbol _ | .endOfInput | .other _ => none

/-- The kinds of tokens that start a primary. -/
def primaryStarts : List TokenKind :=
  [.identifier, .number, .string, .boolean, .symbol .arrayOpen, .symbol .mapOpen, .symbol .lparen]

/-- The text between the quotation marks of a string token: all but the first and the last
character. -/
def unquoted (text : String) : String :=
  String.ofList (text.toList.drop 1).dropLast

/-- The text that a literal token stands for. -/
def literalText (t : Token) : String :=
  if t.kind = .string then unquoted t.text else t.text

/-- Items with commas between them up to a closing mark, which is not consumed. A comma may stand
behind the last item. -/
def items (close : Symbol) (item : Parse Node) : Parse (List Node) := do
  if ← check [.symbol close] then return []
  let first ← item
  let others ← collect do
    match ← accept [.symbol .comma] with
    | none => return none
    | some _ => if ← check [.symbol close] then return none else some <$> item
  return first :: others

/-- An array: `#[e, e, ...]`. -/
def array : Parse Node := do
  let start ← expect [.symbol .arrayOpen]
  let elements ← items .rbracket (call (.expression none))
  let _ ← expect [.symbol .rbracket]
  finish .array start.position .none elements

/-- An entry of a map: a name or a string, a colon, and an expression. -/
def mapEntry : Parse Node := do
  let word ← expect [.identifier, .string]
  let kind := if word.kind = .string then .string else .identifier
  let key ← finish kind word.position (.text (literalText word)) []
  let _ ← expect [.symbol .colon]
  let value ← call (.expression none)
  finish .mapEntry word.position (.node value) [key]

/-- A map: `#{key: value, ...}`. -/
def map : Parse Node := do
  let start ← expect [.symbol .mapOpen]
  let entries ← items .rbrace (mapEntry call)
  let _ ← expect [.symbol .rbrace]
  finish .map start.position .none entries

/-- A literal, an array, a map, or an expression in parentheses, which leave no trace. -/
def primary : Parse Node := do
  let t ← current
  match literal? t.kind with
  | some kind =>
    let _ ← advance
    finish kind t.position (.text (literalText t)) []
  | none =>
    match t.kind with
    | .symbol .arrayOpen => call .array
    | .symbol .mapOpen => call .map
    | .symbol .lparen =>
      let _ ← advance
      let expression ← call (.expression none)
      let _ ← expect [.symbol .rparen]
      return expression
    | _ => fail (.unexpected [.expression])

/-! ### Subscripts -/

/-- A bound of a slice: a primary, or nothing. -/
def sliceBound : Parse Node := do
  if ← check primaryStarts then call .primary else absent

/-- The rest of a slice of `object` from `start`, at the first colon. A double colon leaves out the
bound between its two halves. -/
def slice (object start : Node) : Parse Node := do
  if ← check [.symbol .alt] then
    let stop ← absent
    let _ ← advance
    let step ← call .sliceBound
    close stop step
  else
    let _ ← expect [.symbol .colon]
    let stop ← call .sliceBound
    let step ← match ← accept [.symbol .colon] with
      | some _ => call .sliceBound
      | none => absent
    close stop step
where
  /-- The closing bracket and the finished slice. -/
  close (stop step : Node) : Parse Node := do
    let _ ← expect [.symbol .rbracket]
    finish .slice object.mark.start .none [object, start, stop, step]

/-- An index or a slice of `object`, at the opening bracket. A bound of a slice is a primary, so a
primary in front is read by itself; if no colon follows, it is the first operand of an index. -/
def subscript (object : Node) : Parse Node := do
  let _ ← expect [.symbol .lbracket]
  if ← check [.symbol .colon, .symbol .alt] then
    call (.slice object (← absent))
  else if ← check primaryStarts then
    let first ← call .primary
    if ← check [.symbol .colon, .symbol .alt] then
      call (.slice object first)
    else
      close (← call (.expression (some (← call (.suffixed (some first))))))
  else
    close (← call (.expression none))
where
  /-- The closing bracket and the finished index. -/
  close (index : Node) : Parse Node := do
    let _ ← expect [.symbol .rbracket]
    finish .index object.mark.start .none [object, index]

/-! ### Suffixes -/

/-- The arguments of a call behind the opening parenthesis, with commas between them. -/
def arguments : Parse (List Node) := do
  if ← check [.symbol .rparen] then return []
  let first ← call (.expression none)
  let others ← collect do
    match ← accept [.symbol .comma] with
    | none => return none
    | some _ => some <$> call (.expression none)
  return first :: others

/-- A suffix of `object`, if there is one: a call, a subscript or a member. -/
def suffix? (object : Node) : Parse (Option Node) := do
  let t ← current
  match t.kind with
  | .symbol .lparen =>
    let _ ← advance
    let arguments ← arguments call
    let _ ← expect [.symbol .rparen]
    some <$> finish .call object.mark.start (.node object) arguments
  | .symbol .lbracket => some <$> call (.subscript object)
  | .symbol .dot =>
    let _ ← advance
    let name ← expect [.identifier]
    some <$> finish .member object.mark.start (.text name.text) [object]
  | _ => return none

/-- A primary, which may already be parsed, and the suffixes behind it. -/
def suffixed (base : Option Node) : Parse Node := do
  let first ← match base with
    | some node => pure node
    | none => call .primary
  iterate (suffix? call) first

/-! ### Operators -/

/-- An iteration `@@ collection >> transform`, or a primary with its suffixes. -/
def operand : Parse Node := do
  let t ← current
  if t.kind = .symbol .iter then
    let _ ← advance
    let collection ← call (.suffixed none)
    let _ ← expect [.symbol .pipe]
    let transform ← call .unary
    finish .iteration t.position .none [collection, transform]
  else call (.suffixed none)

/-- The kind of node that a token makes of the operand behind it. -/
def prefixed? : TokenKind → Option NodeKind
  | .symbol s => s.prefixed?
  | _ => none

/-- An operator in front of an operand, if there is one, with the kind of node it makes. -/
def prefixOperator : Parse (Option (Token × NodeKind)) := do
  let t ← current
  match prefixed? t.kind with
  | some kind =>
    let _ ← advance
    return some (t, kind)
  | none => return none

/-- An operand with any number of operators in front of it, the last of which is applied first. -/
def unary : Parse Node := do
  let operators ← collect prefixOperator
  let first ← call .operand
  operators.foldrM (fun (t, kind) node => finish kind t.position (.text t.text) [node]) first

/-- The level and the kind of node of a token that is a binary operator. -/
def binary? : TokenKind → Option (Int × NodeKind)
  | .symbol s => s.binary?
  | _ => none

/-- An operation on the operand on the left, if there is one at `least` or a tighter level. Its
right operand takes the operators that bind tighter. -/
def operation? (least : Int) (left : Node) : Parse (Option Node) := do
  let t ← current
  match binary? t.kind with
  | none => return none
  | some (level, kind) =>
    if least ≤ level then
      let _ ← advance
      let right ← call (.binary (level + 1) none)
      some <$> finish kind left.mark.start (.text t.text) [left, right]
    else return none

/-- Binary operators at `least` or a tighter level, grouped to the left, between unary operands; the
first operand may already be parsed. -/
def binary (least : Int) (left : Option Node) : Parse Node := do
  let first ← match left with
    | some node => pure node
    | none => call .unary
  iterate (operation? call least) first

/-- A conditional `condition ?? consequence :: alternative`, or an expression that binds tighter;
its first operand may already be parsed. The condition has no conditional outside parentheses, and
the branches may be any expressions. -/
def expression (left : Option Node) : Parse Node := do
  let condition ← call (.binary Level.logicalOr left)
  match ← accept [.symbol .cond] with
  | none => return condition
  | some _ =>
    let consequence ← call (.expression none)
    let _ ← expect [.symbol .alt]
    let alternative ← call (.expression none)
    finish .conditional condition.mark.start .none [condition, consequence, alternative]

end Parser

end Sigil
