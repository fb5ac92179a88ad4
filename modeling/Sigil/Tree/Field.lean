import Sigil.Text.Quoted
import Sigil.Tree.Basic

/-!
# Fields

The grammar gives the parts of a node names: a conditional has a condition, a consequence and an
alternative. A layout says, for each kind, where its fields are kept: in the value, among the
children, or all the children together.

## Main definitions

* `Tree.field`: a field of a node, or the reason why there is none.
-/

namespace Sigil

/-- The names of the parts of nodes. -/
inductive Field where
  | statements | value | name | condition | consequence | alternative
  | operator | left | right | operand | strategy | collection | transform
  | function | arguments | object | index | start | stop | step | member
  | elements | entries | key
  deriving DecidableEq, Repr

/-- The word that stands for a field. -/
def Field.word : Field → String
  | statements => "statements"
  | value => "value"
  | name => "name"
  | condition => "condition"
  | consequence => "consequence"
  | alternative => "alternative"
  | operator => "operator"
  | left => "left"
  | right => "right"
  | operand => "operand"
  | strategy => "strategy"
  | collection => "collection"
  | transform => "transform"
  | function => "function"
  | arguments => "arguments"
  | object => "object"
  | index => "index"
  | start => "start"
  | stop => "end"
  | step => "step"
  | member => "member"
  | elements => "elements"
  | entries => "entries"
  | key => "key"

/-- Where a field of a node is kept. -/
inductive Slot where
  | value
  | child (i : Nat)
  | children
  deriving DecidableEq, Repr

/-- The fields of each kind of node and where they are kept. -/
def NodeKind.layout : NodeKind → List (Field × Slot)
  | program | block => [(.statements, .children)]
  | dataflow => [(.value, .value), (.name, .child 0)]
  | conditional => [(.condition, .child 0), (.consequence, .child 1), (.alternative, .child 2)]
  | logicalOr | logicalAnd | comparison | additive | multiplicative =>
    [(.operator, .value), (.left, .child 0), (.right, .child 1)]
  | unary => [(.operator, .value), (.operand, .child 0)]
  | strategy => [(.strategy, .value), (.operand, .child 0)]
  | iteration => [(.collection, .child 0), (.transform, .child 1)]
  | call => [(.function, .value), (.arguments, .children)]
  | index => [(.object, .child 0), (.index, .child 1)]
  | slice => [(.object, .child 0), (.start, .child 1), (.stop, .child 2), (.step, .child 3)]
  | member => [(.object, .child 0), (.member, .value)]
  | array => [(.elements, .children)]
  | map => [(.entries, .children)]
  | mapEntry => [(.key, .child 0), (.value, .value)]
  | binary | identifier | number | string | boolean | absent | other _ => []

/-- Where nodes of a kind keep the field with a name. -/
def NodeKind.slot? (kind : NodeKind) (word : String) : Option Slot :=
  (kind.layout.find? fun entry => entry.1.word = word).map Prod.snd

/-- Why a part of a node cannot be had. -/
inductive AccessFault where
  /-- Nodes of the kind have no field of the name. -/
  | noField (kind : NodeKind) (word : String)
  /-- The node has too few children for the field. -/
  | missingChild
  /-- The field holds a text, and a node was asked for. -/
  | textForNode
  /-- The field holds nothing, and a node was asked for. -/
  | nothingForNode
  deriving DecidableEq, Repr

/-- The wording of a fault. -/
def AccessFault.message : AccessFault → String
  | noField kind word =>
    "ASTNode of kind " ++ Text.quoted kind.name ++ " has no field " ++ Text.quoted word
  | missingChild => "list index out of range"
  | textForNode => "'str' object has no attribute 'kind'"
  | nothingForNode => "'NoneType' object has no attribute 'kind'"

/-- What a field holds: a value, or all the children. -/
inductive Part (α : Type) where
  | value (v : Value (Tree α))
  | children (ts : List (Tree α))

namespace Tree

variable {α : Type}

/-- What is kept in a slot of a node. -/
def part (t : Tree α) : Slot → Except AccessFault (Part α)
  | .value => .ok (.value t.value)
  | .children => .ok (.children t.children)
  | .child i =>
    match t.children[i]? with
    | some c => .ok (.value (.node c))
    | none => .error .missingChild

/-- The field of a node with a name. -/
def field (t : Tree α) (word : String) : Except AccessFault (Part α) :=
  match t.kind.slot? word with
  | some slot => t.part slot
  | none => .error (.noField t.kind word)

/-- All the fields of a node, in the order of its layout. -/
def fields (t : Tree α) : Except AccessFault (List (Field × Part α)) :=
  t.kind.layout.mapM fun entry => do
    let part ← t.part entry.2
    return (entry.1, part)

end Tree

/-- A property of a node that can be asked for by name. -/
inductive Attribute where
  | kind (k : NodeKind)
  | line (n : Int)
  | col (n : Int)
  | span (start stop : Int)
  | part (p : Part Extent)

/-- A property of a node by its name: what every node has comes before the fields of its kind. -/
def Tree.attribute (t : Node) (word : String) : Except AccessFault Attribute :=
  match word with
  | "kind" => .ok (.kind t.kind)
  | "value" => .ok (.part (.value t.value))
  | "children" => .ok (.part (.children t.children))
  | "line" => .ok (.line t.mark.start.line)
  | "col" => .ok (.col t.mark.start.col)
  | "span" => .ok (.span t.mark.start.offset t.mark.stop)
  | word => (t.field word).map .part

end Sigil
