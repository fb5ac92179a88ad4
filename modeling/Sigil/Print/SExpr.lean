import Sigil.Json
import Sigil.Print.Fault

/-!
# S-expressions

Trees as s-expressions: a node is its rule in parentheses with its parts behind it. The parts of
most kinds carry the names of their fields; those of lists do not. Texts are quoted as in JSON, and
slice bounds that are left out are left out here too.

## Main definitions

* `SExpr.expression`: the s-expression of a tree.
* `SExpr.program`: the s-expressions of a whole program.
-/

namespace Sigil

/-- The rule that nodes of a kind are made by. -/
def NodeKind.rule? : NodeKind → Option String
  | program => some "source_file"
  | block => some "block"
  | dataflow => some "dataflow_definition"
  | conditional => some "conditional_expression"
  | logicalOr => some "logical_or_expression"
  | logicalAnd => some "logical_and_expression"
  | comparison => some "comparison_expression"
  | additive => some "additive_expression"
  | multiplicative => some "multiplicative_expression"
  | unary => some "unary_expression"
  | strategy => some "strategy_expression"
  | iteration => some "iteration_expression"
  | call => some "call_expression"
  | index => some "index_expression"
  | slice => some "slice_expression"
  | member => some "member_expression"
  | identifier => some "identifier"
  | number => some "number"
  | string => some "string"
  | boolean => some "boolean"
  | array => some "array_literal"
  | map => some "map_literal"
  | mapEntry => some "map_entry"
  | binary | absent | other _ => none

/-- The fields of a kind in the order of the source, for the kinds whose parts carry names. -/
def NodeKind.labels? : NodeKind → Option (List Field)
  | dataflow => some [.value, .name]
  | conditional => some [.condition, .consequence, .alternative]
  | logicalOr | logicalAnd | comparison | additive | multiplicative =>
    some [.left, .operator, .right]
  | unary => some [.operator, .operand]
  | strategy => some [.strategy, .operand]
  | iteration => some [.collection, .transform]
  | index => some [.object, .index]
  | slice => some [.object, .start, .stop, .step]
  | member => some [.object, .member]
  | mapEntry => some [.key, .value]
  | _ => none

namespace SExpr

/-- A rule in parentheses with its parts behind it. -/
def parenthesized (rule : String) (parts : List String) : String :=
  "(" ++ Text.joined " " (rule :: parts) ++ ")"

/-- A text, or the absence of one, as it is quoted. -/
def quoted : Option String → String
  | some s => Json.quoted s
  | none => "null"

/-- The text of a labelled value: the name of a member is an identifier, and any other text is an
operator. -/
def content (kind : NodeKind) (text : Option String) : String :=
  if kind = .member then parenthesized "identifier" [quoted text] else quoted text

/-- A child of a node that is a labelled part: nothing if it is the mark of an absent bound. -/
def labelledNode (label : String) (t : Node) (text : Printed) : Except PrintFault (List String) :=
  if t.kind = .absent then .ok []
  else do return [label ++ ": " ++ (← text)]

mutual

/-- The s-expression of a tree. -/
def expression : Node → Printed
  | ⟨kind, value, children, mark⟩ =>
    let texts := expressions children
    match kind.rule? with
    | none => .error (.noSExprForm kind mark.start)
    | some rule =>
      match kind with
      | .identifier | .number | .string | .boolean =>
        match value with
        | .text s => .ok (parenthesized rule [quoted (some s)])
        | .none => .ok (parenthesized rule [quoted none])
        | .node _ => .error .nodeForText
      | .call => do
        let function ← match value with
          | .node t => expression t
          | .text _ => .error (.access .textForNode)
          | .none => .error (.access .nothingForNode)
        let arguments ← texts.mapM id
        return parenthesized rule (("function: " ++ function) ::
          if arguments.isEmpty then [] else [parenthesized "argument_list" arguments])
      | _ =>
        match kind.labels? with
        | none => do return parenthesized rule (← texts.mapM id)
        | some labels => do
          let parts ← labels.mapM fun label =>
            match kind.slot? label.word with
            | some (.child i) =>
              match children[i]?, texts[i]? with
              | some c, some text => labelledNode label.word c text
              | _, _ => .error (.access .missingChild)
            | _ =>
              match value with
              | .node t => labelledNode label.word t (expression t)
              | .text s => .ok [label.word ++ ": " ++ content kind (some s)]
              | .none => .ok [label.word ++ ": " ++ content kind none]
          return parenthesized rule parts.flatten
termination_by structural t => t

/-- The s-expressions of trees. -/
def expressions : List Node → List Printed
  | [] => []
  | t :: ts => expression t :: expressions ts
termination_by structural ts => ts

end

/-- The lines of a program: an s-expression for each statement, or that of an empty program. -/
def lines (program : Node) : List Printed :=
  if program.children.isEmpty then [.ok (parenthesized "source_file" [])]
  else expressions program.children

/-- The s-expressions of a program, line by line. -/
def program (p : Node) : Printed :=
  Text.joined "\n" <$> (lines p).mapM id

end SExpr

end Sigil
