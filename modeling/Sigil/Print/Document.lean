import Sigil.Json
import Sigil.Tree.Basic

/-!
# Trees as documents

A tree as a JSON document: an object for each node, with its kind, value, line, column, span and
children.
-/

namespace Sigil.Tree

mutual

/-- The document of a tree. -/
def toJson : Node → Json
  | ⟨kind, value, children, extent⟩ =>
    let value := match value with
      | .none => .null
      | .text s => .text s
      | .node t => toJson t
    .object [
      ("kind", .text kind.name),
      ("value", value),
      ("line", .number extent.start.line),
      ("col", .number extent.start.col),
      ("span", .array [.number extent.start.offset, .number extent.stop]),
      ("children", .array (toJsons children))]
termination_by structural t => t

/-- The documents of trees. -/
def toJsons : List Node → List Json
  | [] => []
  | t :: ts => toJson t :: toJsons ts
termination_by structural ts => ts

end

end Sigil.Tree
