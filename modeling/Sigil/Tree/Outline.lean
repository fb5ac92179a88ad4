import Sigil.Text.Joined
import Sigil.Text.Quoted
import Sigil.Tree.Basic

/-!
# Outlines

A tree on one line, for messages: the kind of each node, its value and its first three children.
-/

namespace Sigil.Tree

variable {α : Type}

mutual

/-- The outline of a tree. A text value is quoted; children past the third are left out. -/
def outline : Tree α → String
  | ⟨kind, value, children, _⟩ =>
    let valuePart := match value with
      | .none => []
      | .text s => ["value=" ++ Text.quoted s]
      | .node t => ["value=" ++ outline t]
    let childrenPart :=
      if children.isEmpty then []
      else
        let more := if 3 < children.length then ", ..." else ""
        ["children=[" ++ Text.joined ", " (outlines 3 children) ++ more ++ "]"]
    "ASTNode(" ++ Text.joined ", " (kind.name :: valuePart ++ childrenPart) ++ ")"
termination_by structural t => t

/-- The outlines of the first trees of a list, at most the given number. -/
def outlines : Nat → List (Tree α) → List String
  | 0, _ | _, [] => []
  | n + 1, t :: ts => outline t :: outlines n ts
termination_by structural _ ts => ts

end

end Sigil.Tree

namespace Sigil

/-- A value as a text: a text stands for itself and a node for its outline. -/
def Value.shown {α : Type} : Value (Tree α) → String
  | .none => "None"
  | .text s => s
  | .node t => t.outline

end Sigil
