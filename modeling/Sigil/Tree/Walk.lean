import Sigil.Tree.Field

/-!
# Walking a tree

The nodes directly below a node in the order of the source, all the nodes of a tree in pre-order,
and the way down to one of them.

## Main results

* `Tree.walk_eq`: a walk visits the node itself and then walks what is below it.
-/

namespace Sigil.Tree

variable {α : Type}

/-- The nodes directly below a node, in the order of the source: its children and, before or after
them, its value if that is a node. -/
def subnodes (t : Tree α) : List (Tree α) :=
  if t.kind.valueFirst then t.value.nodes ++ t.children else t.children ++ t.value.nodes

mutual

/-- The nodes of a tree in pre-order. -/
def walk : Tree α → List (Tree α)
  | ⟨kind, value, children, mark⟩ =>
    let inValue := match value with
      | .node t => walk t
      | .none | .text _ => []
    let inChildren := walkAll children
    ⟨kind, value, children, mark⟩ ::
      if kind.valueFirst then inValue ++ inChildren else inChildren ++ inValue
termination_by structural t => t

/-- The nodes of the trees of a list, tree by tree. -/
def walkAll : List (Tree α) → List (Tree α)
  | [] => []
  | t :: ts => walk t ++ walkAll ts
termination_by structural ts => ts

end

theorem walkAll_eq (ts : List (Tree α)) : walkAll ts = ts.flatMap walk := by
  induction ts with
  | nil => rfl
  | cons t ts ih => rw [walkAll, ih, List.flatMap_cons]

/-- A walk visits the node itself and then walks what is below it. -/
theorem walk_eq (t : Tree α) : t.walk = t :: t.subnodes.flatMap walk := by
  obtain ⟨kind, value, children, mark⟩ := t
  cases value <;> cases h : kind.valueFirst <;> simp [walk, subnodes, walkAll_eq, Value.nodes, h]

/-- The node at the end of a way down, which names at each step the place among the nodes below;
negative places count from the end. -/
def descend (t : Tree α) : List Int → Except AccessFault (Tree α)
  | [] => .ok t
  | i :: path =>
    let place := if i < 0 then i + t.subnodes.length else i
    match if place < 0 then none else t.subnodes[place.toNat]? with
    | some u => u.descend path
    | none => .error .missingChild

end Sigil.Tree
