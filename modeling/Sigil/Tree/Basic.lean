import Sigil.Position
import Sigil.Tree.Kind

/-!
# Syntax trees

A tree is a node with a kind, a value and children, and with a mark that says something about the
node. A value is a text (an operator, a name, a number) or a further node (what a call calls, what a
dataflow definition defines). Nothing relates kinds, values and children: trees are also made by
hand. The trees of a text are marked with the stretch of text they cover (`Node`), and unmarked
trees are shapes.

## Main results

* `Tree.induct`: induction over a tree, its value and its children.
* `Tree.beq_iff`: equality of trees is decided node by node.
-/

namespace Sigil

/-- The value of a node: nothing, a text, or a further node. -/
inductive Value (τ : Type) where
  | none
  | text (s : String)
  | node (t : τ)
  deriving DecidableEq, Repr

/-- The node that a value is, as a list of one node or none. -/
def Value.nodes {τ : Type} : Value τ → List τ
  | .node t => [t]
  | _ => []

/-- A node of a syntax tree, with a mark of type `α`. -/
structure Tree (α : Type) where
  kind : NodeKind
  value : Value (Tree α)
  children : List (Tree α)
  mark : α

/-- The stretch of a text that a node covers: where it starts, and the offset behind its end. -/
structure Extent where
  start : Position
  stop : Int
  deriving DecidableEq, Repr, Inhabited

instance {α : Type} [Inhabited α] : Inhabited (Tree α) :=
  ⟨⟨.absent, .none, [], default⟩⟩

/-- A tree that knows the text it covers. -/
abbrev Node := Tree Extent

/-- A tree without places. -/
abbrev Shape := Tree Unit

namespace Tree

variable {α β : Type}

/-! ### Induction -/

/-- Induction over trees: a property holds of every tree if it holds of a node whenever it holds of
the node's value, as far as that is a node, and of its children. -/
theorem induct {P : Tree α → Prop}
    (step : ∀ kind value children mark, (∀ t, value = .node t → P t) → (∀ t ∈ children, P t) →
      P ⟨kind, value, children, mark⟩) (t : Tree α) : P t := by
  refine @Tree.rec α P (fun v => ∀ t, v = .node t → P t) (fun ts => ∀ t ∈ ts, P t)
    ?_ ?_ ?_ ?_ ?_ ?_ t
  · intro kind value children mark hvalue hchildren
    exact step kind value children mark hvalue hchildren
  · intro t ht; cases ht
  · intro s t ht; cases ht
  · intro u hu t ht; cases ht; exact hu
  · intro t ht; cases ht
  · intro u us hu hus t ht
    rcases List.mem_cons.1 ht with rfl | ht
    · exact hu
    · exact hus t ht

/-! ### Changing the marks -/

mutual

/-- The tree with every mark replaced. -/
def map (f : α → β) : Tree α → Tree β
  | ⟨kind, value, children, mark⟩ =>
    let value := match value with
      | .none => .none
      | .text s => .text s
      | .node t => .node (map f t)
    ⟨kind, value, mapAll f children, f mark⟩
termination_by structural t => t

/-- The trees of a list with every mark replaced. -/
def mapAll (f : α → β) : List (Tree α) → List (Tree β)
  | [] => []
  | t :: ts => map f t :: mapAll f ts
termination_by structural ts => ts

end

/-- The shape of a tree: its kinds, values and children, without the marks. -/
def shape (t : Tree α) : Shape :=
  t.map fun _ => ()

/-! ### Equality -/

mutual

/-- Compares two trees node by node: kind, value, children and mark. -/
def beq [DecidableEq α] : Tree α → Tree α → Bool
  | ⟨kind, value, children, mark⟩, u =>
    let sameValue := match value, u.value with
      | .none, .none => true
      | .text s, .text r => s = r
      | .node t, .node r => beq t r
      | _, _ => false
    kind = u.kind && mark = u.mark && sameValue && beqAll children u.children
termination_by structural t => t

/-- Compares two lists of trees. -/
def beqAll [DecidableEq α] : List (Tree α) → List (Tree α) → Bool
  | [], us => us.isEmpty
  | _ :: _, [] => false
  | t :: ts, u :: us => beq t u && beqAll ts us
termination_by structural ts => ts

end

theorem beqAll_iff [DecidableEq α] {ts : List (Tree α)}
    (h : ∀ t ∈ ts, ∀ u, beq t u = true ↔ t = u) (us : List (Tree α)) :
    beqAll ts us = true ↔ ts = us := by
  induction ts generalizing us with
  | nil => cases us <;> simp [beqAll]
  | cons t ts ih =>
      cases us with
      | nil => simp [beqAll]
      | cons u us =>
          have ht := h t (by simp) u
          have hts := ih (fun r hr => h r (by simp [hr])) us
          simp [beqAll, ht, hts]

/-- The comparison finds exactly the equal trees. -/
theorem beq_iff [DecidableEq α] (t u : Tree α) : beq t u = true ↔ t = u := by
  induction t using induct generalizing u with
  | step kind value children mark hvalue hchildren =>
      obtain ⟨kind', value', children', mark'⟩ := u
      have hall := beqAll_iff hchildren children'
      cases value <;> cases value' <;>
        simp_all [beq, and_assoc, and_left_comm, and_comm]

instance [DecidableEq α] : DecidableEq (Tree α) := fun t u =>
  decidable_of_iff (beq t u = true) (beq_iff t u)

/-- Two trees have the same shape: they agree in everything but their marks. -/
def sameShape (t u : Tree α) : Bool :=
  t.shape = u.shape

end Tree

end Sigil
