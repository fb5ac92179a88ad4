import Mathlib.Data.List.Basic
import Sigil.Proofs.Print.Expression
import Sigil.Tree.Walk

/-!
# The parts of a node

A field of a node is kept in its value or among its children, so a node that has as many children as
the layout of its kind names has all its fields. A complete node also holds what its kind asks for
as its value, and has no mark of a bound that is left out below it unless it is a slice. All this
does not depend on the marks of a tree, so it may be asked of the shape.

## Main definitions

* `NodeKind.arity?`, `NodeKind.content`: the children and the value of the nodes of a kind.
* `Tree.IsComplete`: nothing that the kind of a node asks for is missing.

## Main results

* `Tree.mem_walk`: what a walk visits.
* `Tree.IsComplete.field`, `Tree.IsComplete.fields`: a complete node has all its fields.
-/

namespace Sigil

/-- A result that is there. -/
theorem eq_ok_of_toOption {α ε : Type} {x : Except ε α} {a : α} (h : x.toOption = some a) :
    x = .ok a := by
  cases x with
  | error e => cases h
  | ok b => exact congrArg _ (Option.some.inj h)

/-- Where each item has a result, there is a list of results. -/
theorem exists_mapM_eq_ok {α β ε : Type} {f : α → Except ε β} {as : List α}
    (h : ∀ a ∈ as, ∃ b, f a = .ok b) : ∃ bs, as.mapM f = .ok bs := by
  induction as with
  | nil => exact ⟨[], rfl⟩
  | cons a as ih =>
      obtain ⟨⟨b, hb⟩, hrest⟩ := List.forall_mem_cons.1 h
      obtain ⟨bs, hbs⟩ := ih hrest
      exact ⟨b :: bs, by rw [List.mapM_cons, hb, hbs]; rfl⟩

/-- Where the result of each item is known, so is the list of results. -/
theorem mapM_eq_ok {α β ε : Type} {f : α → Except ε β} {g : α → β} {as : List α}
    (h : ∀ a ∈ as, f a = .ok (g a)) : as.mapM f = .ok (as.map g) := by
  induction as with
  | nil => rfl
  | cons a as ih =>
      obtain ⟨ha, hrest⟩ := List.forall_mem_cons.1 h
      rw [List.mapM_cons, ha, ih hrest]
      rfl

/-! ### Layouts -/

/-- What a value is, apart from which one. -/
inductive Content where
  | nothing
  | text
  | node
  deriving DecidableEq, Repr

/-- What a value is made of. -/
def Value.content {τ : Type} : Value τ → Content
  | .none => .nothing
  | .text _ => .text
  | .node _ => .node

/-- A value that is nothing. -/
theorem Value.eq_none {τ : Type} {v : Value τ} (h : v.content = .nothing) : v = .none := by
  cases v <;> first
    | rfl
    | cases h

/-- A value that is a text. -/
theorem Value.exists_text {τ : Type} {v : Value τ} (h : v.content = .text) : ∃ s, v = .text s := by
  cases v <;> first
    | exact ⟨_, rfl⟩
    | cases h

/-- A value that is a node. -/
theorem Value.exists_node {τ : Type} {v : Value τ} (h : v.content = .node) : ∃ t, v = .node t := by
  cases v <;> first
    | exact ⟨_, rfl⟩
    | cases h

namespace NodeKind

/-- What the nodes of a kind hold as their value. -/
def content : NodeKind → Content
  | dataflow | call | mapEntry => .node
  | logicalOr | logicalAnd | comparison | additive | multiplicative | binary | unary | strategy
  | member | identifier | number | string | boolean => .text
  | program | block | conditional | iteration | index | slice | array | map | absent | other _ =>
    .nothing

/-- The kinds of the nodes that are made of a single token. -/
def literals : List NodeKind :=
  [identifier, number, string, boolean]

/-- The number of children of the nodes of a kind, unless these may have any number. -/
def arity? (kind : NodeKind) : Option Nat :=
  if kind.layout.any fun entry => entry.2 = .children then none
  else some (kind.layout.countP fun entry => entry.2 ≠ .value)

/-- Where a layout names single children, it names all of them. -/
theorem exists_arity {kind : NodeKind} :
    ∀ entry ∈ kind.layout, ∀ i, entry.2 = .child i → ∃ n, kind.arity? = some n ∧ i < n := by
  cases kind <;> simp [layout, arity?]

/-- A layout names each of its fields once. -/
theorem slot?_of_mem {kind : NodeKind} :
    ∀ entry ∈ kind.layout, kind.slot? entry.1.word = some entry.2 := by
  cases kind <;> simp [layout, slot?, Field.word]

end NodeKind

namespace Tree

variable {α : Type} {t u : Tree α}

/-! ### Walks -/

/-- A walk visits the node itself and whatever the walks of the nodes below it visit. -/
theorem mem_walk : u ∈ t.walk ↔ u = t ∨ ∃ c ∈ t.subnodes, u ∈ c.walk := by
  rw [walk_eq, List.mem_cons, List.mem_flatMap]

/-- What holds of a node and of what is visited below it holds of all that is visited. -/
theorem forall_mem_walk {P : Tree α → Prop} :
    (∀ u ∈ t.walk, P u) ↔ P t ∧ ∀ c ∈ t.subnodes, ∀ u ∈ c.walk, P u := by
  rw [walk_eq, List.forall_mem_cons, List.forall_mem_flatMap]

/-- The nodes right below a node are its value and its children. -/
theorem mem_subnodes : u ∈ t.subnodes ↔ t.value = .node u ∨ u ∈ t.children := by
  have hvalue : u ∈ t.value.nodes ↔ t.value = .node u := by
    cases t.value <;> simp [Value.nodes, eq_comm]
  cases h : t.kind.valueFirst <;> simp [subnodes, h, hvalue, or_comm]

/-- What holds of the nodes in the value and of the children holds of all nodes below a node. -/
theorem forall_mem_subnodes {P : Tree α → Prop} :
    (∀ c ∈ t.subnodes, P c) ↔ (∀ c ∈ t.value.nodes, P c) ∧ ∀ c ∈ t.children, P c := by
  cases h : t.kind.valueFirst <;> simp [subnodes, h, or_imp, forall_and, and_comm]

/-- Without a value the nodes below are the children. -/
@[simp] theorem subnodes_none (kind : NodeKind) (ts : List (Tree α)) (mark : α) :
    subnodes ⟨kind, .none, ts, mark⟩ = ts := by
  cases h : kind.valueFirst <;> simp [subnodes, h, Value.nodes]

/-- With a text the nodes below are the children. -/
@[simp] theorem subnodes_text (kind : NodeKind) (s : String) (ts : List (Tree α)) (mark : α) :
    subnodes ⟨kind, .text s, ts, mark⟩ = ts := by
  cases h : kind.valueFirst <;> simp [subnodes, h, Value.nodes]

/-- The shapes of the nodes below are the nodes below the shape. -/
theorem subnodes_shape (t : Tree α) : t.shape.subnodes = t.subnodes.map shape := by
  rcases t with ⟨kind, _ | s | u, children, mark⟩ <;> cases h : kind.valueFirst <;>
    simp [subnodes, h, Value.nodes]

/-- A walk visits a shape as it visits the tree. -/
theorem walk_shape (t : Tree α) : t.shape.walk = t.walk.map shape := by
  induction t using induct with
  | step kind value children mark hvalue hchildren =>
      have hbelow : ∀ c ∈ subnodes ⟨kind, value, children, mark⟩,
          c.shape.walk = c.walk.map shape := by
        intro c hc
        rcases mem_subnodes.1 hc with hc | hc
        · exact hvalue c hc
        · exact hchildren c hc
      rw [walk_eq, walk_eq (mk ..), subnodes_shape, List.flatMap_map, List.map_cons,
        List.map_flatMap, List.flatMap_congr hbelow]

/-! ### Fields -/

/-- The kind of a node is one that the grammar makes, and the node has the value and the children
that its kind asks for. Only a slice has the mark of a bound that is left out below it. -/
structure IsComplete (t : Tree α) : Prop where
  known : t.kind ∈ NodeKind.known
  specific : t.kind ≠ .binary
  content : t.value.content = t.kind.content
  arity : ∀ n, t.kind.arity? = some n → t.children.length = n
  placed : ∀ u ∈ t.subnodes, u.kind = .absent → t.kind = .slice

/-- A shape has as many children. -/
theorem length_children_shape (t : Tree α) : t.shape.children.length = t.children.length := by
  rcases t with ⟨kind, _ | s | u, children, mark⟩ <;> simp

/-- A shape has a value of the same sort. -/
theorem content_shape (t : Tree α) : t.shape.value.content = t.value.content := by
  rcases t with ⟨kind, _ | s | u, children, mark⟩ <;> simp [Value.content]

/-- Nodes are complete if they have a shape that is. -/
theorem isComplete_of_shape (h : t.shape.IsComplete) : t.IsComplete := by
  obtain ⟨hknown, hspecific, hcontent, harity, hplaced⟩ := h
  rw [kind_shape] at hknown hspecific hcontent harity hplaced
  rw [content_shape] at hcontent
  rw [length_children_shape] at harity
  refine ⟨hknown, hspecific, hcontent, harity, fun u hu hkind => ?_⟩
  rw [subnodes_shape] at hplaced
  exact hplaced _ (List.mem_map_of_mem hu) (by rw [kind_shape, hkind])

/-- The nodes of a tree are complete if those of its shape are. -/
theorem forall_isComplete_of_shape (h : ∀ u ∈ t.shape.walk, u.IsComplete) :
    ∀ u ∈ t.walk, u.IsComplete := by
  intro u hu
  refine isComplete_of_shape (h _ ?_)
  rw [walk_shape]
  exact List.mem_map_of_mem hu

/-- A complete node has something in every slot of its layout. -/
theorem IsComplete.part (h : t.IsComplete) :
    ∀ entry ∈ t.kind.layout, ∃ part, t.part entry.2 = .ok part := by
  intro entry hentry
  rcases hslot : entry.2 with _ | i | _
  · exact ⟨_, rfl⟩
  · obtain ⟨n, hn, hi⟩ := NodeKind.exists_arity entry hentry i hslot
    have hlt : i < t.children.length := by rwa [h.arity n hn]
    exact ⟨_, by rw [Tree.part, List.getElem?_eq_getElem hlt]⟩
  · exact ⟨_, rfl⟩

/-- A complete node has all the fields of its kind. -/
theorem IsComplete.field (h : t.IsComplete) :
    ∀ entry ∈ t.kind.layout, ∃ part, t.field entry.1.word = .ok part := by
  intro entry hentry
  rw [Tree.field, NodeKind.slot?_of_mem entry hentry]
  exact h.part entry hentry

/-- A complete node has all fields of its kind. -/
theorem IsComplete.fields (h : t.IsComplete) : ∃ parts, t.fields = .ok parts := by
  refine exists_mapM_eq_ok fun entry hentry => ?_
  obtain ⟨part, hpart⟩ := h.part entry hentry
  exact ⟨(entry.1, part), by rw [hpart]; rfl⟩

end Tree

end Sigil
