import Sigil.Proofs.Print.Document

/-!
# Equality of trees

A tree is its shape and the marks of its nodes, in the order of a walk. How many marks there are and
which node each of them belongs to is determined by the shape, so trees of one shape with the same
marks are equal, whatever their kinds and even where nodes are kept both in a value and among the
children. Equality, the shape and a document visit these two parts in another order than a walk.

## Main definitions

* `Tree.marks`: the marks of the nodes of a tree in pre-order.

## Main results

* `Tree.eq_iff_shape_marks`: trees are equal if their shapes and their marks are.
* `Tree.toJson_inj`: trees are equal if their documents are.
-/

namespace Sigil.Tree

variable {α : Type} {t u : Tree α} {ts us : List (Tree α)}

/-! ### Shapes -/

theorem sameShape_iff : t.sameShape u = true ↔ t.shape = u.shape :=
  decide_eq_true_iff

/-- Having the same shape is an equivalence. -/
theorem sameShape_equivalence : Equivalence fun t u : Tree α => t.sameShape u = true where
  refl _ := sameShape_iff.2 rfl
  symm h := sameShape_iff.2 (sameShape_iff.1 h).symm
  trans h h' := sameShape_iff.2 ((sameShape_iff.1 h).trans (sameShape_iff.1 h'))

/-! ### Marks -/

/-- The marks of the nodes of a tree in pre-order. -/
def marks (t : Tree α) : List α :=
  t.walk.map mark

/-- The mark of a node comes before the marks below it. -/
theorem marks_eq (t : Tree α) : t.marks = t.mark :: t.subnodes.flatMap marks := by
  rw [marks, walk_eq, List.map_cons, List.map_flatMap]
  rfl

theorem length_marks (t : Tree α) : t.marks.length = t.shape.walk.length := by
  rw [marks, walk_shape, List.length_map, List.length_map]

/-- A node is determined by its shape, its mark and the nodes directly below it. -/
theorem eq_of_subnodes (hshape : t.shape = u.shape) (hmark : t.mark = u.mark)
    (hbelow : t.subnodes = u.subnodes) : t = u := by
  obtain ⟨kind, value, children, mark⟩ := t
  obtain rfl : mark = u.mark := hmark
  cases value with
  | none =>
      rw [shape_none] at hshape
      obtain ⟨us, mark, rfl, -⟩ := of_shape_none hshape.symm
      simpa using hbelow
  | text s =>
      rw [shape_text] at hshape
      obtain ⟨us, mark, rfl, -⟩ := of_shape_text hshape.symm
      simpa using hbelow
  | node r =>
      rw [shape_node] at hshape
      obtain ⟨v, us, mark, rfl, -⟩ := of_shape_node hshape.symm
      cases hfirst : kind.valueFirst <;>
        simpa [subnodes, hfirst, Value.nodes, and_comm] using hbelow

/-- Marks in a row belong to the same trees if these have the same shapes, for a shape says how many
marks its trees have. -/
theorem eq_of_flatMap_marks (ih : ∀ t ∈ ts, ∀ u, t.shape = u.shape → t.marks = u.marks → t = u)
    (hshapes : ts.map shape = us.map shape) (hmarks : ts.flatMap marks = us.flatMap marks) :
    ts = us := by
  induction ts generalizing us with
  | nil => exact (List.map_eq_nil_iff.1 hshapes.symm).symm
  | cons t ts ihs =>
      obtain ⟨ht, hts⟩ := List.forall_mem_cons.1 ih
      obtain ⟨u, us, rfl, hshape, hrest⟩ := List.map_eq_cons_iff.1 hshapes.symm
      rw [List.flatMap_cons, List.flatMap_cons] at hmarks
      have hlength : t.marks.length = u.marks.length := by
        rw [length_marks, length_marks, hshape]
      obtain ⟨hmark, hbehind⟩ := List.append_inj hmarks hlength
      rw [ht u hshape.symm hmark, ihs hts hrest.symm hbehind]

/-- Trees are equal if they have the same shape and the same marks. -/
theorem eq_iff_shape_marks : t = u ↔ t.shape = u.shape ∧ t.marks = u.marks := by
  refine ⟨fun h => h ▸ ⟨rfl, rfl⟩, ?_⟩
  rintro ⟨hshape, hmarks⟩
  induction t using induct generalizing u with
  | step kind value children mark hvalue hchildren =>
      have hbelow : ∀ c ∈ subnodes ⟨kind, value, children, mark⟩, ∀ d, c.shape = d.shape →
          c.marks = d.marks → c = d := by
        intro c hc d hs hm
        rcases mem_subnodes.1 hc with hc | hc
        · exact hvalue c hc hs hm
        · exact hchildren c hc hs hm
      rw [marks_eq, marks_eq u] at hmarks
      obtain ⟨hmark, hmarks⟩ := List.cons.inj hmarks
      have hshapes := congrArg subnodes hshape
      rw [subnodes_shape, subnodes_shape] at hshapes
      exact eq_of_subnodes hshape hmark (eq_of_flatMap_marks hbelow hshapes hmarks)

/-! ### Documents -/

/-- Trees are equal if their documents are. -/
theorem toJson_inj {t u : Node} (ht : t.IsNamed) (hu : u.IsNamed) :
    t.toJson = u.toJson ↔ t = u := by
  refine ⟨fun h => ?_, fun h => h ▸ rfl⟩
  have hread := ofJson_toJson ht
  rw [h, ofJson_toJson hu] at hread
  exact (Option.some.inj hread).symm

end Sigil.Tree
