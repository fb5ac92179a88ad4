import Sigil.Proofs.Print.Unplaced
import Sigil.Proofs.Renderer.Added
import Sigil.Proofs.Tree.Equality

/-!
# Trees that are printed alike

Trees of the same shape differ at most in places, and so neither what is printed for them nor the
reason why nothing is printed tells them apart.

## Main definitions

* `PrintedAlike`: trees for which the printers do the same.

## Main results

* `Tree.printedAlike`: trees of the same shape are printed alike.
* `Tree.beq_splits`: equality is having the same shape and the same places, and the shape alone
  determines what is printed.
-/

namespace Sigil

/-! ### Outputs -/

namespace Output

theorem append_unplaced (lines : List Printed) :
    append (lines.map fun line => line.mapError .unplaced) =
      (append lines).adaptExcept .unplaced := by
  induction lines with
  | nil => rfl
  | cons line lines ih =>
      cases line with
      | error fault => rfl
      | ok text =>
          have hline : (modify (· ++ [text]) : EStateM PrintFault (List String) Unit).adaptExcept
              PrintFault.unplaced = modify (· ++ [text]) := rfl
          rw [append, adaptExcept_bind, hline, ← ih]
          rfl

/-- A program is added to source text or to s-expressions without regard to places. -/
theorem write_unplaced (t : Node) {output : Output} (h : output.target ≠ .json) :
    write t.unplaced output = (write t).adaptExcept .unplaced output := by
  obtain ⟨kind, value, ts, mark⟩ := t
  cases output with
  | source sheet =>
      rw [Tree.unplaced_mk, write, Source.statements_unplaced]
      simp only [EStateM.adaptExcept, write]
      cases Source.statements Source.indentWidth ts sheet <;> rfl
  | sexpr lines =>
      rw [write, SExpr.lines_unplaced, append_unplaced]
      simp only [EStateM.adaptExcept, write]
      cases append (SExpr.lines ⟨kind, value, ts, mark⟩) lines <;> rfl
  | json text => exact absurd rfl h

end Output

/-- The printers of source text and of s-expressions do the same for the trees, up to the places
that faults name: they print the same texts, or fail for the same reason behind the same lines. -/
structure PrintedAlike (t u : Node) : Prop where
  expression (least : Int) : (Source.expression t least).mapError PrintFault.unplaced =
    (Source.expression u least).mapError .unplaced
  statement (width : Int) : (Source.statement width t).adaptExcept PrintFault.unplaced =
    (Source.statement width u).adaptExcept .unplaced
  program (width : Int) : (Source.program width t).mapError PrintFault.unplaced =
    (Source.program width u).mapError .unplaced
  datum : (SExpr.expression t).mapError PrintFault.unplaced =
    (SExpr.expression u).mapError .unplaced
  data : (SExpr.program t).mapError PrintFault.unplaced = (SExpr.program u).mapError .unplaced
  write (output : Output) (h : output.target ≠ .json) :
    (Output.write t).adaptExcept PrintFault.unplaced output =
      (Output.write u).adaptExcept .unplaced output

/-- Trees of the same shape are printed alike. -/
theorem Tree.printedAlike {t u : Node} (h : t.shape = u.shape) : PrintedAlike t u := by
  have hall : t.unplaced = u.unplaced := congrArg (map _) h
  constructor
  · intro least
    rw [← (Source.expression_unplaced t).1, hall, (Source.expression_unplaced u).1]
  · intro width
    rw [← Source.statement_unplaced, hall, Source.statement_unplaced]
  · intro width
    rw [← Source.program_unplaced, hall, Source.program_unplaced]
  · rw [← SExpr.expression_unplaced t, hall, SExpr.expression_unplaced u]
  · rw [← SExpr.program_unplaced, hall, SExpr.program_unplaced]
  · intro output houtput
    rw [← Output.write_unplaced t houtput, hall, Output.write_unplaced u houtput]

/-- Equality is made of the shape and the places. Trees are equal if they have the same shape and
the same marks in the order of a walk, and just as well if they have the same document. To have the
same shape is an equivalence, and the printers that say nothing about places do not tell trees of
one shape apart. No tree has to be one that the language has. -/
theorem Tree.beq_splits :
    (∀ t u : Node, beq t u = true ↔
      t.sameShape u = true ∧ t.walk.map mark = u.walk.map mark) ∧
    (∀ t u : Node, t.IsNamed → u.IsNamed → (beq t u = true ↔ t.toJson = u.toJson)) ∧
    Equivalence (fun t u : Node => t.sameShape u = true) ∧
    ∀ t u : Node, t.sameShape u = true → PrintedAlike t u := by
  refine ⟨fun t u => ?_, fun t u ht hu => ?_, sameShape_equivalence, fun t u h => ?_⟩
  · rw [beq_iff, sameShape_iff]
    exact eq_iff_shape_marks
  · rw [beq_iff, toJson_inj ht hu]
  · exact printedAlike (sameShape_iff.1 h)

/-- A call of a program, with a bound that is left out among its arguments, at two places. It has
neither a source text nor an s-expression. -/
theorem Tree.beq_splits_call :
    let t (p : Position) : Node := ⟨.ofName "call",
      .node ⟨.ofName "program", .none, [], ⟨.start, 0⟩⟩, [⟨.ofName "absent", .none, [], ⟨p, 0⟩⟩],
      ⟨.start, 0⟩⟩
    (∀ p q, p ≠ q → (t p).toJson ≠ (t q).toJson) ∧ ∀ p q, PrintedAlike (t p) (t q) := by
  intro t
  obtain ⟨hmarks, hdocument, -, halike⟩ := beq_splits
  have hnamed (p : Position) : (t p).IsNamed := by
    refine .mk _ ?_ (List.forall_mem_singleton.2 (.mk _ nofun nofun))
    rintro _ ⟨rfl⟩
    exact .mk _ nofun nofun
  refine ⟨fun p q hne h => hne ?_, fun p q => halike _ _ rfl⟩
  have hbeq := (hdocument _ _ (hnamed p) (hnamed q)).2 h
  have hwalk (p : Position) : (t p).walk.map mark = [⟨.start, 0⟩, ⟨.start, 0⟩, ⟨p, 0⟩] := rfl
  simpa [hwalk] using ((hmarks _ _).1 hbeq).2

end Sigil
