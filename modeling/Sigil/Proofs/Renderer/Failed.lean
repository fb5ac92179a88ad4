import Sigil.Proofs.Renderer.Added

/-!
# Renderings that fail

A tree that is no program is refused, and the renderer stays as it was. This is the only way in
which a document is not rendered. A program that cannot be rendered has a first statement that
cannot be, and the statements in front of it have been written by then: the renderer is left as it
is behind a program that consists of them alone. So what is rendered next gets the same lines as
without the failed call, behind those. Nothing takes back what was written.

Source text that fails within a block is the exception. Some lines of the block are left too, and
the block counts as open. Whether later calls fail, and why, does not depend on that.

## Main definitions

* `Output.Ahead`: outputs that differ in some lines that only one of them has.
* `Renderer.Leaves`: what a failed call leaves.

## Main results

* `Renderer.behind_ahead`: the lines stay where they are.
* `Renderer.render_failure`: what a failed call leaves, and what is rendered behind it.
* `Renderer.render_failure_source`: a failed call that leaves a line.
-/

namespace Sigil

/-! ### Outputs with some lines more -/

namespace Output

variable {before added : List String} {opened : Nat} {o o' : Output}

/-- The first output has the lines `added` behind the lines `before` and some more blocks open, and
otherwise is the same as the second. With blocks open the lines behind may be indented otherwise. -/
inductive Ahead (before added : List String) (opened : Nat) : Output → Output → Prop
  | source {more more' : List String} {depth : Nat} (h : opened = 0 → more' = more) :
      Ahead before added opened (.source ⟨before ++ added ++ more', depth + opened⟩)
        (.source ⟨before ++ more, depth⟩)
  | sexpr {more : List String} :
      Ahead before added opened (.sexpr (before ++ added ++ more)) (.sexpr (before ++ more))

/-- Output is ahead of what it was by what has been added. -/
theorem Ahead.of_put_nest (h : o.target ≠ .json) (added : List String) (opened : Nat) :
    Ahead o.lines added opened ((o.put added).nest opened) o := by
  have hnil (ls : List String) : ls = ls ++ [] := (List.append_nil ls).symm
  cases o with
  | source sheet =>
      have hahead : Ahead sheet.lines added opened
          (.source ⟨sheet.lines ++ added ++ [], sheet.depth + opened⟩)
          (.source ⟨sheet.lines ++ [], sheet.depth⟩) := .source fun _ => rfl
      rwa [← hnil, ← hnil] at hahead
  | sexpr lines =>
      have hahead : Ahead lines added opened (.sexpr (lines ++ added ++ []))
          (.sexpr (lines ++ [])) := .sexpr
      rwa [← hnil, ← hnil] at hahead
  | json text => exact absurd rfl h

/-- The targets are the same. -/
theorem Ahead.target_eq (h : Ahead before added opened o' o) : o'.target = o.target := by
  cases h <;> rfl

/-- The lines of a program are added behind those that are there. -/
theorem Ahead.put (h : Ahead before added opened o' o) (layout : Nat → List String) :
    Ahead before added opened (o'.put (layout o'.depth)) (o.put (layout o.depth)) := by
  cases h with
  | @source more more' depth h =>
      have hahead : Ahead before added opened
          (.source ⟨before ++ added ++ (more' ++ layout (depth + opened)), depth + opened⟩)
          (.source ⟨before ++ (more ++ layout depth), depth⟩) :=
        .source fun hopened => by rw [h hopened, hopened, Nat.add_zero]
      simp only [← List.append_assoc] at hahead
      exact hahead
  | @sexpr more =>
      have hahead : Ahead before added opened (.sexpr (before ++ added ++ (more ++ layout 0)))
          (.sexpr (before ++ (more ++ layout 0))) := .sexpr
      simp only [← List.append_assoc] at hahead
      exact hahead

/-- More levels on both sides keep the distance. -/
theorem Ahead.nest (h : Ahead before added opened o' o) (k : Nat) :
    Ahead before added opened (o'.nest k) (o.nest k) := by
  cases h with
  | @source more more' depth h =>
      simp only [Output.nest, Nat.add_right_comm depth opened k]
      exact .source h
  | sexpr => exact .sexpr

end Output

/-! ### Calls behind a failed one -/

namespace Renderer

variable {before added : List String} {opened : Nat} {r r' : Renderer} {t : Node}
  {fault : PrintFault}

/-- Two calls end alike: they fail for the same reason, or they give the texts of outputs of which
one has some lines more. What they leave differs in these lines as well. -/
inductive EndsAhead (before added : List String) (opened : Nat) :
    EStateM.Result PrintFault Renderer String → EStateM.Result PrintFault Renderer String → Prop
  | ok {r r' : Renderer} (h : r'.output.Ahead before added opened r.output) :
      EndsAhead before added opened (.ok r'.output.text r') (.ok r.output.text r)
  | error {fault : PrintFault} {r r' : Renderer}
      (h : r'.output.Ahead before added opened r.output) :
      EndsAhead before added opened (.error fault r') (.error fault r)

/-- Whether a call fails does not depend on what is written, and neither does what it adds. -/
theorem render_ahead (h : r'.output.Ahead before added opened r.output) (t : Node) :
    EndsAhead before added opened (render t r') (render t r) := by
  by_cases ht : t.kind = .program
  · cases Output.write_outcome r.output.target t with
    | @printed layout hadds =>
        rw [render_of_adds ht hadds, render_of_adds ht (h.target_eq ▸ hadds)]
        exact @EndsAhead.ok _ _ _ ⟨_, _⟩ ⟨_, _⟩ (h.put layout)
    | @stopped _ _ _ _ layout part more _ _ hhalts _ _ =>
        rw [render_of_halts ht hhalts, render_of_halts ht (h.target_eq ▸ hhalts)]
        have hput := h.put fun depth => layout depth ++ part depth
        exact @EndsAhead.error _ _ _ _ ⟨_, _⟩ ⟨_, _⟩ (hput.nest more)
  · rw [render_of_not_program ht, render_of_not_program ht]
    exact .error h

/-- The lines stay where they are, whatever is rendered next. -/
theorem behind_ahead (h : r'.output.Ahead before added opened r.output) (ts : List Node) :
    (r'.behind ts).output.Ahead before added opened (r.behind ts).output := by
  induction ts generalizing r r' with
  | nil => exact h
  | cons t ts ih =>
      have hend := render_ahead h t
      rw [behind, behind]
      generalize render t r' = x, render t r = y at hend
      cases hend with
      | ok h => exact ih h
      | error h => exact ih h

/-! ### What a failed call leaves -/

/-- What a failed call with a program leaves. The statement `u` is the first that cannot be
rendered, and no renderer for the target can render it. The lines that the statements `ss` in front
of it are rendered as are left, and something of `u` itself only if it is a block of source text.
Otherwise the renderer is left as it is behind the program of the statements in front, or as it was
if there are none. -/
structure Leaves (t : Node) (r : Renderer) (fault : PrintFault) (r' : Renderer) (ss : List Node)
    (u : Node) (front part : List String) (opened : Nat) : Prop where
  kind : t.kind = .program
  target_ne : r.output.target ≠ .json
  split : ∃ more, t.children = ss ++ u :: more
  faulty (s : Renderer) (h : s.output.target = r.output.target) :
    ∃ s', render { t with children := [u] } s = .error fault s'
  front_eq : if ss = [] then front = [] else ∃ text, render { t with children := ss } r =
    .ok text { r with output := r.output.put front }
  behind_eq : r' = { r with output := (r.output.put (front ++ part)).nest opened }
  of_line (h : r.output.target = .source → u.kind ≠ .block) : part = [] ∧ opened = 0 ∧
    if ss = [] then r' = r else ∃ text, render { t with children := ss } r = .ok text r'

/-- A program that is not rendered has a first statement that fails. -/
theorem exists_leaves (ht : t.kind = .program) (h : render t r = .error fault r') :
    ∃ ss u front part opened, Leaves t r fault r' ss u front part opened := by
  cases Output.write_outcome r.output.target t with
  | printed hadds =>
      rw [render_of_adds ht hadds] at h
      cases h
  | @stopped ss more u fault layout part opened hsplit hfront hhalts hu hpart =>
      rw [render_of_halts ht hhalts] at h
      cases h
      have htarget : r.output.target ≠ .json := by
        intro hjson
        rw [hjson] at hhalts
        cases hhalts (.json "") rfl
      have hleads : if ss = [] then layout r.output.depth = [] else
          ∃ text, render { t with children := ss } r =
            .ok text { r with output := r.output.put (layout r.output.depth) } := by
        rw [Output.Leads] at hfront
        split at hfront
        · next hss => simpa [hss] using hfront _
        · next hss => simpa [hss] using ⟨_, render_of_adds ht hfront⟩
      refine ⟨ss, u, layout r.output.depth, part r.output.depth, opened, ht, htarget,
        ⟨more, hsplit⟩, fun s hs => ⟨_, render_of_halts ht (hs ▸ hu)⟩, hleads, rfl,
        fun hline => ⟨(hpart hline).1 _, (hpart hline).2, ?_⟩⟩
      simp only [(hpart hline).1, (hpart hline).2, List.append_nil, Output.nest_zero]
      split
      · next hss =>
          rw [if_pos hss] at hleads
          rw [hleads, Output.put_nil htarget]
      · next hss => rwa [if_neg hss] at hleads

/-- A call that fails with a tree that is no program leaves the renderer as it was. A call that
fails with a program, which is never one for documents, leaves it as it is behind the program of the
statements in front of the first one that cannot be rendered, unless that is a block of source text.
Later calls fail as they would have, or give the texts that they would have given with the lines of
these statements behind those that were there. -/
theorem render_failure (t : Node) (r : Renderer) (fault : PrintFault) (r' : Renderer)
    (h : render t r = .error fault r') :
    (t.kind ≠ .program ∧ fault = .notProgram ∧ r' = r) ∨
      ∃ ss u front part opened, Leaves t r fault r' ss u front part opened ∧
        ∀ later p, EndsAhead r.output.lines (front ++ part) opened
          (render p (r'.behind later)) (render p (r.behind later)) := by
  by_cases ht : t.kind = .program
  · obtain ⟨ss, u, front, part, opened, hleaves⟩ := exists_leaves ht h
    refine .inr ⟨ss, u, front, part, opened, hleaves, fun later p => ?_⟩
    have hahead := Output.Ahead.of_put_nest hleaves.target_ne (front ++ part) opened
    rw [hleaves.behind_eq]
    exact render_ahead (behind_ahead hahead later) p
  · rw [render_of_not_program ht] at h
    cases h
    exact .inl ⟨ht, rfl, rfl⟩

/-- A name, and behind it a slice bound that is left out, which is no statement. -/
def nameThenBound : Node :=
  ⟨.program, .none, [⟨.identifier, .text "x", [], ⟨.start, 1⟩⟩, ⟨.absent, .none, [], ⟨.start, 1⟩⟩],
    ⟨.start, 1⟩⟩

/-- The s-expression of the name is left. -/
theorem render_failure_sexpr :
    render nameThenBound ⟨"sexpr", .sexpr ["(source_file)"]⟩ =
      .error (.noSExprForm .absent .start)
        ⟨"sexpr", .sexpr ["(source_file)", "(identifier \"x\")"]⟩ ∧
    ∃ ss u front part opened,
      Leaves nameThenBound ⟨"sexpr", .sexpr ["(source_file)"]⟩ (.noSExprForm .absent .start)
        ⟨"sexpr", .sexpr ["(source_file)", "(identifier \"x\")"]⟩ ss u front part opened := by
  have h : render nameThenBound ⟨"sexpr", .sexpr ["(source_file)"]⟩ =
      .error (.noSExprForm .absent .start)
        ⟨"sexpr", .sexpr ["(source_file)", "(identifier \"x\")"]⟩ := rfl
  obtain ⟨hkind, -⟩ | ⟨ss, u, front, part, opened, hleaves, -⟩ := render_failure _ _ _ _ h
  · exact absurd rfl hkind
  · exact ⟨h, ss, u, front, part, opened, hleaves⟩

/-- The line of the name is left, and the next program is rendered behind it. -/
theorem render_failure_source :
    render nameThenBound ⟨"source", .source ⟨[], 0⟩⟩ =
      .error (.noSourceForm .absent .start) ⟨"source", .source ⟨["x"], 0⟩⟩ ∧
    render ⟨.program, .none, [⟨.identifier, .text "y", [], ⟨.start, 1⟩⟩], ⟨.start, 1⟩⟩
        ⟨"source", .source ⟨[], 0⟩⟩ = .ok "y" ⟨"source", .source ⟨["y"], 0⟩⟩ ∧
    render ⟨.program, .none, [⟨.identifier, .text "y", [], ⟨.start, 1⟩⟩], ⟨.start, 1⟩⟩
        ⟨"source", .source ⟨["x"], 0⟩⟩ = .ok "x\ny" ⟨"source", .source ⟨["x", "y"], 0⟩⟩ :=
  ⟨rfl, rfl, rfl⟩

end Renderer

end Sigil
