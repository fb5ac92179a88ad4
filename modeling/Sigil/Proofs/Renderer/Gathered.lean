import Sigil.Proofs.Print.Parsed
import Sigil.Proofs.Renderer.Added

/-!
# Renderings one after the other

A renderer that is called again and again puts its text together from the texts that the programs
have by themselves. What it adds for a program does not depend on what it has written, and every
block that a program opens is closed behind it. So source text and s-expressions are the texts of
the programs joined by newlines. A program without statements has no source lines, so it does not
count there, while its s-expression is a line like any other. A document is that of the last program
only.

## Main definitions

* `Target.gathered`: the text put together from those of the programs.
* `Output.Gathers`: what is written behind some programs.

## Main results

* `Output.Gathers.text_eq`: the text of an output behind some programs.
* `Renderer.render_gathered`: what is rendered behind any calls.
-/

namespace Sigil

/-! ### Lines of programs one after the other -/

/-- The text of a program by itself, if it can be printed. -/
def Target.textOf (target : Target) (p : Node) : String :=
  match Output.write p (.empty target) with
  | .ok _ o => o.text
  | .error _ _ => ""

/-- The text put together from those of the programs: all the texts line by line, for source text
without those of the programs that have no statements, and for documents the last one alone. -/
def Target.gathered : Target → List Node → String
  | .source, ps => Text.joined "\n" ((ps.filter fun p => !p.children.isEmpty).map source.textOf)
  | .sexpr, ps => Text.joined "\n" (ps.map sexpr.textOf)
  | .json, ps => (ps.getLast?.map json.textOf).getD ""

/-- Joined lines stay the same when more of them are added, joined already. -/
theorem joined_append_congr {ls ms ns : List String}
    (h : Text.joined "\n" ls = Text.joined "\n" ms) (hnil : ls = [] ↔ ms = []) (hns : ns ≠ []) :
    Text.joined "\n" (ls ++ ns) = Text.joined "\n" (ms ++ [Text.joined "\n" ns]) := by
  by_cases hls : ls = []
  · rw [hls, hnil.1 hls]
    rfl
  · have hms : ms ≠ [] := fun hms => hls (hnil.2 hms)
    rw [← String.toList_inj, joined_append hls hns, joined_append hms (by simp), h]
    rfl

namespace Output

variable {target : Target} {ps : List Node} {o : Output} {p : Node}
  {layout : Nat → List String}

/-- What is written for a target behind some programs, with no block open. -/
inductive Gathers (target : Target) : List Node → Output → Prop
  | none : Gathers target [] (.empty target)
  | put {ps : List Node} {o : Output} {p : Node} {layout : Nat → List String}
      (h : Gathers target ps o) (hp : Adds target p layout) :
      Gathers target (ps ++ [p]) (o.put (layout 0))

/-- The target stays the same. -/
theorem Gathers.target_eq (h : Gathers target ps o) : o.target = target := by
  induction h with
  | none => exact target_empty target
  | put _ _ ih => rw [target_put, ih]

/-- The depth is back at zero behind each program. -/
theorem Gathers.depth_eq (h : Gathers target ps o) : o.depth = 0 := by
  induction h with
  | none => cases target <;> rfl
  | put _ _ ih => rw [depth_put, ih]

/-- The text of the output is its lines, except for documents. -/
theorem text_of_lines (h : o.target ≠ .json) : o.text = Text.joined "\n" o.lines := by
  cases o with
  | source sheet => rfl
  | sexpr lines => rfl
  | json text => exact absurd rfl h

/-- Lines are added behind the others. -/
theorem lines_put (h : o.target ≠ .json) (ls : List String) : (o.put ls).lines = o.lines ++ ls := by
  cases o with
  | source sheet => rfl
  | sexpr lines => rfl
  | json text => exact absurd rfl h

/-- Lines in empty output are its text. -/
theorem text_put_empty (target : Target) (ls : List String) :
    ((empty target).put ls).text = Text.joined "\n" ls := by
  cases target <;> rfl

/-- What a program adds at the depth zero is its text on its own. -/
theorem Adds.textOf_eq (h : Adds target p layout) :
    target.textOf p = Text.joined "\n" (layout 0) := by
  have hwrite := h.write_eq (.empty target) (target_empty target)
  rw [Gathers.none.depth_eq] at hwrite
  rw [Target.textOf, hwrite]
  exact text_put_empty target (layout 0)

/-- The lines behind some programs are those of their texts. The programs without lines do not
count. -/
theorem Gathers.lines_eq (h : Gathers target ps o) (counts : Node → Bool)
    (hcounts : ∀ p, counts p = false ↔ target = .source ∧ p.children = [])
    (htarget : target ≠ .json) :
    (o.lines = [] ↔ (ps.filter counts).map target.textOf = []) ∧
      Text.joined "\n" o.lines = Text.joined "\n" ((ps.filter counts).map target.textOf) := by
  induction h with
  | none => cases target <;> exact ⟨by simp [lines, empty, Sheet.empty], rfl⟩
  | @put ps o p layout h hp ih =>
      have hnil := (hp.eq_nil_iff 0).trans (hcounts p).symm
      rw [lines_put (h.target_eq ▸ htarget), List.filter_append, List.map_append]
      by_cases hp' : counts p = true
      · have hne : layout 0 ≠ [] := fun hlayout => by simp [hnil.1 hlayout] at hp'
        rw [List.filter_cons_of_pos hp', List.filter_nil, List.map_singleton, hp.textOf_eq]
        exact ⟨by simp [hne], joined_append_congr ih.2 ih.1 hne⟩
      · rw [List.filter_cons_of_neg hp', hnil.2 (by simpa using hp')]
        simpa using ih

/-- The text behind some programs is put together from those of the programs. -/
theorem Gathers.text_eq (h : Gathers target ps o) : o.text = target.gathered ps := by
  cases target with
  | source =>
      rw [text_of_lines (by simp [h.target_eq])]
      exact (h.lines_eq (fun p => !p.children.isEmpty) (by simp) (by simp)).2
  | sexpr =>
      rw [text_of_lines (by simp [h.target_eq]), Target.gathered]
      have hlines := h.lines_eq (fun _ => true) (by simp) (by simp)
      rw [List.filter_true] at hlines
      exact hlines.2
  | json =>
      cases h with
      | none => rfl
      | @put ps o p layout h hp =>
          rw [Target.gathered, List.getLast?_concat, Option.map_some, Option.getD_some,
            hp.textOf_eq]
          obtain ⟨text, rfl⟩ := exists_document h.target_eq
          rfl

end Output

/-! ### Parsed programs -/

namespace Renderer

variable {r : Renderer} {target : Target} {ps ts : List Node} {p t : Node}

/-- A parsed program is rendered. -/
theorem exists_adds (h : ∃ room text, parseText room text = .ok p) (target : Target) :
    p.kind = .program ∧ ∃ layout, Output.Adds target p layout := by
  obtain ⟨room, text, htext⟩ := h
  have hp := wellFormedProgram_of_parseText htext
  have hkind : p.kind = .program := by
    obtain ⟨σs, hσ, -⟩ := hp
    rw [← Tree.kind_shape, hσ]
  refine ⟨hkind, ?_⟩
  cases Output.write_outcome target p with
  | printed h => exact ⟨_, h⟩
  | stopped _ _ h _ _ =>
      obtain ⟨out, r, hr⟩ := hp.exists_render ⟨"", .empty target⟩
      rw [render_of_halts hkind (by simpa using h)] at hr
      cases hr

/-- Calls with parsed programs and with trees that are no programs write what the programs give. -/
theorem gathers_behind (h : Output.Gathers target ps r.output)
    (hts : ∀ t ∈ ts, t.kind = .program → ∃ room text, parseText room text = .ok t) :
    Output.Gathers target (ps ++ ts.filter (·.kind = .program)) (r.behind ts).output := by
  induction ts generalizing r ps with
  | nil => simpa [behind] using h
  | cons t ts ih =>
      obtain ⟨ht, hts⟩ := List.forall_mem_cons.1 hts
      by_cases hkind : t.kind = .program
      · obtain ⟨-, layout, hadds⟩ := exists_adds (ht hkind) target
        have hput := h.put hadds
        rw [← h.target_eq] at hadds
        rw [behind_cons_ok (render_of_adds hkind hadds),
          List.filter_cons_of_pos (by simpa using hkind), List.append_cons]
        refine ih ?_ hts
        rwa [h.depth_eq]
      · rw [behind_cons_error (render_of_not_program hkind r),
          List.filter_cons_of_neg (by simpa using hkind)]
        exact ih h hts

/-- A renderer that is made for a name starts empty. -/
theorem eq_of_ofName {name : String} (h : ofName name = .ok r) :
    ∃ target, r = ⟨Text.lowercase name, .empty target⟩ := by
  simp only [ofName] at h
  split at h
  · next target _ => exact ⟨target, (Except.ok.inj h).symm⟩
  · cases h

/-- A renderer that is called with parsed programs gives, for source text, the texts that those of
them with at least one statement have by themselves, line by line; for s-expressions, the texts that
all of them have; and for documents, the text of the last one alone. Every text has all blocks
closed behind it. Calls in between with trees that are no programs fail and change nothing. -/
theorem render_gathered (name : String) (r : Renderer) (hname : ofName name = .ok r) :
    (∀ room text p, parseText room text = .ok p →
      Sigil.render p name = .ok (r.output.target.textOf p)) ∧
    ∀ before : List Node,
      (∀ t ∈ before, t.kind = .program → ∃ room text, parseText room text = .ok t) →
      ∀ p, (p.kind ≠ .program →
          render p (r.behind before) = .error .notProgram (r.behind before)) ∧
        ∀ room text, parseText room text = .ok p → ∃ r', render p (r.behind before) =
          .ok (r.output.target.gathered (before.filter (·.kind = .program) ++ [p])) r' ∧
            r'.output.depth = 0 := by
  obtain ⟨target, rfl⟩ := eq_of_ofName hname
  rw [Output.target_empty]
  refine ⟨fun room text p hp => ?_, fun before hbefore p =>
    ⟨fun hkind => render_of_not_program hkind _, fun room text hp => ?_⟩⟩
  · obtain ⟨hkind, layout, h⟩ := exists_adds ⟨room, text, hp⟩ target
    have hrender := render_of_adds (r := ⟨Text.lowercase name, .empty target⟩) hkind
      (by rwa [Output.target_empty])
    simp only [Sigil.render, hname, bind, Except.bind, hrender, Output.text_put_empty,
      Output.Gathers.none.depth_eq, h.textOf_eq]
    rfl
  · obtain ⟨hkind, layout, h⟩ := exists_adds ⟨room, text, hp⟩ target
    have hgathers := gathers_behind (r := ⟨Text.lowercase name, .empty target⟩) .none hbefore
    have hput := hgathers.put h
    rw [← hgathers.depth_eq] at hput
    rw [← hgathers.target_eq] at h
    have hrender := render_of_adds hkind h
    rw [hput.text_eq, List.nil_append] at hrender
    exact ⟨_, hrender, hput.depth_eq⟩

/-- A block is rendered twice in the same way, with a call in between that fails. -/
theorem render_gathered_block :
    ofName "source" = .ok ⟨"source", .source .empty⟩ ∧
      ∃ p leaf : Node, parseText 900 "\x7bx\x7d" = .ok p ∧ leaf.kind ≠ .program ∧
        ∃ r', render p (behind ⟨"source", .source .empty⟩ [p, leaf]) =
          .ok "\x7b\n    x\n\x7d\n\x7b\n    x\n\x7d" r' ∧ r'.output.depth = 0 := by
  let leaf : Node := ⟨.identifier, .text "x", [], ⟨⟨1, 1, 2⟩, 2⟩⟩
  let p : Node := ⟨.program, .none, [⟨.block, .none, [leaf], ⟨⟨0, 1, 1⟩, 3⟩⟩], ⟨⟨0, 1, 1⟩, 3⟩⟩
  have hp : parseText 900 "\x7bx\x7d" = .ok p := by
    have htext : TokenStream.ofText "\x7bx\x7d" =
        ⟨[⟨.symbol .lbrace, "\x7b", ⟨0, 1, 1⟩⟩, ⟨.identifier, "x", ⟨1, 1, 2⟩⟩,
          ⟨.symbol .rbrace, "\x7d", ⟨2, 1, 3⟩⟩, ⟨.endOfInput, "", ⟨3, 1, 4⟩⟩], none⟩ := by
      decide +kernel
    rw [parseText, htext]
    cbv
  have hname : ofName "source" = .ok ⟨"source", .source .empty⟩ := by decide
  obtain ⟨-, hrender⟩ := render_gathered "source" _ hname
  have hbefore : ∀ t ∈ [p, leaf], t.kind = .program → ∃ room text, parseText room text = .ok t :=
    List.forall_mem_cons.2 ⟨fun _ => ⟨_, _, hp⟩,
      List.forall_mem_singleton.2 fun hkind => absurd hkind (by decide)⟩
  obtain ⟨r', hr', hdepth⟩ := (hrender [p, leaf] hbefore p).2 _ _ hp
  refine ⟨hname, p, leaf, hp, by decide, r', ?_, hdepth⟩
  have htext : Target.gathered .source [p, p] = "\x7b\n    x\n\x7d\n\x7b\n    x\n\x7d" := by
    decide
  rw [← htext]
  exact hr'

end Renderer

end Sigil
