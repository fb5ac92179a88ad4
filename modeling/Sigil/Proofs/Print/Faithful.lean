import Sigil.Proofs.Print.NodeDatum
import Sigil.Proofs.Print.Parsed

/-!
# S-expressions tell programs apart

The s-expression of a tree is the text of the datum of its shape, and the lines of a program are the
texts of the data of its statements. Data are read from their texts in one way only, and data
determine shapes, so parsed programs have the same s-expressions exactly if they have the same
shape. The line of an empty program is that of a program without statements, which is itself no
statement.

## Main definitions

* `SExpr.HasDatum`: the s-expression of a tree is the text of the datum of its shape.
* `Tree.lineData`: the data of the lines of a program.

## Main results

* `SExpr.hasDatum`: trees all of whose nodes are complete are the texts of their data.
* `render_sexpr_faithful`: parsed programs with the same s-expressions have the same shape.
-/

namespace Sigil

open SExpr (Datum)

/-! ### S-expressions are texts of data -/

namespace SExpr

open Sigil.Tree (datum? valueDatum)

/-- The s-expression of the tree is the text of the datum of its shape. -/
def HasDatum (t : Node) : Prop :=
  ∃ d, datum? t.shape = some d ∧ d.IsProper ∧ expression t = .ok d.text

section

variable {t : Node} {ts : List Node} {kind : NodeKind} {labels : List Field}

/-- The content of a literal is its datum. -/
theorem content_eq (kind : NodeKind) (s : String) :
    content kind (some s) = (kind.textDatum s).text := by
  by_cases hmember : kind = .member <;>
    simp [content, NodeKind.textDatum, hmember, Datum.text_node, quoted, Datum.text]

/-- Trees that have data are the texts of these one by one. -/
theorem exists_data (h : ∀ t ∈ ts, HasDatum t) :
    ∃ ds : List Datum, (ts.map Tree.shape).map datum? = ds.map some ∧ (∀ d ∈ ds, d.IsProper) ∧
      ts.map expression = ds.map fun d => .ok d.text := by
  induction ts with
  | nil => exact ⟨[], rfl, List.forall_mem_nil _, rfl⟩
  | cons t ts ih =>
      obtain ⟨⟨d, hd, hproper, htext⟩, hrest⟩ := List.forall_mem_cons.1 h
      obtain ⟨ds, hds, hpropers, htexts⟩ := ih hrest
      refine ⟨d :: ds, by simpa [hd] using hds, List.forall_mem_cons.2 ⟨hproper, hpropers⟩, ?_⟩
      rw [List.map_cons, htext, htexts, List.map_cons]

/-- Nodes that have data are printed as those. -/
theorem mapM_expression {ds : List Datum} (h : ts.map expression = ds.map fun d => .ok d.text) :
    ts.mapM expression = .ok (ds.map Datum.text) :=
  calc
    ts.mapM expression = (ts.map expression).mapM id := by rw [List.mapM_map]; rfl
    _ = ds.mapM fun d => .ok d.text := by rw [h, List.mapM_map]; rfl
    _ = .ok (ds.map Datum.text) := mapM_eq_ok fun _ _ => rfl

/-- A child behind a label, or nothing if it is the mark of a bound that is left out. -/
theorem labelledNode_eq (label : String) (h : t.kind ≠ .absent → HasDatum t) :
    (∀ d ∈ datum? t.shape, d.IsProper) ∧ labelledNode label t (expression t) =
      .ok (((datum? t.shape).map (.labelled label)).toList.map Datum.text) := by
  by_cases habsent : t.kind = .absent
  · rw [Tree.datum?_eq_none_iff.2 ((Tree.kind_shape t).trans habsent), labelledNode, if_pos habsent]
    exact ⟨by simp, rfl⟩
  · obtain ⟨d, hd, hproper, htext⟩ := h habsent
    rw [hd, labelledNode, if_neg habsent, htext]
    exact ⟨by simpa using hproper, rfl⟩

/-- The datum of a text is in quotes, or it is the form of an identifier. -/
theorem isProper_textDatum (kind : NodeKind) (s : String) : (kind.textDatum s).IsProper := by
  by_cases hmember : kind = .member
  · rw [NodeKind.textDatum, if_pos hmember]
    exact .node (by decide) (List.forall_mem_singleton.2 (.quoted s))
  · rw [NodeKind.textDatum, if_neg hmember]
    exact .quoted s

/-- Literals have no parts. -/
theorem arity?_of_literal (hliteral : kind ∈ NodeKind.literals) : kind.arity? = some 0 := by
  simp only [NodeKind.literals, List.mem_cons, List.not_mem_nil, or_false] at hliteral
  rcases hliteral with rfl | rfl | rfl | rfl <;> rfl

/-- Nodes of a kind that keeps a field in the value have one. -/
theorem content_of_mem_layout {label : Field} (h : (label, Slot.value) ∈ kind.layout) :
    kind.content ≠ .nothing := by
  cases kind <;> first
    | decide
    | simp [NodeKind.layout] at h

/-- What stands behind a label is the text of the datum that is there. -/
theorem part_eq (ht : t.IsComplete) (hlabels : t.kind.labels? = some labels)
    (hbelow : ∀ c ∈ t.subnodes, c.kind ≠ .absent → HasDatum c) {label : Field}
    (hlabel : label ∈ labels) :
    let d? := t.kind.filled (valueDatum t.kind t.shape.value)
      ((t.children.map Tree.shape).map datum?) label
    (∀ d ∈ d?, d.IsProper) ∧
      part t label = .ok ((d?.map (.labelled label.word)).toList.map Datum.text) := by
  obtain ⟨slot, hmem, hslot⟩ := exists_slot_of_label hlabels label hlabel
  have hfound : t.kind.slot? label.word = some slot := NodeKind.slot?_of_mem _ hmem
  have hcontent := ht.content
  have harity := ht.arity
  obtain ⟨kind, value, children, mark⟩ := t
  dsimp only at *
  rcases slot with _ | i | _
  · have hvalue := hcontent ▸ content_of_mem_layout hmem
    simp only [part, NodeKind.filled, hfound]
    cases value with
    | none => exact absurd rfl hvalue
    | text s =>
        rw [Tree.shape_text, valueDatum]
        refine ⟨by simpa using isProper_textDatum kind s, ?_⟩
        dsimp only
        rw [content_eq]
        rfl
    | node u =>
        rw [Tree.shape_node]
        exact labelledNode_eq _ (hbelow u (Tree.mem_subnodes.2 (.inl rfl)))
  · obtain ⟨n, hn, hi⟩ := NodeKind.exists_arity _ hmem i rfl
    have hlt : i < children.length := by rwa [harity n hn]
    have hchild := labelledNode_eq label.word
      (hbelow children[i] (Tree.mem_subnodes.2 (.inr (List.getElem_mem hlt))))
    simpa [part, NodeKind.filled, hfound, hlt] using hchild
  · exact absurd rfl hslot

/-- The data behind labels are proper if all that stands there is. -/
theorem isProper_labelled {f : Field → Option Datum}
    (h : ∀ label ∈ labels, ∀ d ∈ f label, d.IsProper) :
    ∀ d ∈ NodeKind.labelled labels f, d.IsProper := by
  intro d hd
  obtain ⟨label, hlabel, hd⟩ := List.mem_flatMap.1 hd
  rw [Option.mem_toList, Option.map_eq_some_iff] at hd
  obtain ⟨d, hfound, rfl⟩ := hd
  exact .labelled (NodeKind.isWord_word label) (h label hlabel d hfound)

/-- A node has a datum if its s-expression is the text of its parts. -/
theorem hasDatum_of_parts {value : Value Node} {mark : Extent} {rule : String} {ds : List Datum}
    (hrule : kind.rule? = some rule)
    (hparts : kind.parts (valueDatum kind (Tree.shape ⟨kind, value, ts, mark⟩).value)
      ((ts.map Tree.shape).map datum?) = ds)
    (hproper : ∀ d ∈ ds, d.IsProper)
    (htext : expression ⟨kind, value, ts, mark⟩ = .ok (parenthesized rule (ds.map Datum.text))) :
    HasDatum ⟨kind, value, ts, mark⟩ := by
  have habsent : kind ≠ .absent := by
    rintro rfl
    cases hrule
  have hdatum : datum? (Tree.shape ⟨kind, value, ts, mark⟩) = some (.node rule ds) := by
    subst hparts
    cases value <;> simp [Tree.datum?_of_ne habsent, hrule]
  exact ⟨_, hdatum, .node (NodeKind.isWord_rule hrule) hproper, by rw [htext, Datum.text_node]⟩

/-- A literal is printed as its datum. -/
theorem hasDatum_literal (hliteral : kind ∈ NodeKind.literals) (s : String) (mark : Extent) :
    HasDatum ⟨kind, .text s, [], mark⟩ := by
  simp only [NodeKind.literals, List.mem_cons, List.not_mem_nil, or_false] at hliteral
  rcases hliteral with rfl | rfl | rfl | rfl <;>
    exact hasDatum_of_parts rfl rfl (List.forall_mem_singleton.2 (.quoted s)) rfl

/-- A call is printed as its datum if its parts are. -/
theorem hasDatum_call (ht : HasDatum t) (hts : ∀ t ∈ ts, HasDatum t) (mark : Extent) :
    HasDatum ⟨.call, .node t, ts, mark⟩ := by
  obtain ⟨d, hd, hproper, htext⟩ := ht
  obtain ⟨ds, hds, hpropers, htexts⟩ := exists_data hts
  have hword : Datum.IsWord "function" := by decide
  have hword' : Datum.IsWord "argument_list" := by decide
  have hparts : NodeKind.parts .call
      (valueDatum .call (Tree.shape ⟨.call, .node t, ts, mark⟩).value)
      ((ts.map Tree.shape).map datum?) = .labelled "function" d ::
        if ds.isEmpty then [] else [.node "argument_list" ds] := by
    rw [hds]
    simp [NodeKind.parts, NodeKind.labels?, valueDatum, hd, List.reduceOption]
  refine hasDatum_of_parts rfl hparts ?_ ?_
  · refine List.forall_mem_cons.2 ⟨.labelled hword hproper, ?_⟩
    split
    · exact List.forall_mem_nil _
    · exact List.forall_mem_singleton.2 (.node hword' hpropers)
  · rw [expression_call, htext, mapM_expression htexts]
    cases ds <;> simp [Datum.text, Datum.texts_eq, bind, Except.bind, pure, Except.pure]

/-- A node that holds nothing but children is the text of their data. -/
theorem hasDatum_series {rule : String} (hrule : kind.rule? = some rule)
    (hlabels : kind.labels? = none) (hliteral : kind ∉ NodeKind.literals) (hcall : kind ≠ .call)
    (hts : ∀ t ∈ ts, HasDatum t) (mark : Extent) : HasDatum ⟨kind, .none, ts, mark⟩ := by
  obtain ⟨ds, hds, hproper, htexts⟩ := exists_data hts
  refine hasDatum_of_parts hrule ?_ hproper ?_
  · rw [hds]
    simp [NodeKind.parts, hlabels, hcall, valueDatum, List.reduceOption]
  · rw [expression_series hrule hlabels hliteral hcall, mapM_expression htexts]
    rfl

/-- A node with labels is the text of the data behind them. -/
theorem hasDatum_labelled {rule : String} (ht : t.IsComplete) (hrule : t.kind.rule? = some rule)
    (hlabels : t.kind.labels? = some labels)
    (hbelow : ∀ c ∈ t.subnodes, c.kind ≠ .absent → HasDatum c) : HasDatum t := by
  have hpart := fun label (hlabel : label ∈ labels) => part_eq ht hlabels hbelow hlabel
  have hparts := mapM_eq_ok fun label hlabel => (hpart label hlabel).2
  obtain ⟨kind, value, children, mark⟩ := t
  refine hasDatum_of_parts hrule rfl ?_ ?_
  · simp only [NodeKind.parts, hlabels]
    exact isProper_labelled fun label hlabel => (hpart label hlabel).1
  · rw [expression_labelled hrule hlabels, hparts, NodeKind.parts, hlabels]
    dsimp only
    rw [NodeKind.labelled, List.map_flatMap, List.flatMap_def]
    rfl

/-- Nodes without labels that are no calls and no literals hold nothing but children. -/
theorem content_of_series (hlabels : kind.labels? = none) (hliteral : kind ∉ NodeKind.literals)
    (hcall : kind ≠ .call) (hspecific : kind ≠ .binary) : kind.content = .nothing := by
  cases kind <;> simp_all [NodeKind.labels?, NodeKind.literals, NodeKind.content]

/-- A complete node is the text of its datum if the nodes below it are. -/
theorem hasDatum_of_below (ht : t.IsComplete) (habsent : t.kind ≠ .absent)
    (hbelow : ∀ c ∈ t.subnodes, c.kind ≠ .absent → HasDatum c) : HasDatum t := by
  obtain ⟨rule, hrule⟩ := exists_rule ht habsent
  cases hlabels : t.kind.labels? with
  | some labels => exact hasDatum_labelled ht hrule hlabels hbelow
  | none =>
      have hslice : t.kind ≠ .slice := by
        intro hslice
        rw [hslice] at hlabels
        cases hlabels
      have hall : ∀ c ∈ t.subnodes, HasDatum c :=
        fun c hc => hbelow c hc fun hkind => hslice (ht.placed c hc hkind)
      have hchildren : ∀ c ∈ t.children, HasDatum c :=
        fun c hc => hall c (Tree.mem_subnodes.2 (.inr hc))
      have hcontent := ht.content
      have hspecific := ht.specific
      have harity := ht.arity
      obtain ⟨kind, value, children, mark⟩ := t
      dsimp only at *
      by_cases hliteral : kind ∈ NodeKind.literals
      · obtain ⟨s, rfl⟩ := Value.exists_text (hcontent.trans (content_of_literal hliteral))
        obtain rfl := List.eq_nil_of_length_eq_zero (harity 0 (arity?_of_literal hliteral))
        exact hasDatum_literal hliteral s mark
      by_cases hcall : kind = .call
      · subst hcall
        obtain ⟨u, rfl⟩ := Value.exists_node hcontent
        exact hasDatum_call (hall u (Tree.mem_subnodes.2 (.inl rfl))) hchildren mark
      · have hnothing := hcontent.trans (content_of_series hlabels hliteral hcall hspecific)
        obtain rfl := Value.eq_none hnothing
        exact hasDatum_series hrule hlabels hliteral hcall hchildren mark

/-- A tree all of whose nodes are complete is the text of its datum. -/
theorem hasDatum (h : ∀ u ∈ t.walk, u.IsComplete) (habsent : t.kind ≠ .absent) : HasDatum t := by
  induction t using Tree.induct with
  | step kind value children mark hvalue hchildren =>
      obtain ⟨ht, hbelow⟩ := Tree.forall_mem_walk.1 h
      refine hasDatum_of_below ht habsent fun c hc hkind => ?_
      rcases Tree.mem_subnodes.1 hc with hc' | hc'
      · exact hvalue c hc' (hbelow c hc) hkind
      · exact hchildren c hc' (hbelow c hc) hkind

end

end SExpr

/-! ### Programs -/

/-- The data of the lines of a program with the statements. -/
def Tree.lineData (σs : List Shape) : List Datum :=
  if σs.isEmpty then [.node "source_file" []] else (σs.map datum?).reduceOption

section

variable {σs τs : List Shape} {p : Node}

namespace Tree

/-- A program has a line at least. -/
theorem lineData_ne_nil (hσs : ∀ σ ∈ σs, WellFormedStatement σ) : lineData σs ≠ [] := by
  cases σs with
  | nil => exact List.cons_ne_nil _ _
  | cons σ σs =>
      have hσ := mt datum?_eq_none_iff.1 (hσs σ (by simp)).kind_ne_absent
      obtain ⟨d, hd⟩ := Option.ne_none_iff_exists'.1 hσ
      simp [lineData, hd]

/-- A program is no statement, so the line of an empty program is no statement's. -/
theorem lineData_ne_of_empty {σ : Shape} (hσs : ∀ τ ∈ σ :: σs, WellFormedStatement τ) :
    lineData (σ :: σs) ≠ lineData [] := by
  intro h
  obtain ⟨hσ, -⟩ := List.forall_mem_cons.1 hσs
  obtain ⟨d, hd⟩ := Option.ne_none_iff_exists'.1 (mt datum?_eq_none_iff.1 hσ.kind_ne_absent)
  have hline : d = .node "source_file" [] := by
    simp [lineData, hd] at h
    exact h.1
  have hprogram : WellFormedProgram ⟨.program, .none, [], ()⟩ := ⟨[], rfl, List.forall_mem_nil _⟩
  have hσ' : σ = ⟨.program, .none, [], ()⟩ := by
    refine datum?_injective hσ.complete hprogram.complete ?_
    rw [hd, hline]
    rfl
  subst hσ'
  cases hσ with
  | bare h => cases h

/-- The lines of well-formed programs determine their statements. -/
theorem lineData_injective (hσs : ∀ σ ∈ σs, WellFormedStatement σ)
    (hτs : ∀ τ ∈ τs, WellFormedStatement τ) (h : lineData σs = lineData τs) : σs = τs := by
  have hsome {σs : List Shape} (hσs : ∀ σ ∈ σs, WellFormedStatement σ) :
      ∀ d ∈ σs.map datum?, d ≠ none :=
    List.forall_mem_map.2 fun σ hσ => mt datum?_eq_none_iff.1 (hσs σ hσ).kind_ne_absent
  cases σs with
  | nil =>
      cases τs with
      | nil => rfl
      | cons τ τs => exact absurd h.symm (lineData_ne_of_empty hτs)
  | cons σ σs =>
      cases τs with
      | nil => exact absurd h (lineData_ne_of_empty hσs)
      | cons τ τs =>
          have hdata := NodeKind.eq_of_reduceOption (hsome hσs) (hsome hτs) h
          exact eq_of_map_datum? (fun σ hσ τ hτ =>
            datum?_injective (hσs σ hσ).complete (hτs τ hτ).complete) hdata

end Tree

/-- The lines of a well-formed program are the texts of proper data. -/
theorem WellFormedProgram.lines_eq (h : WellFormedProgram p.shape) :
    (∀ d ∈ Tree.lineData p.shape.children, d.IsProper) ∧
      SExpr.lines p = (Tree.lineData p.shape.children).map fun d => .ok d.text := by
  have hcomplete := Tree.forall_isComplete_of_shape h.complete
  obtain ⟨σs, hσ, hall⟩ := h
  obtain ⟨ts, mark, rfl, rfl⟩ := Tree.of_shape_none hσ
  rw [hσ]
  cases ts with
  | nil =>
      have hword : Datum.IsWord "source_file" := by decide
      exact ⟨List.forall_mem_singleton.2 (.node hword (List.forall_mem_nil _)), rfl⟩
  | cons t ts =>
      have hdatum : ∀ u ∈ t :: ts, SExpr.HasDatum u := by
        intro u hu
        refine SExpr.hasDatum (fun v hv => hcomplete v ?_) ?_
        · exact Tree.mem_walk.2 (.inr ⟨u, Tree.mem_subnodes.2 (.inr hu), hv⟩)
        · rw [← Tree.kind_shape]
          exact (hall _ (List.mem_map_of_mem hu)).kind_ne_absent
      obtain ⟨ds, hds, hproper, htexts⟩ := SExpr.exists_data hdatum
      have hlines : Tree.lineData ((t :: ts).map Tree.shape) = ds := by
        have hsome : (ds.map some).reduceOption = ds := by simp [List.reduceOption]
        rw [← hsome, ← hds]
        rfl
      dsimp only
      rw [hlines, ← htexts, ← SExpr.expressions_eq]
      exact ⟨hproper, rfl⟩

/-- Lines that are there are appended. -/
theorem Output.append_ok (texts lines : List String) :
    append (texts.map .ok) lines = .ok () (lines ++ texts) := by
  induction texts generalizing lines with
  | nil => exact congrArg _ (List.append_nil lines).symm
  | cons text texts ih =>
      rw [List.append_cons]
      exact ih (lines ++ [text])

/-- A well-formed program is rendered as the texts of the data of its lines. -/
theorem WellFormedProgram.render_sexpr (h : WellFormedProgram p.shape) :
    render p "sexpr" =
      .ok (Text.joined "\n" ((Tree.lineData p.shape.children).map Datum.text)) := by
  obtain ⟨-, hlines⟩ := h.lines_eq
  have happend : Output.append (SExpr.lines p) [] =
      .ok () ((Tree.lineData p.shape.children).map Datum.text) := by
    have hall := Output.append_ok ((Tree.lineData p.shape.children).map Datum.text) []
    rw [List.map_map, List.nil_append] at hall
    rw [hlines]
    exact hall
  have hwrite : Output.write p (.sexpr []) =
      .ok () (.sexpr ((Tree.lineData p.shape.children).map Datum.text)) := by
    rw [Output.write, happend]
  have hname : Renderer.ofName "sexpr" = .ok ⟨"sexpr", .sexpr []⟩ := by
    decide
  obtain ⟨σs, hσ, -⟩ := h
  have hkind : p.kind = .program := by rw [← Tree.kind_shape, hσ]
  simp only [render, hname, bind, Except.bind, Renderer.render, hkind, if_true, hwrite]
  rfl

end

/-- Texts that are parsed as programs have s-expressions, and these are the same exactly if the
programs have the same shape. How much room the texts take on the stack makes no difference. -/
theorem render_sexpr_faithful (room room' : Nat) (text text' : String) (p q : Node)
    (hp : parseText room text = .ok p) (hq : parseText room' text' = .ok q) :
    ∃ a b, render p "sexpr" = .ok a ∧ render q "sexpr" = .ok b ∧
      (a = b ↔ p.sameShape q = true) := by
  have hwp := wellFormedProgram_of_parseText hp
  have hwq := wellFormedProgram_of_parseText hq
  refine ⟨_, _, hwp.render_sexpr, hwq.render_sexpr, ?_⟩
  obtain ⟨hproper, -⟩ := hwp.lines_eq
  obtain ⟨hproper', -⟩ := hwq.lines_eq
  obtain ⟨σs, hσ, hσs⟩ := hwp
  obtain ⟨τs, hτ, hτs⟩ := hwq
  rw [hσ] at hproper
  rw [hτ] at hproper'
  have hshape : p.sameShape q = true ↔ σs = τs := by simp [Tree.sameShape, hσ, hτ]
  rw [hσ, hτ, hshape]
  constructor
  · intro h
    exact Tree.lineData_injective hσs hτs (Datum.joined_injective hproper hproper'
      (Tree.lineData_ne_nil hσs) (Tree.lineData_ne_nil hτs) h)
  · rintro rfl
    rfl

/-- Two slices that leave different bounds out have different s-expressions: nothing stands there
for the bounds that are left out, but the other one has another label. -/
theorem render_sexpr_faithful_slice :
    ∃ p q a b, parseText 900 "a[1:]" = .ok p ∧ parseText 900 "a[:1]" = .ok q ∧
      render p "sexpr" = .ok a ∧ render q "sexpr" = .ok b ∧ a ≠ b := by
  have hdiffer : (do
      let p ← parseText 900 "a[1:]"
      let q ← parseText 900 "a[:1]"
      return p.sameShape q) = .ok false := by decide +kernel
  cases hp : parseText 900 "a[1:]" with
  | error failure => rw [hp] at hdiffer; cases hdiffer
  | ok p =>
      cases hq : parseText 900 "a[:1]" with
      | error failure => rw [hp, hq] at hdiffer; cases hdiffer
      | ok q =>
          obtain ⟨a, b, ha, hb, hsame⟩ := render_sexpr_faithful _ _ _ _ p q hp hq
          rw [hp, hq] at hdiffer
          have hshape : p.sameShape q = false := Except.ok.inj hdiffer
          refine ⟨p, q, a, b, rfl, rfl, ha, hb, fun h => ?_⟩
          rw [hsame.1 h] at hshape
          cases hshape

end Sigil
