import Sigil.Proofs.Print.Separate
import Sigil.Proofs.Print.SExpr
import Sigil.Renderer

/-!
# Parsed trees are well-formed

What is parsed from a text is a well-formed program, so whatever asks for a part of one of its nodes
gets it, and all the printers have something to print.

A tree of the grammar is as well-formed as its tokens are: names, numbers, strings and operators are
the texts of tokens, and the tokens of a text are lexemes. The rest is in the grammar itself.

## Main results

* `WellFormed.complete`, `WellFormedStatement.complete`: nodes of well-formed trees are complete.
* `Derives.wellFormed`: phrases of valid tokens stand for well-formed trees.
* `parseText_wellFormed`: parsed programs are well-formed, and every printer prints them.
-/

namespace Sigil

/-! ### Well-formed trees are complete -/

section

variable {role : Role} {σ : Shape} {kind : NodeKind} {value : Value Shape} {σs : List Shape}

/-- Only a bound is the mark of one that is left out. -/
theorem WellFormed.kind_ne_absent (h : WellFormed role σ) (hrole : role ≠ .bound) :
    σ.kind ≠ .absent := by
  cases h with
  | @word token _ _ _ hkind => cases token <;> cases hkind <;> exact NodeKind.noConfusion
  | @prefixed _ s _ hs => cases s <;> cases hs <;> exact NodeKind.noConfusion
  | @operation _ _ s _ _ _ hs => cases s <;> cases hs <;> exact NodeKind.noConfusion
  | leftOut | bound => exact absurd rfl hrole
  | _ => exact NodeKind.noConfusion

/-- The tree may stand below nodes of the kind, and all its nodes are complete. -/
def Fills (kind : NodeKind) (c : Shape) : Prop :=
  (c.kind = .absent → kind = .slice) ∧ ∀ u ∈ c.walk, u.IsComplete

/-- A well-formed part fills its place. -/
theorem WellFormed.fills (h : WellFormed role σ) (hrole : role ≠ .bound)
    (hcomplete : ∀ u ∈ σ.walk, u.IsComplete) : Fills kind σ :=
  ⟨fun habsent => absurd habsent (h.kind_ne_absent hrole), hcomplete⟩

/-- The nodes of a tree are complete if its value and its children fill their places. -/
theorem complete_of_fills (hknown : kind ∈ NodeKind.known) (hspecific : kind ≠ .binary)
    (hcontent : value.content = kind.content)
    (harity : kind.arity? = none ∨ kind.arity? = some σs.length)
    (hvalue : ∀ c, value = .node c → Fills kind c) (hchildren : ∀ c ∈ σs, Fills kind c) :
    ∀ u ∈ Tree.walk ⟨kind, value, σs, ()⟩, u.IsComplete := by
  have hbelow : ∀ c ∈ Tree.subnodes ⟨kind, value, σs, ()⟩, Fills kind c := by
    intro c hc
    rcases Tree.mem_subnodes.1 hc with hc | hc
    · exact hvalue c hc
    · exact hchildren c hc
  have hlength : ∀ n, kind.arity? = some n → σs.length = n := by
    intro n hn
    rcases harity with harity | harity
    · cases harity.symm.trans hn
    · exact Option.some.inj (harity.symm.trans hn)
  exact Tree.forall_mem_walk.2 ⟨⟨hknown, hspecific, hcontent, hlength, fun c hc => (hbelow c hc).1⟩,
    fun c hc => (hbelow c hc).2⟩

/-- The nodes of a well-formed tree are complete. -/
theorem WellFormed.complete (h : WellFormed role σ) : ∀ u ∈ σ.walk, u.IsComplete := by
  have hnone {kind : NodeKind} (c : Shape) (hc : Value.none = .node c) : Fills kind c := by cases hc
  have htext {kind : NodeKind} {s : String} (c : Shape) (hc : Value.text s = .node c) :
      Fills kind c := by cases hc
  induction h with
  | @word token kind _ _ hkind =>
      cases token <;> cases hkind <;>
        exact complete_of_fills (by decide) (by decide) rfl (.inr rfl) htext (by simp)
  | string =>
      exact complete_of_fills (by decide) (by decide) rfl (.inr rfl) htext (by simp)
  | array h ih =>
      exact complete_of_fills (by decide) (by decide) rfl (.inl rfl) hnone
        fun c hc => (h c hc).fills (by decide) (ih c hc)
  | map h ih =>
      exact complete_of_fills (by decide) (by decide) rfl (.inl rfl) hnone
        fun c hc => (h c hc).fills (by decide) (ih c hc)
  | call hf h ihf ih =>
      refine complete_of_fills (by decide) (by decide) rfl (.inl rfl) ?_
        fun c hc => (h c hc).fills (by decide) (ih c hc)
      rintro _ ⟨⟩
      exact hf.fills (by decide) ihf
  | index ht h iht ih =>
      exact complete_of_fills (by decide) (by decide) rfl (.inr rfl) hnone
        (by simpa using ⟨ht.fills (by decide) iht, h.fills (by decide) ih⟩)
  | slice ht ha hb hc iht iha ihb ihc =>
      exact complete_of_fills (by decide) (by decide) rfl (.inr rfl) hnone
        (by simpa using ⟨ht.fills (by decide) iht, ⟨fun _ => rfl, iha⟩, ⟨fun _ => rfl, ihb⟩,
          ⟨fun _ => rfl, ihc⟩⟩)
  | member ht hname iht =>
      exact complete_of_fills (by decide) (by decide) rfl (.inr rfl) htext
        (by simpa using ht.fills (by decide) iht)
  | @prefixed _ s _ hs h ih =>
      cases s <;> cases hs <;>
        exact complete_of_fills (by decide) (by decide) rfl (.inr rfl) htext
          (by simpa using h.fills (by decide) ih)
  | iteration ha hb iha ihb =>
      exact complete_of_fills (by decide) (by decide) rfl (.inr rfl) hnone
        (by simpa using ⟨ha.fills (by decide) iha, hb.fills (by decide) ihb⟩)
  | @operation _ _ s _ _ ha hs hb iha ihb =>
      cases s <;> cases hs <;>
        exact complete_of_fills (by decide) (by decide) rfl (.inr rfl) htext
          (by simpa using ⟨ha.fills (by decide) iha, hb.fills (by decide) ihb⟩)
  | conditional ha hb hc iha ihb ihc =>
      exact complete_of_fills (by decide) (by decide) rfl (.inr rfl) hnone
        (by simpa using ⟨ha.fills (by decide) iha, hb.fills (by decide) ihb,
          hc.fills (by decide) ihc⟩)
  | leftOut =>
      exact complete_of_fills (by decide) (by decide) rfl (.inr rfl) hnone (by simp)
  | bound _ ih => exact ih
  | entry hkey hkind h ihkey ih =>
      refine complete_of_fills (by decide) (by decide) rfl (.inr rfl) ?_
        (by simpa using hkey.fills (by decide) ihkey)
      rintro _ ⟨⟩
      exact h.fills (by decide) ih

/-- A statement is there. -/
theorem WellFormedStatement.kind_ne_absent (h : WellFormedStatement σ) : σ.kind ≠ .absent := by
  cases h with
  | bare h => exact h.kind_ne_absent (by decide)
  | _ => exact NodeKind.noConfusion

/-- The nodes of a well-formed statement are complete. -/
theorem WellFormedStatement.complete (h : WellFormedStatement σ) :
    ∀ u ∈ σ.walk, u.IsComplete := by
  induction h with
  | block h ih =>
      exact complete_of_fills (by decide) (by decide) rfl (.inl rfl) nofun
        fun c hc => ⟨fun habsent => absurd habsent (h c hc).kind_ne_absent, ih c hc⟩
  | dataflow h hname =>
      have hleaf : WellFormed .expression ⟨.identifier, .text _, [], ()⟩ :=
        .word hname rfl (by decide)
      refine complete_of_fills (by decide) (by decide) rfl (.inr rfl) ?_
        (by simpa using hleaf.fills (by decide) hleaf.complete)
      rintro _ ⟨⟩
      exact h.fills (by decide) h.complete
  | bare h => exact h.complete

/-- The nodes of a well-formed program are complete. -/
theorem WellFormedProgram.complete (h : WellFormedProgram σ) : ∀ u ∈ σ.walk, u.IsComplete := by
  obtain ⟨σs, rfl, h⟩ := h
  exact complete_of_fills (by decide) (by decide) rfl (.inl rfl) nofun
    fun c hc => ⟨fun habsent => absurd habsent (h c hc).kind_ne_absent, (h c hc).complete⟩

end

/-! ### Trees of valid tokens -/

/-- The part that the items of a series are. -/
def Series.role : Series → Role
  | arguments | elements => .expression
  | entries => .entry

/-- What stands for the phrase is well-formed. -/
def Phrase.IsWellFormed : Phrase → Prop
  | expression _ t => WellFormed .expression t.shape
  | bound t => WellFormed .bound t.shape
  | bounds start stop step =>
    WellFormed .bound start.shape ∧ WellFormed .bound stop.shape ∧ WellFormed .bound step.shape
  | item s t => WellFormed s.role t.shape
  | series s ts => ∀ t ∈ ts, WellFormed s.role t.shape
  | statement t => WellFormedStatement t.shape
  | statements ts => ∀ t ∈ ts, WellFormedStatement t.shape

section

variable {o name : Token} {kind : NodeKind} {mark : Extent} {t : Node}

/-- The literal of a token is well formed. -/
theorem wellFormed_literal (hw : IsLexeme o.kind o.text.toList)
    (ho : Parser.literal? o.kind = some kind) :
    WellFormed .expression (Tree.shape ⟨kind, .text (Parser.literalText o), [], mark⟩) := by
  rw [Tree.shape_text]
  by_cases hstring : o.kind = .string
  · obtain rfl : NodeKind.string = kind := by
      rw [hstring] at ho
      exact Option.some.inj ho
    rw [Parser.literalText, if_pos hstring]
    exact .string (quote_not_mem hw hstring)
  · have hword := WellFormed.word hw ho hstring
    rw [String.ofList_toList] at hword
    rwa [Parser.literalText, if_neg hstring]

/-- The marks of bounds that are left out. -/
theorem wellFormed_leftOut : WellFormed .bound (Tree.shape ⟨.absent, .none, [], mark⟩) := by
  rw [Tree.shape_none]
  exact .leftOut

/-- The text of a name is one. -/
theorem isLexeme_name (hname : name.kind = .identifier) (hw : IsLexeme name.kind name.text.toList) :
    IsLexeme .identifier name.text.toList :=
  hname ▸ hw

end

/-- The phrases of valid tokens stand for well-formed trees. -/
theorem Derives.wellFormed {r : Room} {w : List Token} {next : Token} {phrase : Phrase}
    (h : Derives r w next phrase) (hw : Valid w) : phrase.IsWellFormed := by
  induction h with
  | looser _ _ ih => exact ih hw
  | literal _ ho => exact wellFormed_literal (valid_cons.1 hw).1 ho
  | group _ _ _ ih =>
      simp only [valid_cons, valid_append] at hw
      exact ih hw.2.1
  | array _ _ _ _ ih =>
      simp only [valid_cons, valid_append] at hw
      rw [Phrase.IsWellFormed, Tree.shape_none]
      exact .array (List.forall_mem_map.2 (ih hw.2.1))
  | map _ _ _ _ ih =>
      simp only [valid_cons, valid_append] at hw
      rw [Phrase.IsWellFormed, Tree.shape_none]
      exact .map (List.forall_mem_map.2 (ih hw.2.1))
  | call _ _ _ _ ihf ih =>
      simp only [valid_cons, valid_append] at hw
      rw [Phrase.IsWellFormed, Tree.shape_node]
      exact .call (ihf hw.1) (List.forall_mem_map.2 (ih hw.2.2.1))
  | index _ _ _ _ _ iht ih =>
      simp only [valid_cons, valid_append] at hw
      rw [Phrase.IsWellFormed, Tree.shape_none]
      exact .index (iht hw.1) (ih hw.2.2.1)
  | slice _ _ _ _ _ iht ih =>
      simp only [valid_cons, valid_append] at hw
      obtain ⟨ha, hb, hc⟩ := ih hw.2.2.1
      rw [Phrase.IsWellFormed, Tree.shape_none]
      exact .slice (iht hw.1) ha hb hc
  | @member r o name next v t _ _ hname iht =>
      simp only [valid_cons, valid_append] at hw
      rw [Phrase.IsWellFormed, Tree.shape_text, ← String.ofList_toList (s := name.text)]
      exact .member (iht hw.1) (isLexeme_name hname hw.2.2.1)
  | prefixed ho _ ih =>
      obtain ⟨ho', hw⟩ := valid_cons.1 hw
      obtain ⟨s, hs, hkind⟩ := symbol_of_prefixed? ho
      rw [Phrase.IsWellFormed, Tree.shape_text, text_of_symbol ho' hs]
      exact .prefixed hkind (ih hw)
  | iteration _ _ _ _ iha ihb =>
      simp only [valid_cons, valid_append] at hw
      rw [Phrase.IsWellFormed, Tree.shape_none]
      exact .iteration (iha hw.2.1) (ihb hw.2.2.2)
  | operation _ ho _ iha ihb =>
      simp only [valid_cons, valid_append] at hw
      obtain ⟨s, hs, hbinary⟩ := symbol_of_binary? ho
      rw [Phrase.IsWellFormed, Tree.shape_text, text_of_symbol hw.2.1 hs]
      exact .operation (iha hw.1) hbinary (ihb hw.2.2)
  | conditional _ _ _ _ _ iha ihb ihc =>
      simp only [valid_cons, valid_append] at hw
      rw [Phrase.IsWellFormed, Tree.shape_none]
      exact .conditional (iha hw.1) (ihb hw.2.2.1) (ihc hw.2.2.2.2)
  | leftOut => exact wellFormed_leftOut
  | bound _ ih => exact .bound (ih hw)
  | twoBounds _ _ _ iha ihb =>
      simp only [valid_cons, valid_append] at hw
      exact ⟨iha hw.1, ihb hw.2.2, wellFormed_leftOut⟩
  | threeBounds _ _ _ _ _ iha ihb ihc =>
      simp only [valid_cons, valid_append] at hw
      exact ⟨iha hw.1, ihb hw.2.2.1, ihc hw.2.2.2.2⟩
  | outerBounds _ _ _ iha ihc =>
      simp only [valid_cons, valid_append] at hw
      exact ⟨iha hw.1, wellFormed_leftOut, ihc hw.2.2⟩
  | @item _ _ _ _ s hs _ ih =>
      cases s with
      | entries => exact absurd rfl hs
      | arguments | elements => exact ih hw
  | @entry r key o next w t hkey ho _ ih =>
      simp only [valid_cons] at hw
      rw [Phrase.IsWellFormed, Tree.shape_node, List.map_singleton]
      refine .entry (wellFormed_literal hw.1 (literal?_of_key hkey)) ?_ (ih hw.2.2)
      rw [Tree.kind_shape]
      split
      · exact .inr rfl
      · exact .inl rfl
  | noItem => exact fun _ ht => absurd ht List.not_mem_nil
  | lastItem _ ih => exact List.forall_mem_singleton.2 (ih hw)
  | moreItems _ _ _ _ ih ihs =>
      simp only [valid_cons, valid_append] at hw
      exact List.forall_mem_cons.2 ⟨ih hw.1, ihs hw.2.2⟩
  | block _ _ _ _ ih =>
      simp only [valid_cons, valid_append] at hw
      rw [Phrase.IsWellFormed, Tree.shape_none]
      exact .block (List.forall_mem_map.2 (ih hw.2.1))
  | @dataflow r o name next w t _ _ hname ih =>
      simp only [valid_cons, valid_append] at hw
      rw [Phrase.IsWellFormed, Tree.shape_node, List.map_singleton, Tree.shape_text,
        ← String.ofList_toList (s := name.text)]
      exact .dataflow (ih hw.1) (isLexeme_name hname hw.2.2.1)
  | bare _ _ ih => exact .bare (ih hw)
  | noStatement => exact fun _ ht => absurd ht List.not_mem_nil
  | moreStatements _ _ ih ihs =>
      obtain ⟨hv, hw⟩ := valid_append.1 hw
      exact List.forall_mem_cons.2 ⟨ih hv, ihs hw⟩

/-- What is parsed from a text is a well-formed program. -/
theorem wellFormedProgram_of_parseText {room : Nat} {text : String} {p : Node}
    (h : parseText room text = .ok p) : WellFormedProgram p.shape := by
  obtain ⟨pieces, gap, hcut, statements, hd, rfl⟩ := isCut_of_parseText h
  have hvalid : Valid (pieces.map Piece.token) := List.forall_mem_map.2 hcut.cuts.isLexeme
  exact ⟨_, Tree.shape_none .., List.forall_mem_map.2 (hd.wellFormed hvalid)⟩

/-! ### Printing well-formed programs -/

section

variable {p : Node}

/-- The statements of a well-formed program are written behind whatever is on a sheet. -/
theorem WellFormedProgram.exists_statements (h : WellFormedProgram p.shape) (width : Int)
    (sheet : Sheet) : ∃ sheet', Source.statements width p.children sheet = .ok () sheet' := by
  obtain ⟨σs, hσ, hall⟩ := h
  obtain ⟨list, mark, rfl, rfl⟩ := Tree.of_shape_none hσ
  have hlaid : LaidOutAll width list :=
    .of_forall fun t ht => (hall _ (List.mem_map_of_mem ht)).laidOut t rfl
  obtain ⟨ls, -, hlays, -⟩ := hlaid sheet.depth
  exact ⟨_, hlays sheet.lines⟩

/-- A well-formed program is printed as a source, whatever the width of a margin is. -/
theorem WellFormedProgram.exists_source (h : WellFormedProgram p.shape) (width : Int) :
    ∃ out, Source.program width p = .ok out := by
  obtain ⟨sheet, hsheet⟩ := h.exists_statements width .empty
  exact ⟨_, by rw [Source.program, hsheet]⟩

/-- Each line of a well-formed program has an s-expression. -/
theorem WellFormedProgram.exists_line (h : WellFormedProgram p.shape) :
    ∀ line ∈ SExpr.lines p, ∃ text, line = .ok text := by
  have hcomplete := Tree.forall_isComplete_of_shape h.complete
  obtain ⟨σs, hσ, hall⟩ := h
  obtain ⟨list, mark, rfl, rfl⟩ := Tree.of_shape_none hσ
  intro line hline
  rw [SExpr.lines] at hline
  split at hline
  · exact ⟨_, List.mem_singleton.1 hline⟩
  · rw [SExpr.expressions_eq] at hline
    obtain ⟨t, ht, rfl⟩ := List.mem_map.1 hline
    refine SExpr.exists_expression (fun u hu => hcomplete u ?_) ?_
    · exact Tree.mem_walk.2 (.inr ⟨t, Tree.mem_subnodes.2 (.inr ht), hu⟩)
    · rw [← Tree.kind_shape]
      exact (hall _ (List.mem_map_of_mem ht)).kind_ne_absent

/-- A well-formed program is printed as forms. -/
theorem WellFormedProgram.exists_sexpr (h : WellFormedProgram p.shape) :
    ∃ out, SExpr.program p = .ok out := by
  obtain ⟨texts, htexts⟩ := exists_mapM_eq_ok (f := id) h.exists_line
  exact ⟨_, by rw [SExpr.program, htexts]; rfl⟩

/-- Texts that all exist are appended. -/
theorem Output.exists_append {printed : List Printed}
    (h : ∀ line ∈ printed, ∃ text, line = .ok text) (lines : List String) :
    ∃ lines', append printed lines = .ok () lines' := by
  induction printed generalizing lines with
  | nil => exact ⟨lines, rfl⟩
  | cons line printed ih =>
      obtain ⟨⟨text, rfl⟩, hrest⟩ := List.forall_mem_cons.1 h
      exact ih hrest (lines ++ [text])

/-- A renderer never fails on a well-formed program, whatever it has written before. -/
theorem WellFormedProgram.exists_render (h : WellFormedProgram p.shape) (r : Renderer) :
    ∃ out r', Renderer.render p r = .ok out r' := by
  have hwrite : ∃ output, Output.write p r.output = .ok () output := by
    cases r.output with
    | source sheet =>
        obtain ⟨sheet', hsheet⟩ := h.exists_statements Source.indentWidth sheet
        exact ⟨.source sheet', by rw [Output.write, hsheet]⟩
    | sexpr lines =>
        obtain ⟨lines', hlines⟩ := Output.exists_append h.exists_line lines
        exact ⟨.sexpr lines', by rw [Output.write, hlines]⟩
    | json text => exact ⟨_, rfl⟩
  obtain ⟨output, houtput⟩ := hwrite
  obtain ⟨σs, hσ, -⟩ := h
  have hkind : p.kind = .program := by rw [← Tree.kind_shape, hσ]
  refine ⟨output.text, { r with output := output }, ?_⟩
  simp only [Renderer.render, hkind, houtput]
  rfl

end

/-- What is parsed from a text is a well-formed program. Each of its nodes has all the fields of its
kind, and it is printed as source text for every width, as an s-expression, and by every renderer,
whatever that has written before. -/
theorem parseText_wellFormed (room : Nat) (text : String) (p : Node)
    (h : parseText room text = .ok p) :
    WellFormedProgram p.shape ∧
      (∀ u ∈ p.walk, u.IsComplete ∧
        (∀ entry ∈ u.kind.layout, ∃ part, u.field entry.1.word = .ok part) ∧
        ∃ parts, u.fields = .ok parts) ∧
      (∀ width, ∃ out, Source.program width p = .ok out) ∧
      (∃ out, SExpr.program p = .ok out) ∧
      (∀ r : Renderer, ∃ out r', Renderer.render p r = .ok out r') ∧
      ∀ name target, Target.ofName? (Text.lowercase name) = some target →
        ∃ out, render p name = .ok out := by
  have hp := wellFormedProgram_of_parseText h
  refine ⟨hp, fun u hu => ?_, hp.exists_source, hp.exists_sexpr, hp.exists_render, ?_⟩
  · have hu := Tree.forall_isComplete_of_shape hp.complete u hu
    exact ⟨hu, hu.field, hu.fields⟩
  · intro name target htarget
    obtain ⟨out, r, hr⟩ := hp.exists_render ⟨Text.lowercase name, .empty target⟩
    exact ⟨out, by simp only [render, Renderer.ofName, htarget, bind, Except.bind, hr]; rfl⟩

/-- A slice that leaves a bound out is printed like everything else. -/
theorem parseText_wellFormed_slice :
    ∃ p, parseText 900 "f(x)[1::2] => b" = .ok p ∧ WellFormedProgram p.shape ∧
      ∃ out, render p "SExpr" = .ok out := by
  have hparsed : (parseText 900 "f(x)[1::2] => b").isOk = true := by decide +kernel
  cases hp : parseText 900 "f(x)[1::2] => b" with
  | error failure => rw [hp] at hparsed; cases hparsed
  | ok p =>
      obtain ⟨hshape, -, -, -, -, hrender⟩ := parseText_wellFormed _ _ p hp
      exact ⟨p, rfl, hshape, hrender "SExpr" .sexpr (by decide)⟩

end Sigil
