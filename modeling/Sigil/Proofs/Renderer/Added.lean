import Sigil.Proofs.Print.Faithful
import Sigil.Proofs.Print.Lines
import Sigil.Renderer

/-!
# What a rendering adds

Printers only ever add lines to those that are there. Whether a tree can be printed does not depend
on what was printed before it, and neither do the lines that it adds, except for the blanks in front
of source lines, of which there are as many as blocks are open. A program that cannot be printed
stops the printer at the first statement without a written form, and the lines of the statements in
front of that one have been added by then. Of the statement itself something may have been added if
it is a block: its first lines, and the blocks that the printer is inside of.

## Main definitions

* `Source.HasLayout`: the lines of a statement at each depth.
* `Source.Stops`: where the printing of a statement stops.
* `Output.put`, `Output.nest`: an output with more lines, and with more open blocks.
* `Output.Adds`, `Output.Halts`: what printing a program does to every output of a target.
* `Renderer.behind`: a renderer behind some calls.

## Main results

* `Source.statement_outcome`, `Source.statements_outcome`: statements are printed, or stop the
  printer.
* `Output.write_outcome`: so do programs, for every target.
-/

namespace Sigil

/-! ### Statements -/

namespace Source

variable {width : Int} {t u : Node} {ss ts : List Node} {fault : PrintFault}
  {layout layout' part : Nat → List String} {opened : Nat}

/-- The statement is printed at every depth, as at least one line. -/
def HasLayout (width : Int) (t : Node) (layout : Nat → List String) : Prop :=
  ∀ depth, layout depth ≠ [] ∧ Lays width depth t (layout depth)

/-- The statements are printed at every depth, one after the other. -/
def HasLayoutAll (width : Int) (ts : List Node) (layout : Nat → List String) : Prop :=
  ∀ depth, (layout depth = [] ↔ ts = []) ∧ LaysAll width depth ts (layout depth)

/-- The printing of the statement stops at every depth for the same reason, with the same number of
blocks open on top of those that were. Nothing is left of a statement that is no block. -/
structure Stops (width : Int) (t : Node) (fault : PrintFault) (part : Nat → List String)
    (opened : Nat) : Prop where
  statement_eq (lines : List String) (depth : Nat) :
    statement width t ⟨lines, depth⟩ = .error fault ⟨lines ++ part depth, depth + opened⟩
  of_ne_block (h : t.kind ≠ .block) : (∀ depth, part depth = []) ∧ opened = 0

/-- The statement is printed, or it stops the printer. -/
inductive Outcome (width : Int) (t : Node) : Prop
  | printed {layout : Nat → List String} (h : HasLayout width t layout)
  | stopped {fault : PrintFault} {part : Nat → List String} {opened : Nat}
      (h : Stops width t fault part opened)

/-- The statements are printed, or one of them stops the printer behind those in front of it. -/
inductive OutcomeAll (width : Int) (ts : List Node) : Prop
  | printed {layout : Nat → List String} (h : HasLayoutAll width ts layout)
  | stopped {ss more : List Node} {u : Node} {fault : PrintFault}
      {layout part : Nat → List String} {opened : Nat} (hsplit : ts = ss ++ u :: more)
      (hfront : HasLayoutAll width ss layout) (h : Stops width u fault part opened)

/-- No statements have no lines. -/
theorem HasLayoutAll.nil : HasLayoutAll width [] fun _ => [] :=
  fun _ => ⟨by simp, LaysAll.nil⟩

/-- The lines of a statement and those of the others. -/
theorem HasLayoutAll.cons (h : HasLayout width t layout) (hs : HasLayoutAll width ts layout') :
    HasLayoutAll width (t :: ts) fun depth => layout depth ++ layout' depth :=
  fun depth => ⟨by simp [(h depth).1], LaysAll.cons (h depth).2 (hs depth).2⟩

/-- A statement that stops the printer, behind others that are printed. -/
theorem Stops.statements_eq (h : Stops width u fault part opened)
    (hfront : HasLayoutAll width ss layout) (more : List Node) (lines : List String)
    (depth : Nat) :
    statements width (ss ++ u :: more) ⟨lines, depth⟩ =
      .error fault ⟨lines ++ (layout depth ++ part depth), depth + opened⟩ := by
  have happend (ss : List Node) : statements width (ss ++ u :: more) =
      statements width ss >>= fun _ => statements width (u :: more) := by
    induction ss with
    | nil => rfl
    | cons s ss ih => rw [List.cons_append, statements, statements, ih, bind_assoc]
  simp only [happend, statements, bind, EStateM.bind, (hfront depth).2 lines, h.statement_eq,
    List.append_assoc]

/-- What is written on one line is printed, or stops the printer where it is. -/
theorem Outcome.line {printed : Printed} (h : statement width t = written printed >>= line width) :
    Outcome width t := by
  cases printed with
  | ok text =>
      have hlays (depth : Nat) : Lays width depth t [indented width depth text] :=
        fun lines => by rw [h]; rfl
      exact .printed fun depth => ⟨by simp, hlays depth⟩
  | error fault =>
      have hstops : Stops width t fault (fun _ => []) 0 :=
        ⟨fun lines depth => by rw [h, List.append_nil]; rfl, fun _ => ⟨fun _ => rfl, rfl⟩⟩
      exact .stopped hstops

/-- If each statement has an outcome the list has one: the first that stops, or all lines. -/
theorem OutcomeAll.of_forall (h : ∀ t ∈ ts, Outcome width t) : OutcomeAll width ts := by
  induction ts with
  | nil => exact .printed .nil
  | cons t ts ih =>
      obtain ⟨ht, hts⟩ := List.forall_mem_cons.1 h
      cases ht with
      | stopped ht => exact .stopped (List.nil_append (t :: ts)).symm .nil ht
      | printed ht =>
          cases ih hts with
          | printed hts => exact .printed (.cons ht hts)
          | stopped hsplit hfront hu =>
              exact .stopped (by rw [hsplit, List.cons_append]) (.cons ht hfront) hu

/-- A block is printed if its statements are, and otherwise the printer stops inside of it. -/
theorem OutcomeAll.block (h : OutcomeAll width ts) (value : Value Node) (mark : Extent) :
    Outcome width ⟨.block, value, ts, mark⟩ := by
  cases h with
  | printed h =>
      exact .printed fun depth =>
        ⟨blockLines_ne_nil, Lays.block (h (depth + 1)).2 (h (depth + 1)).1⟩
  | @stopped ss more u fault layout part opened hsplit hfront h =>
      have hstops : Stops width ⟨.block, value, ts, mark⟩ fault
          (fun depth => indented width depth "\x7b" ::
            (layout (depth + 1) ++ part (depth + 1))) (opened + 1) := by
        -- The failure leaves the block before it is closed, so it stays open.
        refine ⟨fun lines depth => ?_, fun hkind => absurd rfl hkind⟩
        have hts : ts.isEmpty = false := by simp [hsplit]
        have hinside := h.statements_eq hfront more
          (lines ++ [indented width depth "\x7b"]) (depth + 1)
        rw [← hsplit] at hinside
        simp only [statement, hts, Bool.false_eq_true, if_false, bind, EStateM.bind, line_eq,
          modify_eq, hinside, List.append_assoc, List.singleton_append, Nat.add_assoc,
          Nat.add_comm 1]
      exact .stopped hstops

/-- A dataflow definition is written on one line. -/
theorem statement_dataflow (value : Value Node) (ts : List Node) (mark : Extent) :
    ∃ printed, statement width ⟨.dataflow, value, ts, mark⟩ = written printed >>= line width := by
  cases hvalue : valueExpression value with
  | error fault =>
      refine ⟨.error fault, ?_⟩
      rw [statement, hvalue]
      rfl
  | ok text =>
      cases ts with
      | nil =>
          refine ⟨.error (.access .missingChild), ?_⟩
          rw [statement, hvalue]
          rfl
      | cons name ts =>
          refine ⟨.ok (text ++ " => " ++ name.value.shown), ?_⟩
          rw [statement, hvalue]
          rfl

/-- A statement is printed, or it stops the printer. -/
theorem statement_outcome (width : Int) (t : Node) : Outcome width t := by
  induction t using Tree.induct with
  | step kind value children mark _ hchildren =>
      by_cases hblock : kind = .block
      · subst hblock
        exact (OutcomeAll.of_forall hchildren).block value mark
      by_cases hdataflow : kind = .dataflow
      · subst hdataflow
        obtain ⟨printed, h⟩ := statement_dataflow value children mark
        exact .line h
      · refine .line (statement_of_bare ?_)
        rw [IsBare, Tree.kind_shape]
        exact ⟨hblock, hdataflow⟩

/-- Statements are printed, or the first of them that is not stops the printer. -/
theorem statements_outcome (width : Int) (ts : List Node) : OutcomeAll width ts :=
  .of_forall fun t _ => statement_outcome width t

end Source

/-! ### S-expressions -/

namespace SExpr

/-- A program with statements has a line for each of them. -/
theorem lines_of_ne_nil {p : Node} (h : p.children ≠ []) :
    lines p = p.children.map expression := by
  rw [lines, if_neg (by simpa using h), expressions_eq]

/-- Trees have s-expressions, or one of them has none, behind others that have. -/
theorem expression_cases (ts : List Node) :
    (∃ texts : List String, ts.map expression = texts.map .ok) ∨
      ∃ (ss : List Node) (u : Node) (more : List Node) (texts : List String) (fault : PrintFault),
        ts = ss ++ u :: more ∧ ss.map expression = texts.map .ok ∧ expression u = .error fault := by
  induction ts with
  | nil => exact .inl ⟨[], rfl⟩
  | cons t ts ih =>
      cases ht : expression t with
      | error fault => exact .inr ⟨[], t, ts, [], fault, rfl, rfl, ht⟩
      | ok text =>
          rcases ih with ⟨texts, hts⟩ | ⟨ss, u, more, texts, fault, rfl, hss, hu⟩
          · exact .inl ⟨text :: texts, by rw [List.map_cons, List.map_cons, ht, hts]⟩
          · exact .inr ⟨t :: ss, u, more, text :: texts, fault, rfl,
              by rw [List.map_cons, List.map_cons, ht, hss], hu⟩

end SExpr

/-! ### Outputs -/

namespace Output

/-- The target that the output is for. -/
def target : Output → Target
  | source _ => .source
  | sexpr _ => .sexpr
  | json _ => .json

/-- The lines of an output. A document is not kept in lines. -/
def lines : Output → List String
  | source sheet => sheet.lines
  | sexpr lines => lines
  | json _ => []

/-- The number of open blocks. -/
def depth : Output → Nat
  | source sheet => sheet.depth
  | sexpr _ | json _ => 0

/-- The output with some more lines. A document takes the place of the one before it. -/
def put (ls : List String) : Output → Output
  | source sheet => source { sheet with lines := sheet.lines ++ ls }
  | sexpr lines => sexpr (lines ++ ls)
  | json _ => json (Text.joined "\n" ls)

/-- The output with some more blocks open, if there can be any. -/
def nest (opened : Nat) : Output → Output
  | source sheet => source { sheet with depth := sheet.depth + opened }
  | sexpr lines => sexpr lines
  | json text => json text

variable {o : Output}

/-- Output for sources is a sheet. -/
theorem exists_sheet (h : o.target = .source) : ∃ sheet, o = source sheet := by
  cases o with
  | source sheet => exact ⟨sheet, rfl⟩
  | _ => cases h

/-- Output for forms is a list of lines. -/
theorem exists_lines (h : o.target = .sexpr) : ∃ lines, o = sexpr lines := by
  cases o with
  | sexpr lines => exact ⟨lines, rfl⟩
  | _ => cases h

/-- Output for documents is a text. -/
theorem exists_document (h : o.target = .json) : ∃ text, o = json text := by
  cases o with
  | json text => exact ⟨text, rfl⟩
  | _ => cases h

/-- Empty output is for the target that it was made for. -/
@[simp] theorem target_empty (target : Target) : (empty target).target = target := by
  cases target <;> rfl

/-- Lines do not change the target. -/
@[simp] theorem target_put (ls : List String) (o : Output) : (o.put ls).target = o.target := by
  cases o <;> rfl

/-- No levels are added. -/
@[simp] theorem nest_zero (o : Output) : o.nest 0 = o := by
  cases o <;> rfl

/-- No lines are added, except to documents, which are replaced. -/
theorem put_nil (h : o.target ≠ .json) : o.put [] = o := by
  cases o with
  | source sheet => rw [put, List.append_nil]
  | sexpr lines => rw [put, List.append_nil]
  | json text => exact absurd rfl h

/-- Lines do not change the depth. -/
@[simp] theorem depth_put (ls : List String) (o : Output) : (o.put ls).depth = o.depth := by
  cases o <;> rfl

variable {target : Target} {p : Node} {ss : List Node} {fault : PrintFault}
  {layout part : Nat → List String} {opened : Nat}

/-- Every output of the target gets the lines of the program. No lines are those of a program
without statements, printed as source text. -/
structure Adds (target : Target) (p : Node) (layout : Nat → List String) : Prop where
  write_eq (o : Output) (h : o.target = target) : write p o = .ok () (o.put (layout o.depth))
  eq_nil_iff (depth : Nat) : layout depth = [] ↔ target = .source ∧ p.children = []

/-- Printing the program fails at every output of the target for the same reason, behind some
lines and with some more blocks open. -/
def Halts (target : Target) (p : Node) (fault : PrintFault) (part : Nat → List String)
    (opened : Nat) : Prop :=
  ∀ o : Output, o.target = target →
    write p o = .error fault ((o.put (part o.depth)).nest opened)

/-- The first statements of a program: none, or a program of their own that is printed. -/
def Leads (target : Target) (p : Node) (ss : List Node) (layout : Nat → List String) : Prop :=
  if ss = [] then ∀ depth, layout depth = [] else Adds target { p with children := ss } layout

/-- The program is printed, or one of its statements stops the printer behind those in front of it.
Nothing is left of that statement unless it is a block of source text. -/
inductive Outcome (target : Target) (p : Node) : Prop
  | printed {layout : Nat → List String} (h : Adds target p layout)
  | stopped {ss more : List Node} {u : Node} {fault : PrintFault}
      {layout part : Nat → List String} {opened : Nat} (hsplit : p.children = ss ++ u :: more)
      (hfront : Leads target p ss layout)
      (h : Halts target p fault (fun depth => layout depth ++ part depth) opened)
      (hu : Halts target { p with children := [u] } fault part opened)
      (hpart : (target = .source → u.kind ≠ .block) → (∀ depth, part depth = []) ∧ opened = 0)

/-- A program whose statements have lines adds them to the sheet. -/
theorem adds_source (h : Source.HasLayoutAll Source.indentWidth p.children layout) :
    Adds .source p layout := by
  refine ⟨fun o ho => ?_, fun depth => by simp [(h depth).1]⟩
  obtain ⟨sheet, rfl⟩ := exists_sheet ho
  rw [write, (h sheet.depth).2 sheet.lines]
  rfl

/-- A statement that stops leaves the lines in front and the levels that it opened. -/
theorem halts_source {u : Node} {more : List Node}
    (hsplit : p.children = ss ++ u :: more)
    (hfront : Source.HasLayoutAll Source.indentWidth ss layout)
    (h : Source.Stops Source.indentWidth u fault part opened) :
    Halts .source p fault (fun depth => layout depth ++ part depth) opened := by
  intro o ho
  obtain ⟨sheet, rfl⟩ := exists_sheet ho
  rw [write, hsplit, h.statements_eq hfront more sheet.lines sheet.depth]
  rfl

/-- Lines that are there are appended, up to one that is not. -/
theorem append_error (texts : List String) (fault : PrintFault) (rest : List Printed)
    (lines : List String) :
    append (texts.map .ok ++ .error fault :: rest) lines = .error fault (lines ++ texts) := by
  induction texts generalizing lines with
  | nil => rw [List.append_nil]; rfl
  | cons text texts ih =>
      rw [List.append_cons lines]
      exact ih (lines ++ [text])

/-- A program whose statements have forms adds a line for each. -/
theorem adds_sexpr {texts : List String} (h : SExpr.lines p = texts.map .ok) :
    Adds .sexpr p fun _ => texts := by
  have hne : texts ≠ [] := by
    rintro rfl
    rw [SExpr.lines] at h
    split at h
    · cases h
    · next hchildren =>
        rw [SExpr.expressions_eq, List.map_nil, List.map_eq_nil_iff] at h
        exact hchildren (List.isEmpty_iff.2 h)
  refine ⟨fun o ho => ?_, fun depth => by simp [hne]⟩
  obtain ⟨lines, rfl⟩ := exists_lines ho
  rw [write, h, append_ok]
  rfl

/-- A statement without a form leaves the lines in front. -/
theorem halts_sexpr {texts : List String} {u : Node} {more : List Node}
    (hsplit : p.children = ss ++ u :: more) (hss : ss.map SExpr.expression = texts.map .ok)
    (hu : SExpr.expression u = .error fault) : Halts .sexpr p fault (fun _ => texts) 0 := by
  intro o ho
  have hlines : SExpr.lines p =
      texts.map .ok ++ .error fault :: more.map SExpr.expression := by
    rw [SExpr.lines_of_ne_nil (by simp [hsplit]), hsplit, List.map_append, List.map_cons, hss, hu]
  obtain ⟨lines, rfl⟩ := exists_lines ho
  rw [write, hlines, append_error]
  rfl

/-- Every program has a document. -/
theorem adds_json (p : Node) : Adds .json p fun _ => [p.toJson.write Output.layout] := by
  refine ⟨fun o ho => ?_, fun depth => by simp⟩
  obtain ⟨text, rfl⟩ := exists_document ho
  rfl

/-- A program is printed for a target, or a statement of it stops the printer. -/
theorem write_outcome (target : Target) (p : Node) : Outcome target p := by
  cases target with
  | source =>
      cases Source.statements_outcome Source.indentWidth p.children with
      | printed h => exact .printed (adds_source h)
      | @stopped ss more u fault layout part opened hsplit hfront h =>
          refine .stopped hsplit ?_ (halts_source hsplit hfront h)
            (halts_source (List.nil_append [u]).symm .nil h) fun hu => h.of_ne_block (hu rfl)
          rw [Leads]
          split
          · next hss => exact fun depth => (hfront depth).1.2 hss
          · exact adds_source hfront
  | sexpr =>
      by_cases hchildren : p.children = []
      · have hlines : SExpr.lines p = [SExpr.parenthesized "source_file" []].map .ok := by
          rw [SExpr.lines, hchildren]
          rfl
        exact .printed (adds_sexpr hlines)
      rcases SExpr.expression_cases p.children with
        ⟨texts, htexts⟩ | ⟨ss, u, more, texts, fault, hsplit, hss, hu⟩
      · exact .printed (adds_sexpr ((SExpr.lines_of_ne_nil hchildren).trans htexts))
      · have hleads : Leads .sexpr p ss fun _ => texts := by
          rw [Leads]
          split
          · next h => simpa [h, eq_comm] using hss
          · next h => exact adds_sexpr ((SExpr.lines_of_ne_nil h).trans hss)
        have hhalts : Halts .sexpr p fault (fun _ => texts ++ []) 0 := by
          simpa using halts_sexpr hsplit hss hu
        have hsingle : Halts .sexpr { p with children := [u] } fault (fun _ => []) 0 :=
          halts_sexpr (List.nil_append [u]).symm rfl hu
        exact .stopped hsplit hleads hhalts hsingle fun _ => ⟨fun _ => rfl, rfl⟩
  | json => exact .printed (adds_json p)

end Output

/-! ### Calls -/

namespace Renderer

variable {t : Node} {ts : List Node} {r : Renderer} {fault : PrintFault}
  {layout part : Nat → List String} {opened : Nat}

/-- The renderer behind some calls of it, failed or not. -/
def behind (r : Renderer) : List Node → Renderer
  | [] => r
  | t :: ts =>
    match render t r with
    | .ok _ r' => r'.behind ts
    | .error _ r' => r'.behind ts

/-- Only programs are rendered. The renderer stays as it was. -/
theorem render_of_not_program (h : t.kind ≠ .program) (r : Renderer) :
    render t r = .error .notProgram r := by
  rw [render, if_neg h]

/-- What a program adds is kept, and all of the output is returned. -/
theorem render_of_adds (ht : t.kind = .program) (h : Output.Adds r.output.target t layout) :
    render t r = .ok (r.output.put (layout r.output.depth)).text
      { r with output := r.output.put (layout r.output.depth) } := by
  rw [render, if_pos ht, h.write_eq r.output rfl]

/-- What a program leaves is kept, and its fault is returned. -/
theorem render_of_halts (ht : t.kind = .program)
    (h : Output.Halts r.output.target t fault part opened) :
    render t r = .error fault
      { r with output := (r.output.put (part r.output.depth)).nest opened } := by
  rw [render, if_pos ht, h r.output rfl]

/-- Behind a program that is rendered the renderer goes on. -/
theorem behind_cons_ok {text : String} {r' : Renderer} (h : render t r = .ok text r') :
    r.behind (t :: ts) = r'.behind ts := by
  rw [behind, h]

/-- Behind one that is not it goes on as well. -/
theorem behind_cons_error {r' : Renderer} (h : render t r = .error fault r') :
    r.behind (t :: ts) = r'.behind ts := by
  rw [behind, h]

end Renderer

end Sigil
