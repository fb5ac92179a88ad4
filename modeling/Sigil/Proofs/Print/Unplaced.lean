import Sigil.Proofs.Print.Lines
import Sigil.Proofs.Print.SExpr

/-!
# Printing without places

Source text and s-expressions say nothing about places: a printer reads the place of a node only to
name it in a fault. So to print a tree whose places are lost is to print the tree and to lose the
place in the fault, if there is one, and trees of the same shape are printed alike. This holds of
all trees, whether or not the language has them.

## Main definitions

* `Tree.unplaced`, `PrintFault.unplaced`: a tree and a fault without their places.

## Main results

* `Source.expression_unplaced`, `Source.statement_unplaced`, `SExpr.expression_unplaced`: nothing
  that is printed depends on places.
-/

namespace Sigil

/-! ### Faults -/

/-- The fault without the place that it names. -/
def PrintFault.unplaced : PrintFault → PrintFault
  | noSourceForm kind _ => noSourceForm kind .start
  | noSExprForm kind _ => noSExprForm kind .start
  | fault => fault

section

variable {α β ε δ σ : Type} (f : ε → δ)

/-- Errors may be changed in each of two steps. -/
theorem mapError_bind (x : Except ε α) (g : α → Except ε β) :
    (x >>= g).mapError f = x.mapError f >>= fun a => (g a).mapError f := by
  cases x <;> rfl

/-- A change of errors does not touch the results. -/
theorem mapError_map (x : Except ε α) (g : α → β) :
    (g <$> x).mapError f = g <$> x.mapError f := by
  cases x <;> rfl

/-- Lists of results are the same up to the faults if the results are. -/
theorem mapM_eq_mapError {as : List α} {g : α → Except ε β} {g' : α → Except δ β}
    (h : ∀ a ∈ as, g' a = (g a).mapError f) : as.mapM g' = (as.mapM g).mapError f := by
  induction as with
  | nil => rfl
  | cons a as ih =>
      obtain ⟨ha, hrest⟩ := List.forall_mem_cons.1 h
      simp only [List.mapM_cons, mapError_bind, ha, ih hrest]
      rfl

/-- The same for steps that have a state. -/
theorem adaptExcept_bind (x : EStateM ε σ α) (g : α → EStateM ε σ β) :
    (x >>= g).adaptExcept f = x.adaptExcept f >>= fun a => (g a).adaptExcept f := by
  funext s
  change EStateM.adaptExcept f (EStateM.bind x g) s = EStateM.bind (EStateM.adaptExcept f x) _ s
  simp only [EStateM.adaptExcept, EStateM.bind]
  cases x s <;> rfl

end

/-! ### Trees -/

/-- What is left of a tree without its places: all its nodes are at the start of a text. -/
def Tree.unplaced (t : Node) : Node :=
  t.shape.map fun _ => ⟨.start, 0⟩

/-- What is left of a value without its places. -/
def Value.unplaced : Value Node → Value Node
  | .node t => .node t.unplaced
  | v => v

namespace Tree

variable (t : Node)

/-- A node without its place is made of parts without theirs. -/
theorem unplaced_mk (kind : NodeKind) (value : Value Node) (ts : List Node) (mark : Extent) :
    unplaced ⟨kind, value, ts, mark⟩ = ⟨kind, value.unplaced, ts.map unplaced, ⟨.start, 0⟩⟩ := by
  cases value with
  | none => rw [unplaced, shape_none, map, mapAll_eq, List.map_map]; rfl
  | text s => rw [unplaced, shape_text, map, mapAll_eq, List.map_map]; rfl
  | node r => rw [unplaced, shape_node, map, mapAll_eq, List.map_map]; rfl

/-- A node keeps its kind. -/
theorem kind_unplaced : t.unplaced.kind = t.kind := by
  obtain ⟨kind, value, ts, mark⟩ := t
  rw [unplaced_mk]

/-- The outlines of children are those of the first ones. -/
theorem outlines_eq {α : Type} (n : Nat) (ts : List (Tree α)) :
    outlines n ts = (ts.take n).map outline := by
  induction ts generalizing n with
  | nil => cases n <;> rfl
  | cons t ts ih =>
      cases n with
      | zero => rfl
      | succ n => rw [outlines, ih, List.take_succ_cons, List.map_cons]

/-- An outline says nothing about places. -/
theorem outline_unplaced : t.unplaced.outline = t.outline := by
  induction t using induct with
  | step kind value ts mark hvalue hts =>
      have hpreview : ((ts.map unplaced).take 3).map outline = (ts.take 3).map outline := by
        rw [← List.map_take, List.map_map]
        exact List.map_congr_left fun t ht => hts t (List.mem_of_mem_take ht)
      have hempty : (ts.map unplaced).isEmpty = ts.isEmpty := List.isEmpty_map
      rw [unplaced_mk]
      cases value with
      | none => simp only [Value.unplaced, outline, outlines_eq, hpreview, hempty, List.length_map]
      | text s =>
          simp only [Value.unplaced, outline, outlines_eq, hpreview, hempty, List.length_map]
      | node r =>
          simp only [Value.unplaced, outline, outlines_eq, hpreview, hempty, List.length_map,
            hvalue r rfl]

end Tree

/-- A value is shown in the same way. -/
theorem Value.shown_unplaced (v : Value Node) : v.unplaced.shown = v.shown := by
  cases v with
  | none => rfl
  | text s => rfl
  | node t => exact t.outline_unplaced

/-! ### Source text -/

namespace Source

variable {t : Node} {ts : List Node}

/-- Without its places the tree is printed as it is with them, at every place that an expression may
stand at. -/
def IgnoresPlaces (t : Node) : Prop :=
  ∀ least, expression t.unplaced least = (expression t least).mapError .unplaced

/-- A child is printed in the same way, or is missing on both sides. -/
theorem child_unplaced (h : ∀ t ∈ ts, IgnoresPlaces t) (i : Nat) (least : Int) :
    child (expressions (ts.map Tree.unplaced)) i least =
      (child (expressions ts) i least).mapError .unplaced := by
  simp only [child, expressions_eq, List.getElem?_map]
  cases hi : ts[i]? with
  | none => rfl
  | some t => exact h t (List.mem_of_getElem? hi) least

/-- Items are printed in the same way. -/
theorem commaSeparated_unplaced (h : ∀ t ∈ ts, IgnoresPlaces t) :
    commaSeparated (expressions (ts.map Tree.unplaced)) =
      (commaSeparated (expressions ts)).mapError .unplaced := by
  rw [commaSeparated_eq, commaSeparated_eq, mapError_map, List.mapM_map]
  exact congrArg _ (mapM_eq_mapError _ fun t ht => h t ht _)

/-- Both operands are printed in the same way. -/
theorem binaryOperation_unplaced (h : ∀ t ∈ ts, IgnoresPlaces t) (level : Int) (operator : String) :
    binaryOperation (expressions (ts.map Tree.unplaced)) level operator =
      (binaryOperation (expressions ts) level operator).mapError .unplaced := by
  simp only [binaryOperation, child_unplaced h, mapError_bind]
  rfl

/-- A value that is printed has to be a node. -/
theorem valueExpression_unplaced {value : Value Node} (h : ∀ t, value = .node t → IgnoresPlaces t) :
    valueExpression value.unplaced = (valueExpression value).mapError .unplaced := by
  cases value with
  | none => rfl
  | text s => rfl
  | node t => exact h t rfl _

/-- The entry of a map is printed by the nodes below it, as it has no expression of its own. -/
theorem entry_unplaced {kind : NodeKind} {value : Value Node} (mark : Extent)
    (hvalue : ∀ t, value = .node t → IgnoresPlaces t) (hchildren : ∀ t ∈ ts, IgnoresPlaces t) :
    entry (Tree.unplaced ⟨kind, value, ts, mark⟩) =
      (entry ⟨kind, value, ts, mark⟩).mapError .unplaced := by
  rw [Tree.unplaced_mk]
  simp only [entry, child_unplaced hchildren, valueExpression_unplaced hvalue]
  split
  · simp only [mapError_bind]
    rfl
  · rfl

/-- A string names no place when it cannot be delimited. -/
theorem stringLiteral_unplaced (text : String) :
    (stringLiteral text).mapError .unplaced = stringLiteral text := by
  unfold stringLiteral
  split
  · rfl
  · split <;> rfl

/-- A call is printed in the same way, also where what it calls is no node. -/
theorem call_unplaced {value : Value Node} (mark : Extent) (least : Int)
    (hvalue : ∀ t, value = .node t → IgnoresPlaces t) (hchildren : ∀ t ∈ ts, IgnoresPlaces t) :
    expression ⟨.call, value.unplaced, ts.map Tree.unplaced, ⟨.start, 0⟩⟩ least =
      (expression ⟨.call, value, ts, mark⟩ least).mapError .unplaced := by
  cases value with
  | none => rfl
  | text s => rfl
  | node t =>
      have ht : expression t.unplaced Level.suffixed = _ := hvalue t rfl _
      simp only [Value.unplaced, expression_call, ht, commaSeparated_unplaced hchildren,
        mapError_bind]
      rfl

/-- A map is printed in the same way. -/
theorem map_unplaced (value : Value Node) (mark : Extent) (least : Int)
    (h : ∀ t ∈ ts, entry t.unplaced = (entry t).mapError .unplaced) :
    expression ⟨.map, value.unplaced, ts.map Tree.unplaced, ⟨.start, 0⟩⟩ least =
      (expression ⟨.map, value, ts, mark⟩ least).mapError .unplaced := by
  have hentries : entries (ts.map Tree.unplaced) = (entries ts).mapError .unplaced := by
    rw [entries_eq, entries_eq, List.mapM_map]
    exact mapM_eq_mapError _ h
  simp only [expression, hentries, mapError_bind]
  rfl

/-- The text of the bound of a slice at an index among the children. -/
def boundAt (ts : List Node) (i : Nat) : Printed :=
  match ts[i]? with
  | some c => bound c
  | none => .error (.access .missingChild)

/-- The text of the step of a slice, with its colon. -/
def stepAt (ts : List Node) : Printed :=
  match ts[3]? with
  | some c => step c
  | none => .error (.access .missingChild)

/-- A slice is printed with its bounds one by one, as far as they are there. -/
theorem expression_slice_at (value : Value Node) (mark : Extent) (least : Int) :
    expression ⟨.slice, value, ts, mark⟩ least = do
      let object ← child (expressions ts) 0 Level.suffixed
      let start ← boundAt ts 1
      let stop ← boundAt ts 2
      let step ← stepAt ts
      return atLevel least Level.suffixed
        (object ++ "[" ++ start ++ ":" ++ stop ++ step ++ "]") := by
  match ts with
  | [] | [_] | [_, _] | [_, _, _] => rfl
  | a :: b :: c :: d :: ts =>
      have hall : expression ⟨.slice, value, a :: b :: c :: d :: ts, mark⟩ least = (do
          let object ← expression a Level.suffixed
          let start ← bound b
          let stop ← bound c
          let close (text : String) : Printed :=
            .ok (atLevel least Level.suffixed
              (object ++ "[" ++ start ++ ":" ++ stop ++ text ++ "]"))
          if d.kind = NodeKind.absent then .ok "" >>= close
          else ((":" ++ ·) <$> bound d) >>= close) := rfl
      have hstep : stepAt (a :: b :: c :: d :: ts) = step d := rfl
      rw [hall, hstep, step]
      by_cases hd : d.kind = .absent
      · simp only [if_pos hd]
        rfl
      · have hbound : bound d = expression d Level.primary := if_neg hd
        simp only [if_neg hd, hbound]
        rfl

/-- A slice is printed in the same way: it asks for the kinds of its bounds, not for their
places. -/
theorem slice_unplaced (value : Value Node) (mark : Extent) (least : Int)
    (h : ∀ t ∈ ts, IgnoresPlaces t) :
    expression ⟨.slice, value.unplaced, ts.map Tree.unplaced, ⟨.start, 0⟩⟩ least =
      (expression ⟨.slice, value, ts, mark⟩ least).mapError .unplaced := by
  have hbound (i : Nat) : boundAt (ts.map Tree.unplaced) i = (boundAt ts i).mapError .unplaced := by
    rw [boundAt, boundAt, List.getElem?_map]
    cases hi : ts[i]? with
    | none => rfl
    | some c =>
        have hc : expression c.unplaced Level.primary = _ := h c (List.mem_of_getElem? hi) _
        simp only [Option.map_some, bound, Tree.kind_unplaced, hc]
        split <;> rfl
  have hstep : stepAt (ts.map Tree.unplaced) = (stepAt ts).mapError .unplaced := by
    rw [stepAt, stepAt, List.getElem?_map]
    cases hi : ts[3]? with
    | none => rfl
    | some c =>
        have hc : expression c.unplaced Level.primary = _ := h c (List.mem_of_getElem? hi) _
        simp only [Option.map_some, step, Tree.kind_unplaced, hc, ← mapError_map]
        split <;> rfl
  simp only [expression_slice_at, child_unplaced h, hbound, hstep, mapError_bind]
  rfl

/-- Expressions and entries of maps are printed without regard to places. -/
theorem expression_unplaced (t : Node) :
    IgnoresPlaces t ∧ entry t.unplaced = (entry t).mapError .unplaced := by
  induction t using Tree.induct with
  | step kind value ts mark hvalue hts =>
      have hvalues : ∀ t, value = .node t → IgnoresPlaces t := fun t ht => (hvalue t ht).1
      have hchildren : ∀ t ∈ ts, IgnoresPlaces t := fun t ht => (hts t ht).1
      refine ⟨fun least => ?_, entry_unplaced mark hvalues hchildren⟩
      rw [Tree.unplaced_mk]
      cases kind with
      | string =>
          simp only [expression, Value.shown_unplaced, mapError_map, stringLiteral_unplaced]
      | call => exact call_unplaced mark least hvalues hchildren
      | map => exact map_unplaced value mark least fun t ht => (hts t ht).2
      | slice => exact slice_unplaced value mark least hchildren
      | array =>
          simp only [expression, commaSeparated_unplaced hchildren, mapError_bind]
          rfl
      | logicalOr | logicalAnd | comparison | additive | multiplicative =>
          simp only [expression, Value.shown_unplaced, binaryOperation_unplaced hchildren,
            mapError_map]
      | conditional | unary | strategy | iteration | index | member =>
          simp only [expression, Value.shown_unplaced, child_unplaced hchildren, mapError_bind]
          rfl
      | identifier | number | boolean =>
          simp only [expression, Value.shown_unplaced]
          rfl
      | program | block | dataflow | mapEntry | absent | binary | other => rfl

/-! ### Statements -/

section

variable {width : Int}

/-- To add a line does not fail. -/
theorem line_unplaced (text : String) :
    (line width text).adaptExcept PrintFault.unplaced = line width text := rfl

/-- A text is written as a line, or its failure is passed on. -/
theorem written_unplaced (p : Printed) :
    (written p).adaptExcept .unplaced = written (p.mapError .unplaced) := by
  cases p <;> rfl

/-- Statements are written without regard to places if each of them is. -/
theorem statements_unplaced_of_forall
    (h : ∀ t ∈ ts, statement width t.unplaced = (statement width t).adaptExcept .unplaced) :
    statements width (ts.map Tree.unplaced) = (statements width ts).adaptExcept .unplaced := by
  induction ts with
  | nil => rfl
  | cons t ts ih =>
      obtain ⟨ht, hts⟩ := List.forall_mem_cons.1 h
      rw [List.map_cons, statements, statements, adaptExcept_bind, ht, ih hts]

/-- A statement is written without regard to places, and leaves the same lines where it fails. -/
theorem statement_unplaced (t : Node) :
    statement width t.unplaced = (statement width t).adaptExcept .unplaced := by
  induction t using Tree.induct with
  | step kind value ts mark hvalue hts =>
      by_cases hblock : kind = .block
      · subst hblock
        have hempty : (ts.map Tree.unplaced).isEmpty = ts.isEmpty := List.isEmpty_map
        rw [Tree.unplaced_mk]
        simp only [statement, hempty, statements_unplaced_of_forall hts]
        split
        · rfl
        · simp only [adaptExcept_bind]
          rfl
      by_cases hdataflow : kind = .dataflow
      · subst hdataflow
        have hvalue : valueExpression value.unplaced = _ :=
          valueExpression_unplaced fun t _ => (expression_unplaced t).1
        rw [Tree.unplaced_mk]
        cases ts with
        | nil =>
            simp only [statement, hvalue, List.map_nil, adaptExcept_bind, written_unplaced]
            rfl
        | cons name ts =>
            obtain ⟨k, v, us, m⟩ := name
            simp only [statement, hvalue, List.map_cons, adaptExcept_bind, written_unplaced,
              Tree.unplaced_mk, Value.shown_unplaced, line_unplaced]
      · have hline (t : Node) (ht : t.kind = kind) : statement width t =
            written (expression t Level.conditional) >>= line width :=
          statement_of_bare (by rw [IsBare, Tree.kind_shape, ht]; exact ⟨hblock, hdataflow⟩)
        rw [hline _ (Tree.kind_unplaced _), hline _ rfl, adaptExcept_bind, written_unplaced,
          (expression_unplaced _).1]
        rfl

/-- Statements are printed in the same way. -/
theorem statements_unplaced (ts : List Node) :
    statements width (ts.map Tree.unplaced) = (statements width ts).adaptExcept .unplaced :=
  statements_unplaced_of_forall fun t _ => statement_unplaced t

/-- A program is printed without regard to places. -/
theorem program_unplaced (t : Node) :
    program width t.unplaced = (program width t).mapError .unplaced := by
  obtain ⟨kind, value, ts, mark⟩ := t
  rw [Tree.unplaced_mk, program, program, statements_unplaced]
  simp only [EStateM.adaptExcept]
  cases statements width ts .empty <;> rfl

end

end Source

/-! ### S-expressions -/

namespace SExpr

variable {ts : List Node} {value : Value Node}

/-- Without its places the tree has the s-expression that it has with them. -/
def IgnoresPlaces (t : Node) : Prop :=
  expression t.unplaced = (expression t).mapError .unplaced

/-- Nodes are printed in the same way, up to the first that fails. -/
theorem mapM_unplaced (h : ∀ t ∈ ts, IgnoresPlaces t) :
    (ts.map Tree.unplaced).mapM expression = (ts.mapM expression).mapError .unplaced := by
  rw [List.mapM_map]
  exact mapM_eq_mapError _ h

/-- A labelled node is printed in the same way, or left out on both sides. -/
theorem labelledNode_unplaced {t : Node} (label : String) (h : IgnoresPlaces t) :
    labelledNode label t.unplaced (expression t.unplaced) =
      (labelledNode label t (expression t)).mapError .unplaced := by
  rw [labelledNode, labelledNode, Tree.kind_unplaced, h]
  split
  · rfl
  · rw [mapError_bind]
    rfl

/-- Each part of a form is printed in the same way. -/
theorem part_unplaced (kind : NodeKind) (mark : Extent)
    (hvalue : ∀ t, value = .node t → IgnoresPlaces t) (hchildren : ∀ t ∈ ts, IgnoresPlaces t)
    (label : Field) :
    part (Tree.unplaced ⟨kind, value, ts, mark⟩) label =
      (part ⟨kind, value, ts, mark⟩ label).mapError .unplaced := by
  rw [Tree.unplaced_mk]
  simp only [part]
  rcases kind.slot? label.word with _ | _ | i | _
  case some.child =>
    dsimp only
    rw [List.getElem?_map]
    cases hi : ts[i]? with
    | none => rfl
    | some c => exact labelledNode_unplaced _ (hchildren c (List.mem_of_getElem? hi))
  all_goals
    cases value with
    | none => rfl
    | text s => rfl
    | node t => exact labelledNode_unplaced _ (hvalue t rfl)

/-- The form of a call is printed in the same way. -/
theorem call_unplaced (mark : Extent)
    (hvalue : ∀ t, value = .node t → IgnoresPlaces t) (hchildren : ∀ t ∈ ts, IgnoresPlaces t) :
    expression ⟨.call, value.unplaced, ts.map Tree.unplaced, ⟨.start, 0⟩⟩ =
      (expression ⟨.call, value, ts, mark⟩).mapError .unplaced := by
  cases value with
  | none => rfl
  | text s => rfl
  | node t =>
      have ht : expression t.unplaced = _ := hvalue t rfl
      simp only [Value.unplaced, expression_call, ht, mapM_unplaced hchildren, mapError_bind]
      rfl

/-- The form of a literal is printed in the same way. -/
theorem literal_unplaced {kind : NodeKind} (h : kind ∈ NodeKind.literals) (mark : Extent) :
    expression ⟨kind, value.unplaced, ts.map Tree.unplaced, ⟨.start, 0⟩⟩ =
      (expression ⟨kind, value, ts, mark⟩).mapError .unplaced := by
  simp only [NodeKind.literals, List.mem_cons, List.not_mem_nil, or_false] at h
  rcases h with rfl | rfl | rfl | rfl <;> cases value <;> rfl

/-- S-expressions are made without regard to places. -/
theorem expression_unplaced (t : Node) : IgnoresPlaces t := by
  induction t using Tree.induct with
  | step kind value ts mark hvalue hts =>
      rw [IgnoresPlaces]
      cases hrule : kind.rule? with
      | none =>
        rw [Tree.unplaced_mk]
        cases kind <;> first
          | cases hrule; done
          | rfl
      | some rule =>
      by_cases hliteral : kind ∈ NodeKind.literals
      · rw [Tree.unplaced_mk]
        exact literal_unplaced hliteral mark
      by_cases hcall : kind = .call
      · subst hcall
        rw [Tree.unplaced_mk]
        exact call_unplaced mark hvalue hts
      cases hlabels : kind.labels? with
      | none =>
          rw [Tree.unplaced_mk, expression_series hrule hlabels hliteral hcall,
            expression_series hrule hlabels hliteral hcall, mapError_map, mapM_unplaced hts]
      | some labels =>
          have hparts := mapM_eq_mapError PrintFault.unplaced
            fun label (_ : label ∈ labels) => part_unplaced kind mark hvalue hts label
          rw [Tree.unplaced_mk] at hparts ⊢
          rw [expression_labelled hrule hlabels, expression_labelled hrule hlabels, mapError_map,
            hparts]

/-- The lines of a program are printed in the same way. -/
theorem lines_unplaced (t : Node) :
    lines t.unplaced = (lines t).map fun line => line.mapError .unplaced := by
  obtain ⟨kind, value, ts, mark⟩ := t
  rw [Tree.unplaced_mk, lines, lines, List.isEmpty_map, expressions_eq, expressions_eq]
  split
  · rfl
  · rw [List.map_map, List.map_map]
    exact List.map_congr_left fun t _ => expression_unplaced t

/-- A program is printed line by line without regard to places. -/
theorem program_unplaced (t : Node) :
    program t.unplaced = (program t).mapError .unplaced := by
  rw [program, program, lines_unplaced, mapError_map, List.mapM_map]
  exact congrArg _ (mapM_eq_mapError _ fun _ _ => rfl)

end SExpr

end Sigil
