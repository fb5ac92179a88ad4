import Sigil.Print.SExpr
import Sigil.Proofs.Tree.Parts

/-!
# S-expressions of complete trees

The s-expression of each kind of node by those of its parts. The equations hold by computation, so
nothing that uses them unfolds the printer as a whole. A tree has an s-expression if all its nodes
are complete: whatever the printer asks for is then there.

## Main results

* `SExpr.expression_labelled`, `SExpr.expression_series` and so on: the kinds of nodes.
* `SExpr.exists_expression`: complete trees have an s-expression.
-/

namespace Sigil

namespace SExpr

variable {kind : NodeKind} {t : Node} {ts : List Node} {mark : Extent} {rule : String}
  {labels : List Field}

/-! ### Kinds of nodes -/

/-- The forms of children are theirs one by one. -/
theorem expressions_eq (ts : List Node) : expressions ts = ts.map expression := by
  induction ts with
  | nil => rfl
  | cons t ts ih => exact congrArg (expression t :: ·) ih

/-- The form of a literal. -/
theorem expression_literal (hkind : kind ∈ NodeKind.literals) (hrule : kind.rule? = some rule)
    (text : String) :
    expression ⟨kind, .text text, ts, mark⟩ =
      .ok (parenthesized rule [quoted (some text)]) := by
  simp only [NodeKind.literals, List.mem_cons, List.not_mem_nil, or_false] at hkind
  rcases hkind with rfl | rfl | rfl | rfl <;> cases hrule <;> rfl

/-- The form of a call, which is left without arguments if there are none. -/
theorem expression_call :
    expression ⟨.call, .node t, ts, mark⟩ = do
      let function ← expression t
      let arguments ← ts.mapM expression
      return parenthesized "call_expression" (("function: " ++ function) ::
        if arguments.isEmpty then [] else [parenthesized "argument_list" arguments]) := by
  have hall : expression ⟨.call, .node t, ts, mark⟩ = (do
      let function ← expression t
      let arguments ← (expressions ts).mapM id
      return parenthesized "call_expression" (("function: " ++ function) ::
        if arguments.isEmpty then [] else [parenthesized "argument_list" arguments])) := rfl
  rw [hall, expressions_eq, List.mapM_map]
  rfl

/-- The nodes of the other kinds without labels are printed with their children one by one. -/
theorem expression_series (hrule : kind.rule? = some rule) (hlabels : kind.labels? = none)
    (hliteral : kind ∉ NodeKind.literals) (hcall : kind ≠ .call) (value : Value Node) :
    expression ⟨kind, value, ts, mark⟩ = parenthesized rule <$> ts.mapM expression := by
  have hall : expression ⟨kind, value, ts, mark⟩ =
      parenthesized rule <$> (expressions ts).mapM id := by
    cases kind <;> first
      | (cases hlabels; done)
      | exact absurd (by decide) hliteral
      | exact absurd rfl hcall
      | (cases hrule; done)
      | (cases hrule; cases value <;> rfl)
  rw [hall, expressions_eq, List.mapM_map]
  rfl

/-- The part of a node that carries a label. -/
def part (t : Node) (label : Field) : Except PrintFault (List String) :=
  match t.kind.slot? label.word with
  | some (.child i) =>
    match t.children[i]? with
    | some c => labelledNode label.word c (expression c)
    | none => .error (.access .missingChild)
  | _ =>
    match t.value with
    | .node u => labelledNode label.word u (expression u)
    | .text s => .ok [label.word ++ ": " ++ content t.kind (some s)]
    | .none => .ok [label.word ++ ": " ++ content t.kind none]

/-- A node with labels is printed with its labelled parts one by one. -/
theorem expression_labelled (hrule : kind.rule? = some rule)
    (hlabels : kind.labels? = some labels) (value : Value Node) :
    expression ⟨kind, value, ts, mark⟩ =
      (fun parts => parenthesized rule parts.flatten) <$>
        labels.mapM (part ⟨kind, value, ts, mark⟩) := by
  conv_lhs => unfold expression
  simp only [hrule]
  split
  case h_6 =>
    simp only [hlabels, bind_pure_comp]
    refine congrArg _ (congrArg (List.mapM · labels) (funext fun label => ?_))
    simp only [part, expressions_eq, List.getElem?_map]
    rcases kind.slot? label.word with _ | _ | i | _
    case some.child =>
      dsimp only
      cases ts[i]? <;> rfl
    all_goals rfl
  all_goals cases hlabels

/-! ### Complete trees -/

/-- The marks of bounds that are left out are left out here too. -/
theorem exists_labelledNode (label : String)
    (h : t.kind ≠ .absent → ∃ text, expression t = .ok text) :
    ∃ parts, labelledNode label t (expression t) = .ok parts := by
  by_cases habsent : t.kind = .absent
  · exact ⟨[], if_pos habsent⟩
  · obtain ⟨text, htext⟩ := h habsent
    rw [labelledNode, if_neg habsent, htext]
    exact ⟨_, rfl⟩

/-- The labels of a kind are fields that it keeps in its value or in single children. -/
theorem exists_slot_of_label (hlabels : kind.labels? = some labels) :
    ∀ label ∈ labels, ∃ slot, (label, slot) ∈ kind.layout ∧ slot ≠ .children := by
  cases kind <;> cases hlabels <;> simp [NodeKind.layout]

/-- The labelled parts of a complete node are printed if the nodes below it are. -/
theorem exists_part (ht : t.IsComplete) (hlabels : t.kind.labels? = some labels)
    (hbelow : ∀ c ∈ t.subnodes, c.kind ≠ .absent → ∃ text, expression c = .ok text) :
    ∀ label ∈ labels, ∃ parts, part t label = .ok parts := by
  intro label hlabel
  obtain ⟨slot, hmem, hslot⟩ := exists_slot_of_label hlabels label hlabel
  have hfound : t.kind.slot? label.word = some slot := NodeKind.slot?_of_mem _ hmem
  rcases slot with _ | i | _
  · simp only [part, hfound]
    rcases hvalue : t.value with _ | text | u
    · exact ⟨_, rfl⟩
    · exact ⟨_, rfl⟩
    · exact exists_labelledNode _ (hbelow u (Tree.mem_subnodes.2 (.inl hvalue)))
  · obtain ⟨n, hn, hi⟩ := NodeKind.exists_arity _ hmem i rfl
    have hlt : i < t.children.length := by rwa [ht.arity n hn]
    have hchild : t.children[i] ∈ t.subnodes :=
      Tree.mem_subnodes.2 (.inr (List.getElem_mem hlt))
    simp only [part, hfound, List.getElem?_eq_getElem hlt]
    exact exists_labelledNode _ (hbelow _ hchild)
  · exact absurd rfl hslot

/-- The value of a literal is a text. -/
theorem content_of_literal (hkind : kind ∈ NodeKind.literals) : kind.content = .text := by
  simp only [NodeKind.literals, List.mem_cons, List.not_mem_nil, or_false] at hkind
  rcases hkind with rfl | rfl | rfl | rfl <;> rfl

/-- Each kind that a complete node may have, but for that of the mark of an absent bound, has a
rule. -/
theorem exists_rule {α : Type} {t : Tree α} (ht : t.IsComplete) (habsent : t.kind ≠ .absent) :
    ∃ rule, t.kind.rule? = some rule := by
  obtain ⟨hknown, hspecific, -⟩ := ht
  generalize t.kind = kind at hknown hspecific habsent
  cases kind <;> first
    | exact ⟨_, rfl⟩
    | exact absurd rfl hspecific
    | exact absurd rfl habsent
    | simp [NodeKind.known] at hknown

/-- A complete node is printed if the nodes below it are. -/
theorem exists_expression_of_below (ht : t.IsComplete) (habsent : t.kind ≠ .absent)
    (hbelow : ∀ c ∈ t.subnodes, c.kind ≠ .absent → ∃ text, expression c = .ok text) :
    ∃ text, expression t = .ok text := by
  obtain ⟨rule, hrule⟩ := exists_rule ht habsent
  have hall (hslice : t.kind ≠ .slice) : ∀ c ∈ t.subnodes, ∃ text, expression c = .ok text :=
    fun c hc => hbelow c hc fun hkind => hslice (ht.placed c hc hkind)
  have hchildren (hslice : t.kind ≠ .slice) : ∃ texts, t.children.mapM expression = .ok texts :=
    exists_mapM_eq_ok fun c hc => hall hslice c (Tree.mem_subnodes.2 (.inr hc))
  have hcontent := ht.content
  have hparts {labels : List Field} (hlabels : t.kind.labels? = some labels) :
      ∃ parts, labels.mapM (part t) = .ok parts :=
    exists_mapM_eq_ok (exists_part ht hlabels hbelow)
  obtain ⟨kind, value, children, mark⟩ := t
  dsimp only at *
  by_cases hliteral : kind ∈ NodeKind.literals
  · obtain ⟨text, rfl⟩ := Value.exists_text (hcontent.trans (content_of_literal hliteral))
    exact ⟨_, expression_literal hliteral hrule text⟩
  by_cases hcall : kind = .call
  · subst hcall
    obtain ⟨u, rfl⟩ := Value.exists_node hcontent
    obtain ⟨function, hfunction⟩ := hall (by decide) u (Tree.mem_subnodes.2 (.inl rfl))
    obtain ⟨texts, htexts⟩ := hchildren (by decide)
    rw [expression_call, hfunction, htexts]
    exact ⟨_, rfl⟩
  cases hlabels : kind.labels? with
  | some labels =>
      obtain ⟨parts, hparts⟩ := hparts hlabels
      rw [expression_labelled hrule hlabels, hparts]
      exact ⟨_, rfl⟩
  | none =>
      have hslice : kind ≠ .slice := by
        rintro rfl
        cases hlabels
      obtain ⟨texts, htexts⟩ := hchildren hslice
      rw [expression_series hrule hlabels hliteral hcall, htexts]
      exact ⟨_, rfl⟩

/-- A tree all of whose nodes are complete has an s-expression. -/
theorem exists_expression (h : ∀ u ∈ t.walk, u.IsComplete) (habsent : t.kind ≠ .absent) :
    ∃ text, expression t = .ok text := by
  induction t using Tree.induct with
  | step kind value children mark hvalue hchildren =>
      obtain ⟨ht, hbelow⟩ := Tree.forall_mem_walk.1 h
      refine exists_expression_of_below ht habsent fun c hc hkind => ?_
      rcases Tree.mem_subnodes.1 hc with hc' | hc'
      · exact hvalue c hc' (hbelow c hc) hkind
      · exact hchildren c hc' (hbelow c hc) hkind

end SExpr

end Sigil
