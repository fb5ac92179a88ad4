import Mathlib.Data.List.ReduceOption
import Sigil.Proofs.Print.Datum
import Sigil.Proofs.Print.SExpr

/-!
# The data of shapes

The datum that the s-expression of a shape is the text of. Only the mark of a bound that is left out
has none. A datum keeps the kind of a node as its rule, and the value and the children behind labels
or in a row. What is left out can be put back, since a kind either names all its parts or has parts
of one sort only; so complete shapes with the same datum are the same.

## Main definitions

* `Tree.datum?`: the datum of a shape.
* `NodeKind.parts`: the parts of the datum of a node by those of its value and its children.

## Main results

* `NodeKind.parts_injective`: the parts determine the data of the value and the children.
* `Tree.datum?_injective`: the datum of a shape whose nodes are complete determines the shape.
-/

namespace Sigil

open SExpr (Datum)

/-! ### The data of nodes -/

namespace NodeKind

/-- The datum of a text that a node of the kind holds: the name of a member is an identifier. -/
def textDatum (kind : NodeKind) (s : String) : Datum :=
  if kind = .member then .node "identifier" [.quoted s] else .quoted s

/-- What stands behind a label of the kind, if it is not left out. -/
def filled (kind : NodeKind) (value : Option Datum) (children : List (Option Datum))
    (label : Field) : Option Datum :=
  match kind.slot? label.word with
  | some (.child i) => children[i]?.join
  | _ => value

/-- The data that stand behind labels, with the labels. -/
def labelled (labels : List Field) (f : Field → Option Datum) : List Datum :=
  labels.flatMap fun label => ((f label).map (.labelled label.word)).toList

/-- The parts of the datum of a node by those of its value and its children. -/
def parts (kind : NodeKind) (value : Option Datum) (children : List (Option Datum)) :
    List Datum :=
  match kind.labels? with
  | some labels => labelled labels (kind.filled value children)
  | none =>
    if kind = .call then
      (value.map (.labelled "function")).toList ++
        if children.isEmpty then [] else [.node "argument_list" children.reduceOption]
    else value.toList ++ children.reduceOption

end NodeKind

namespace Tree

mutual

/-- The datum of a shape, unless it is the mark of a bound that is left out. -/
def datum? : Shape → Option Datum
  | ⟨kind, value, children, _⟩ =>
    let value := match value with
      | .none => none
      | .text s => some (kind.textDatum s)
      | .node σ => datum? σ
    if kind = .absent then none
    else some (.node (kind.rule?.getD "") (kind.parts value (data children)))
termination_by structural σ => σ

/-- The data of shapes. -/
def data : List Shape → List (Option Datum)
  | [] => []
  | σ :: σs => datum? σ :: data σs
termination_by structural σs => σs

end

/-- The data of children are theirs one by one. -/
theorem data_eq (σs : List Shape) : data σs = σs.map datum? := by
  induction σs with
  | nil => rfl
  | cons σ σs ih => rw [data, ih, List.map_cons]

/-- The datum of a value. -/
def valueDatum (kind : NodeKind) : Value Shape → Option Datum
  | .none => none
  | .text s => some (kind.textDatum s)
  | .node σ => datum? σ

/-- What is left out has no datum. -/
theorem datum?_absent (value : Value Shape) (σs : List Shape) :
    datum? ⟨.absent, value, σs, ()⟩ = none := by
  cases value <;> rfl

/-- What is there has a form with its rule and parts. -/
theorem datum?_of_ne {kind : NodeKind} (h : kind ≠ .absent) (value : Value Shape)
    (σs : List Shape) : datum? ⟨kind, value, σs, ()⟩ =
      some (.node (kind.rule?.getD "") (kind.parts (valueDatum kind value) (σs.map datum?))) := by
  cases value <;> simp [datum?, h, data_eq, valueDatum]

end Tree

namespace NodeKind

variable {kind kind' : NodeKind} {labels : List Field}

/-! ### Tables -/

/-- Kinds with the same rule are the same. -/
theorem rule?_injective : ∀ kind ∈ known, ∀ kind' ∈ known, kind.rule? = kind'.rule? →
    kind.rule? ≠ none → kind = kind' := by
  decide

/-- The name of a rule is a word. -/
theorem isWord_rule {rule : String} (h : kind.rule? = some rule) : Datum.IsWord rule := by
  cases kind <;> cases h <;> decide

/-- A label is a word. -/
theorem isWord_word : ∀ label : Field, Datum.IsWord label.word := by
  intro label
  cases label <;> decide

/-- No two parts of a kind have the same label. -/
theorem nodup_labels (h : kind.labels? = some labels) : labels.Nodup := by
  cases kind <;> cases h <;> decide

/-- Different labels are written differently. -/
theorem word_injective : Function.Injective Field.word := by
  intro a b h
  cases a <;> cases b <;> first | rfl | (simp [Field.word] at h)

/-- The labels of a kind cover the value and all the children. -/
theorem covered (h : kind.labels? = some labels) :
    (kind.content ≠ .nothing → ∃ label ∈ labels, kind.slot? label.word = some .value) ∧
      ∃ n, kind.arity? = some n ∧
        ∀ i < n, ∃ label ∈ labels, kind.slot? label.word = some (.child i) := by
  cases kind <;> cases h <;> exact ⟨by decide, _, rfl, by decide⟩

/-- Of the nodes without labels only calls have both a value and children. -/
theorem content_or_arity (h : kind.labels? = none) (hcall : kind ≠ .call) :
    kind.content = .nothing ∨ kind.arity? = some 0 := by
  cases kind <;> simp_all [labels?, content, arity?, layout]

/-! ### Parts -/

/-- The data of the value and the children of a complete node of the kind. -/
structure Fits (kind : NodeKind) (value : Option Datum) (children : List (Option Datum)) :
    Prop where
  value : value.isSome = true ↔ kind.content ≠ .nothing
  arity : ∀ n, kind.arity? = some n → children.length = n
  children : kind ≠ .slice → ∀ c ∈ children, c ≠ none

variable {v v' : Option Datum} {cs cs' : List (Option Datum)}

/-- The first label, if there is a part for it, and the others. -/
theorem labelled_cons (label : Field) (labels : List Field) (f : Field → Option Datum) :
    labelled (label :: labels) f =
      ((f label).map (.labelled label.word)).toList ++ labelled labels f :=
  List.flatMap_cons

/-- Behind labels nothing starts with a label that is not one of them. -/
theorem labelled_ne_cons {label : Field} (hlabel : label ∉ labels) (f : Field → Option Datum)
    (d : Datum) (ds : List Datum) : labelled labels f ≠ .labelled label.word d :: ds := by
  intro heq
  have hmem : .labelled label.word d ∈ labelled labels f := by simp [heq]
  obtain ⟨other, hother, hd⟩ := List.mem_flatMap.1 hmem
  rw [Option.mem_toList, Option.map_eq_some_iff] at hd
  obtain ⟨_, -, hword⟩ := hd
  exact hlabel (word_injective (Datum.labelled.inj hword).1 ▸ hother)

/-- Data with labels are in the order of the labels, so each is found again behind its label. -/
theorem labelled_injective {f g : Field → Option Datum} (hnodup : labels.Nodup)
    (h : labelled labels f = labelled labels g) : ∀ label ∈ labels, f label = g label := by
  induction labels with
  | nil => simp
  | cons label labels ih =>
      obtain ⟨hnot, hnodup⟩ := List.nodup_cons.1 hnodup
      rw [labelled_cons, labelled_cons] at h
      have hhead : f label = g label ∧ labelled labels f = labelled labels g := by
        cases hf : f label with
        | none =>
            cases hg : g label with
            | none => simpa [hf, hg] using h
            | some d =>
                rw [hf, hg] at h
                exact absurd h (labelled_ne_cons hnot f d _)
        | some d =>
            cases hg : g label with
            | none =>
                rw [hf, hg] at h
                exact absurd h.symm (labelled_ne_cons hnot g d _)
            | some d' => simpa [hf, hg] using h
      exact List.forall_mem_cons.2 ⟨hhead.1, ih hnodup hhead.2⟩

/-- Lists of data that are all there are determined by what is there. -/
theorem eq_of_reduceOption (hcs : ∀ c ∈ cs, c ≠ none) (hcs' : ∀ c ∈ cs', c ≠ none)
    (h : cs.reduceOption = cs'.reduceOption) : cs = cs' := by
  have hsome {cs : List (Option Datum)} (hcs : ∀ c ∈ cs, c ≠ none) :
      cs.reduceOption.map some = cs := by
    induction cs with
    | nil => rfl
    | cons c cs ih =>
        obtain ⟨hc, hrest⟩ := List.forall_mem_cons.1 hcs
        obtain ⟨d, rfl⟩ := Option.ne_none_iff_exists'.1 hc
        rw [List.reduceOption_cons_of_some, List.map_cons, ih hrest]
  rw [← hsome hcs, h, hsome hcs']

/-- Kinds without a value have just one. -/
theorem Fits.value_eq (h : kind.Fits v cs) (h' : kind.Fits v' cs')
    (hcontent : kind.content = .nothing) : v = v' := by
  have hnone {v : Option Datum} (hv : v.isSome = true ↔ kind.content ≠ .nothing) : v = none := by
    simpa [hcontent] using hv
  rw [hnone h.value, hnone h'.value]

/-- Parts behind labels are found again behind them. -/
theorem parts_injective_of_labels (hlabels : kind.labels? = some labels) (h : kind.Fits v cs)
    (h' : kind.Fits v' cs') (hparts : kind.parts v cs = kind.parts v' cs') :
    v = v' ∧ cs = cs' := by
  simp only [parts, hlabels] at hparts
  have hfilled := labelled_injective (nodup_labels hlabels) hparts
  obtain ⟨hvalue, n, hn, hchildren⟩ := covered hlabels
  constructor
  · by_cases hcontent : kind.content = .nothing
    · exact h.value_eq h' hcontent
    · obtain ⟨label, hlabel, hslot⟩ := hvalue hcontent
      simpa [filled, hslot] using hfilled label hlabel
  · refine List.ext_getElem ((h.arity n hn).trans (h'.arity n hn).symm) fun i hi hi' => ?_
    obtain ⟨label, hlabel, hslot⟩ := hchildren i (h.arity n hn ▸ hi)
    simpa [filled, hslot, hi, hi'] using hfilled label hlabel

/-- A list of arguments that is not there is an empty one. -/
theorem parts_injective_of_call (h : Fits .call v cs) (h' : Fits .call v' cs')
    (hparts : parts .call v cs = parts .call v' cs') : v = v' ∧ cs = cs' := by
  have hall := eq_of_reduceOption (h.children (by decide)) (h'.children (by decide))
  obtain ⟨d, rfl⟩ := Option.isSome_iff_exists.1 (h.value.2 (by decide))
  obtain ⟨d', rfl⟩ := Option.isSome_iff_exists.1 (h'.value.2 (by decide))
  simp only [parts, labels?, if_true, Option.map_some, Option.toList_some, List.singleton_append,
    List.cons.injEq, Datum.labelled.injEq, true_and] at hparts
  obtain ⟨rfl, harguments⟩ := hparts
  refine ⟨rfl, ?_⟩
  cases cs <;> cases cs' <;> simp_all

/-- The parts of a node determine the data of its value and its children. -/
theorem parts_injective (h : kind.Fits v cs) (h' : kind.Fits v' cs')
    (hparts : kind.parts v cs = kind.parts v' cs') : v = v' ∧ cs = cs' := by
  cases hlabels : kind.labels? with
  | some labels => exact parts_injective_of_labels hlabels h h' hparts
  | none =>
      by_cases hcall : kind = .call
      · subst hcall
        exact parts_injective_of_call h h' hparts
      have hslice : kind ≠ .slice := by
        rintro rfl
        cases hlabels
      simp only [parts, hlabels, hcall, if_false] at hparts
      rcases content_or_arity hlabels hcall with hcontent | harity
      · obtain rfl := h.value_eq h' hcontent
        exact ⟨rfl, eq_of_reduceOption (h.children hslice) (h'.children hslice)
          (List.append_cancel_left hparts)⟩
      · obtain rfl := List.eq_nil_of_length_eq_zero (h.arity 0 harity)
        obtain rfl := List.eq_nil_of_length_eq_zero (h'.arity 0 harity)
        have hlist := List.append_cancel_right hparts
        exact ⟨by cases v <;> cases v' <;> simp_all, rfl⟩

end NodeKind

namespace Tree

/-! ### Shapes are determined by their data -/

section

variable {σ τ : Shape} {σs τs : List Shape}


/-- Only the mark of a bound that is left out has no datum. -/
theorem datum?_eq_none_iff : datum? σ = none ↔ σ.kind = .absent := by
  obtain ⟨kind, value, σs, -⟩ := σ
  by_cases habsent : kind = .absent
  · subst habsent
    exact iff_of_true (datum?_absent value σs) rfl
  · exact iff_of_false (by simp [datum?_of_ne habsent]) habsent

/-- A complete node has no mark of a left out bound as its value. -/
theorem IsComplete.kind_value_ne {α : Type} {t u : Tree α} (h : t.IsComplete)
    (hvalue : t.value = .node u) : u.kind ≠ .absent := by
  intro habsent
  have hcontent := h.content
  rw [hvalue, h.placed u (mem_subnodes.2 (.inl hvalue)) habsent] at hcontent
  cases hcontent

/-- The value and the children of a complete node have the data that its kind asks for. -/
theorem IsComplete.fits (h : σ.IsComplete) :
    σ.kind.Fits (valueDatum σ.kind σ.value) (σ.children.map datum?) := by
  refine ⟨?_, fun n hn => by rw [List.length_map, h.arity n hn], fun hslice c hc => ?_⟩
  · rw [← h.content]
    cases hvalue : σ.value with
    | none => simp [valueDatum, Value.content]
    | text s => simp [valueDatum, Value.content]
    | node u =>
        have hsome := mt datum?_eq_none_iff.1 (h.kind_value_ne hvalue)
        simp [valueDatum, Value.content, Option.isSome_iff_ne_none, hsome]
  · obtain ⟨τ, hτ, rfl⟩ := List.mem_map.1 hc
    exact fun hnone => hslice (h.placed τ (mem_subnodes.2 (.inr hτ)) (datum?_eq_none_iff.1 hnone))

/-- Texts of a kind are told apart. -/
theorem textDatum_injective (kind : NodeKind) : Function.Injective kind.textDatum := by
  intro s s' h
  by_cases hmember : kind = .member <;> simpa [NodeKind.textDatum, hmember] using h

/-- Lists of shapes have the same data only if they are the same, if that is so for each shape. -/
theorem eq_of_map_datum? (h : ∀ σ ∈ σs, ∀ τ ∈ τs, datum? σ = datum? τ → σ = τ)
    (hdata : σs.map datum? = τs.map datum?) : σs = τs := by
  have hlength : σs.length = τs.length := by simpa using congrArg List.length hdata
  refine List.ext_getElem hlength fun i hi hi' => ?_
  refine h _ (List.getElem_mem hi) _ (List.getElem_mem hi') ?_
  simpa [hi, hi'] using congrArg (·[i]?) hdata

/-- Shapes whose nodes are complete are the same if they have the same datum. -/
theorem datum?_injective (hσ : ∀ u ∈ σ.walk, u.IsComplete) (hτ : ∀ u ∈ τ.walk, u.IsComplete)
    (h : datum? σ = datum? τ) : σ = τ := by
  induction σ using Tree.induct generalizing τ with
  | step kind value children mark hvalue hchildren =>
      obtain ⟨kind', value', children', mark'⟩ := τ
      obtain ⟨hnode, hbelow⟩ := forall_mem_walk.1 hσ
      obtain ⟨hnode', hbelow'⟩ := forall_mem_walk.1 hτ
      have hcontent := hnode.content
      have hcontent' := hnode'.content
      dsimp only at hcontent hcontent'
      by_cases habsent : kind = .absent
      · subst habsent
        obtain rfl : kind' = .absent :=
          datum?_eq_none_iff.1 (h.symm.trans (datum?_absent value children))
        obtain rfl : children = [] := List.eq_nil_of_length_eq_zero (hnode.arity 0 rfl)
        obtain rfl : children' = [] := List.eq_nil_of_length_eq_zero (hnode'.arity 0 rfl)
        cases value <;> cases hcontent
        cases value' <;> cases hcontent'
        rfl
      have habsent' : kind' ≠ .absent := by
        rintro rfl
        rw [datum?_absent] at h
        exact habsent (datum?_eq_none_iff.1 h)
      rw [datum?_of_ne habsent, datum?_of_ne habsent', Option.some.injEq, Datum.node.injEq] at h
      obtain ⟨hrules, hparts⟩ := h
      obtain ⟨rule, hrule⟩ := SExpr.exists_rule hnode habsent
      obtain ⟨rule', hrule'⟩ := SExpr.exists_rule hnode' habsent'
      dsimp only at hrule hrule'
      obtain rfl : kind = kind' := by
        refine NodeKind.rule?_injective kind hnode.known kind' hnode'.known ?_ (by simp [hrule])
        simpa [hrule, hrule'] using hrules
      obtain ⟨hdatum, hdata⟩ := NodeKind.parts_injective hnode.fits hnode'.fits hparts
      dsimp only at hdatum hdata
      obtain rfl : children = children' := by
        refine eq_of_map_datum? (fun σ hσ τ hτ => ?_) hdata
        exact hchildren σ hσ (hbelow σ (mem_subnodes.2 (.inr hσ)))
          (hbelow' τ (mem_subnodes.2 (.inr hτ)))
      obtain rfl : value = value' := by
        cases value with
        | none => cases value' <;> first | rfl | cases hcontent.trans hcontent'.symm
        | text s =>
            obtain ⟨s', rfl⟩ := Value.exists_text (hcontent'.trans hcontent.symm)
            rw [textDatum_injective kind (Option.some.inj hdatum)]
        | node u =>
            obtain ⟨u', rfl⟩ := Value.exists_node (hcontent'.trans hcontent.symm)
            rw [hvalue u rfl (hbelow u (mem_subnodes.2 (.inl rfl)))
              (hbelow' u' (mem_subnodes.2 (.inl rfl))) hdatum]
      rfl

end

end Tree

end Sigil
