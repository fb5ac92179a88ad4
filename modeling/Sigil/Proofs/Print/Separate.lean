import Mathlib.Data.List.Forall2
import Sigil.Proofs.Grammar.Language
import Sigil.Proofs.Print.Program
import Sigil.Proofs.Print.WellFormed

/-!
# Statements that run together

Nothing but the end of a line stands between the statements of a printed program, and this counts as
a blank. So a bare expression takes the next statement for its own continuation if that starts with
an opening parenthesis or a minus sign. No parsed program has such statements one behind the other,
but one that is made by hand may have them. It is printed like any other, and the printed text is a
program, but each of these places costs its list one statement.

## Main definitions

* `WellFormedProgram`: the shapes of well-formed programs.
* `Source.joints`: the places of a list where two statements run together.
* `ComesBack`: the statements that are read from the text of some statements.

## Main results

* `Returned.cons`: what is read from a statement in front of others.
* `Source.program_separated`: the programs that come back with the shape they were printed with.
-/

namespace Sigil

/-! ### Programs made by hand -/

/-- A shape is a well-formed statement. -/
inductive WellFormedStatement : Shape → Prop
  | block {σs : List Shape} (h : ∀ σ ∈ σs, WellFormedStatement σ) :
      WellFormedStatement ⟨.block, .none, σs, ()⟩
  | dataflow {σ : Shape} {cs : List Char} (h : WellFormed .expression σ)
      (hname : IsLexeme .identifier cs) :
      WellFormedStatement
        ⟨.dataflow, .node σ, [⟨.identifier, .text (String.ofList cs), [], ()⟩], ()⟩
  | bare {σ : Shape} (h : WellFormed .expression σ) : WellFormedStatement σ

/-- The shape is a list of well-formed statements. -/
def WellFormedProgram (σ : Shape) : Prop :=
  ∃ σs, σ = ⟨.program, .none, σs, ()⟩ ∧ ∀ τ ∈ σs, WellFormedStatement τ

namespace Tree

variable {α : Type}

mutual

/-- The statement lists of a program or a statement: its own one, and those of the blocks in it. -/
def statementLists : Tree α → List (List (Tree α))
  | ⟨kind, _, children, _⟩ =>
    if kind = .program ∨ kind = .block then children :: statementListsAll children else []
termination_by structural t => t

/-- The statement lists of the blocks among some statements. -/
def statementListsAll : List (Tree α) → List (List (Tree α))
  | [] => []
  | t :: ts => statementLists t ++ statementListsAll ts
termination_by structural ts => ts

end

end Tree

namespace Source

/-- The text of a statement starts with an opening parenthesis or a minus sign. -/
def opensAsOperator (width : Int) (t : Node) : Bool :=
  match program width ⟨.program, .none, [t], t.mark⟩ with
  | .ok text => text.toList.head? = some '(' || text.toList.head? = some '-'
  | .error _ => false

/-- A bare expression runs together with the statement behind it. -/
def joins (width : Int) (t u : Node) : Bool :=
  t.kind ≠ .block && t.kind ≠ .dataflow && opensAsOperator width u

/-- The number of places in a list where two statements run together. -/
def joints (width : Int) : List Node → Nat
  | t :: u :: ts => (joins width t u).toNat + joints width (u :: ts)
  | _ => 0

end Source

open Source

/-! ### What comes back -/

/-- The statements that are read from the text of some statements. Every statement comes back with
its shape, and a block comes back with what comes back of its own statements. But two statements
that run together come back as a single one, which may run together with the one in front in turn.
None of the statements that run together is a block. -/
inductive ComesBack (width : Int) : List Node → List Node → Prop
  | nil : ComesBack width [] []
  | block {ts us ts' us' : List Node} {mark mark' : Extent} (h : ComesBack width ts us)
      (hs : ComesBack width ts' us') :
      ComesBack width (⟨.block, .none, ts, mark⟩ :: ts') (⟨.block, .none, us, mark'⟩ :: us')
  | line {t u : Node} {ts us : List Node} (hshape : u.shape = t.shape) (hline : t.kind.IsLine)
      (hfree : ∀ v, ts.head? = some v → joins width t v = false) (hs : ComesBack width ts us) :
      ComesBack width (t :: ts) (u :: us)
  | joined {t v u u' : Node} {ts us : List Node} (hjoins : joins width t v = true)
      (ht : t.kind.IsLine) (hu : u.kind.IsLine) (hu' : u'.kind.IsLine)
      (hs : ComesBack width (v :: ts) (u :: us)) : ComesBack width (t :: v :: ts) (u' :: us)

section

variable {width : Int} {t u : Node} {ts us : List Node}

/-- Where there are no statements none are joined. -/
@[simp] theorem joints_nil : joints width [] = 0 := rfl

/-- The first statement may be joined with the second one. -/
@[simp] theorem joints_cons_cons :
    joints width (t :: u :: ts) = (joins width t u).toNat + joints width (u :: ts) := rfl

/-- Where the first statement does not run together with the next one, it makes no difference. -/
theorem joints_cons (h : ∀ u, ts.head? = some u → joins width t u = false) :
    joints width (t :: ts) = joints width ts := by
  cases ts with
  | nil => rfl
  | cons u ts => rw [joints_cons_cons, h u rfl, Bool.toNat_false, Nat.zero_add]

/-- What is written on one line holds no other statements. -/
theorem statementListsAll_cons (h : t.kind.IsLine) :
    Tree.statementListsAll (t :: ts) = Tree.statementListsAll ts := by
  obtain ⟨kind, value, children, mark⟩ := t
  have hkind : ¬ (kind = .program ∨ kind = .block) := by
    rintro (rfl | rfl) <;> rcases h with h | h <;> cases h
  rw [Tree.statementListsAll, Tree.statementLists, if_neg hkind, List.nil_append]

/-- Nothing joins a block. -/
theorem not_joins_of_block {mark : Extent} : joins width ⟨.block, .none, us, mark⟩ t = false := rfl

namespace ComesBack

/-- Each place where two statements run together costs one statement. -/
theorem length_add_joints (h : ComesBack width ts us) :
    us.length + joints width ts = ts.length := by
  induction h with
  | nil => rfl
  | block _ _ _ ih =>
      rw [joints_cons fun _ _ => not_joins_of_block, List.length_cons, List.length_cons, ← ih]
      omega
  | line _ _ hfree _ ih =>
      rw [joints_cons hfree, List.length_cons, List.length_cons, ← ih]
      omega
  | joined hjoins _ _ _ _ ih =>
      rw [joints_cons_cons, hjoins, List.length_cons, List.length_cons, ← ih, List.length_cons]
      simp only [Bool.toNat_true]
      omega

/-- The lists of the blocks come back one by one. -/
theorem lists (h : ComesBack width ts us) :
    List.Forall₂ (fun ts us => us.length + joints width ts = ts.length)
      (Tree.statementListsAll ts) (Tree.statementListsAll us) := by
  induction h with
  | nil => exact .nil
  | block h _ ih ihs => exact .cons h.length_add_joints (List.rel_append ih ihs)
  | @line t u ts us hshape hline _ _ ih =>
      have hline' : u.kind.IsLine := by rwa [← Tree.kind_shape, hshape, Tree.kind_shape]
      rw [statementListsAll_cons hline, statementListsAll_cons hline']
      exact ih
  | joined _ ht hu hu' _ ih =>
      rw [statementListsAll_cons hu] at ih
      rw [statementListsAll_cons ht, statementListsAll_cons hu']
      exact ih

/-- The statements come back with their shapes if nowhere two of them run together, and only
then. -/
theorem shapes_eq_iff (h : ComesBack width ts us) :
    us.map Tree.shape = ts.map Tree.shape ↔
      ∀ list ∈ ts :: Tree.statementListsAll ts, joints width list = 0 := by
  induction h with
  | nil => simp [Tree.statementListsAll]
  | @block ts us ts' us' mark mark' _ _ ih ihs =>
      have hlists : Tree.statementListsAll (⟨.block, .none, ts, mark⟩ :: ts') =
          (ts :: Tree.statementListsAll ts) ++ Tree.statementListsAll ts' := rfl
      rw [hlists, List.forall_mem_cons, List.forall_mem_append, ← ih,
        joints_cons fun _ _ => not_joins_of_block, and_left_comm,
        ← List.forall_mem_cons (p := fun list => joints width list = 0), ← ihs]
      simp
  | line hshape hline hfree _ ih =>
      rw [statementListsAll_cons hline, List.forall_mem_cons, joints_cons hfree,
        ← List.forall_mem_cons (p := fun list => joints width list = 0), ← ih]
      simp [hshape]
  | joined hjoins _ _ _ hs _ =>
      have hlength := hs.length_add_joints
      constructor
      · intro hall
        have hsame := congrArg List.length hall
        simp only [List.length_map, List.length_cons] at hlength hsame
        omega
      · intro hall
        have hnone := hall _ (List.mem_cons_self ..)
        rw [joints_cons_cons, hjoins, Bool.toNat_true] at hnone
        omega

end ComesBack

end

/-! ### Statements in front of others -/

/-- The first token of a statement stands behind every statement exactly if the text of the
statement does not start as an operator. -/
def StartsAs (width : Int) (t : Node) (w : List Token) : Prop :=
  ∃ o r, w = o :: r ∧ (o.kind.EndsStatement ↔ opensAsOperator width t = false)

/-- What is read from the tokens of a statement: an expression, which what follows may carry on, or
a statement in front of whatever follows. -/
inductive ReturnsAs (width : Int) (t : Node) (w : List Token) : Prop
  | bare {n : Nat} {u : Node} (hlevel : t.kind.level?.isSome) (hshape : u.shape = t.shape)
      (h : ∀ next, Derives (.plain n) w next (.expression Level.conditional u))
  | whole {n : Nat} {u : Node} (h : ∀ next, Derives (.plain n) w next (.statement u))
      (hback : ∀ ts us, ComesBack width ts us → ComesBack width (t :: ts) (u :: us))

/-- What is read from the tokens of some statements comes back from them. -/
structure Returned (width : Int) (ts : List Node) (w : List Token) : Prop where
  eq_nil : ts = [] → w = []
  startsAs : ∀ t, ts.head? = some t → StartsAs width t w
  comesBack : ∃ n us,
    (∀ next, next.kind.EndsStatement → Derives (.plain n) w next (.statements us)) ∧
      ComesBack width ts us

section

variable {width : Int} {t : Node} {ts : List Node} {v w : List Token}

/-- Nothing is read back as nothing. -/
theorem Returned.nil : Returned width [] [] :=
  ⟨fun _ => rfl, by simp, 0, [], fun _ _ => .noStatement, .nil⟩

/-- What follows makes no difference to the start. -/
theorem StartsAs.append (h : StartsAs width t v) : StartsAs width t (v ++ w) := by
  obtain ⟨o, r, rfl, ho⟩ := h
  exact ⟨o, r ++ w, rfl, ho⟩

/-- A bare expression in front of other statements runs together with the first of them if that
starts as an operator. -/
theorem Returned.bare {n : Nat} {u : Node} (hlevel : t.kind.level?.isSome)
    (hshape : u.shape = t.shape)
    (h : ∀ next, Derives (.plain n) v next (.expression Level.conditional u))
    (hs : Returned width ts w) :
    ∃ n us, (∀ next, next.kind.EndsStatement → Derives (.plain n) (v ++ w) next (.statements us)) ∧
      ComesBack width (t :: ts) us := by
  have hbare : IsBare t.shape := isBare_of_level? (by rwa [Tree.kind_shape])
  obtain ⟨hnil, hstart, m, us, hd, hback⟩ := hs
  -- In front of a token that stands behind every statement the expression is a statement.
  have hfree (hfirst : ∀ next, next.kind.EndsStatement → (w.headD next).kind.EndsStatement)
      (hjoins : ∀ v, ts.head? = some v → joins width t v = false) :
      ∃ n us,
        (∀ next, next.kind.EndsStatement → Derives (.plain n) (v ++ w) next (.statements us)) ∧
        ComesBack width (t :: ts) us :=
    ⟨n + m, u :: us, fun next hnext => .moreStatements
      (.bare ((h _).mono_plain (Nat.le_add_right n m)) (hfirst next hnext))
      ((hd next hnext).mono_plain (Nat.le_add_left m n)), .line hshape (.inr hlevel) hjoins hback⟩
  cases ts with
  | nil =>
      obtain rfl := hnil rfl
      exact hfree (fun next hnext => hnext) fun _ hv => nomatch hv
  | cons t' ts =>
      obtain ⟨o, r, rfl, ho⟩ := hstart t' rfl
      cases hopens : opensAsOperator width t' with
      | false =>
          refine hfree (fun _ _ => ho.2 hopens) fun v hv => ?_
          obtain rfl := Option.some.inj hv
          simp [joins, hopens]
      | true =>
          have hend : (Token.endAt .start).kind.EndsStatement := endsStatement_of_endOfInput rfl
          have hnot : ¬ o.kind.EndsStatement := fun hends => by simp [ho.1 hends] at hopens
          obtain ⟨u', us, k, u'', rfl, hu', hu'', hall⟩ :=
            (hd (.endAt .start) hend).joined_statements (.of_derives (h o)) hnot
          rw [IsBare, Tree.kind_shape] at hbare
          have hjoins : joins width t t' = true := by simp [joins, hopens, hbare.1, hbare.2]
          exact ⟨k, u'' :: us, hall.standsAnywhere,
            .joined hjoins (.inr hlevel) hu' hu'' hback⟩

/-- A statement in front of others. -/
theorem Returned.cons (hstart : StartsAs width t v) (h : ReturnsAs width t v)
    (hs : Returned width ts w) : Returned width (t :: ts) (v ++ w) := by
  refine ⟨by simp, fun u hu => ?_, ?_⟩
  · obtain rfl := Option.some.inj hu
    exact hstart.append
  · cases h with
    | bare hlevel hshape h => exact hs.bare hlevel hshape h
    | @whole n u h hback =>
        obtain ⟨-, -, m, us, hd, hcomes⟩ := hs
        exact ⟨n + m, u :: us, fun next hnext => .moreStatements
          ((h _).mono_plain (Nat.le_add_right n m))
          ((hd next hnext).mono_plain (Nat.le_add_left m n)),
          hback ts us hcomes⟩

end

/-! ### Printed statements -/

/-- The statement is printed as lines, at every depth, and returns from them. -/
def LaidOut (width : Int) (t : Node) : Prop :=
  ∀ depth, ∃ ls, ls ≠ [] ∧ Lays width depth t ls ∧
    Yields (fun w => StartsAs width t w ∧ ReturnsAs width t w) (Text.joined "\n" ls).toList

/-- The statements are printed one after the other, and what is read from them comes back. -/
def LaidOutAll (width : Int) (ts : List Node) : Prop :=
  ∀ depth, ∃ ls, (ls = [] ↔ ts = []) ∧ LaysAll width depth ts ls ∧
    Yields (Returned width ts) (Text.joined "\n" ls).toList

section

variable {width : Int} {t : Node} {ts : List Node} {mark : Extent} {ls : List String} {σ : Shape}

/-- A statement starts as an operator if its text, where no block is open, does not start clear. -/
theorem opensAsOperator_of_lays (h : Lays width 0 t ls) :
    opensAsOperator width t = false ↔ StartsClear (Text.joined "\n" ls).toList := by
  have hprint : program width ⟨.program, .none, [t], t.mark⟩ = .ok (Text.joined "\n" ls) := by
    have hall := (LaysAll.cons h LaysAll.nil) []
    simp only [List.nil_append, List.append_nil] at hall
    rw [program, Sheet.empty, hall]
    rfl
  simp only [opensAsOperator, hprint, StartsClear]
  cases (Text.joined "\n" ls).toList.head? <;> simp

/-- Tokens start as the lines do that they are cut from. -/
theorem StartsAlike.startsAs {w : List Token}
    (h : StartsAlike (Text.joined "\n" ls).toList w) (hlays : Lays width 0 t ls) :
    StartsAs width t w := by
  obtain ⟨o, r, rfl, ho⟩ := h
  exact ⟨o, r, rfl, ho.trans (opensAsOperator_of_lays hlays).symm⟩

/-- A statement that is printed on one line. -/
theorem LaidOut.line {text : String}
    (hlays : ∀ depth, Lays width depth t [indented width depth text])
    (h : Yields (fun w => StartsAlike text.toList w ∧ ReturnsAs width t w) text.toList) :
    LaidOut width t := by
  intro depth
  have hzero := hlays 0
  rw [indented_zero] at hzero
  have hstart (w : List Token) (hw : StartsAlike (Text.joined "\n" [text]).toList w) :
      StartsAs width t w := hw.startsAs hzero
  refine ⟨_, by simp, hlays depth, (h.mono fun w hw => ?_).indented ?_⟩
  · exact ⟨hstart w hw.1, hw.2⟩
  · rintro w ⟨⟨o, r, rfl, -⟩, -⟩
    simp

/-- An expression takes one line. -/
theorem LaidOut.bare (h : WellFormed .expression t.shape) : LaidOut width t := by
  obtain ⟨n, hfits⟩ := h.isPrinted.fits Level.conditional (by decide)
  obtain ⟨hlevel, text, hprint, -, hwritten⟩ := hfits _ (Room.le_refl _)
  refine .line (fun depth => .bare (isBare_of_level? hlevel) (hprint t rfl))
    (hwritten.yields.mono ?_)
  rintro w ⟨hstart, u, hshape, hd⟩
  exact ⟨hstart, .bare (by rwa [← Tree.kind_shape]) hshape hd⟩

/-- So does a definition. -/
theorem LaidOut.dataflow {name : Node} {cs : List Char} (h : WellFormed .expression t.shape)
    (hcs : IsLexeme .identifier cs)
    (hname : name.shape = ⟨.identifier, .text (String.ofList cs), [], ()⟩) :
    LaidOut width ⟨.dataflow, .node t, [name], mark⟩ := by
  obtain ⟨n, hfits⟩ := h.isPrinted.fits Level.conditional (by decide)
  obtain ⟨-, text, hprint, -, hwritten⟩ := hfits _ (Room.le_refl _)
  have hne := ne_nil_of_written hwritten
  refine .line (fun depth => .dataflow (hprint t rfl) name) ?_
  obtain ⟨us, mark', rfl, -⟩ := Tree.of_shape_text hname
  have hchars : (text ++ " => " ++ String.ofList cs).toList =
      text.toList ++ ' ' :: '=' :: '>' :: ' ' :: cs := by
    simp [String.toList_append]
  rw [Value.shown, hchars]
  refine (hwritten.yields.flow hcs).mono ?_
  rintro w ⟨ws, o, last, rfl, ho, ⟨hkind, htext⟩, hstart, u, hshape, hd⟩
  refine ⟨hstart.append hne, .whole (fun next => .dataflow (hd o) ho.1 hkind) fun ts us hback =>
    .line ?_ (.inl rfl) (fun v _ => rfl) hback⟩
  rw [Tree.shape_node, Tree.shape_node, hshape, List.map_singleton, Tree.shape_text, htext,
    List.map_singleton, hname]
  rfl

/-- A block starts with a brace. -/
theorem startsClear_blockLines : StartsClear (Text.joined "\n" (blockLines width 0 ls)).toList := by
  rw [blockLines]
  split
  · rw [indented_zero]
    exact startsClear_cons (by decide)
  · rw [joined_cons (by simp), indented_zero]
    exact startsClear_cons (by decide)

/-- A block takes the lines of its statements and of its braces. -/
theorem LaidOut.block (h : LaidOutAll width ts) : LaidOut width ⟨.block, .none, ts, mark⟩ := by
  have hlays (depth : Nat) : ∃ ls, Lays width depth ⟨.block, .none, ts, mark⟩
      (blockLines width depth ls) ∧ Yields (Returned width ts) (Text.joined "\n" ls).toList := by
    obtain ⟨ls, hnil, hlays, hyields⟩ := h (depth + 1)
    exact ⟨ls, .block hlays hnil, hyields⟩
  intro depth
  obtain ⟨ls, hls, hyields⟩ := hlays depth
  obtain ⟨ls', hls', -⟩ := hlays 0
  refine ⟨_, blockLines_ne_nil, hls, hyields.blockLines.mono ?_⟩
  rintro w ⟨o, ws, c, rfl, ho, hc, hreturned⟩
  obtain ⟨n, us, hd, hback⟩ := hreturned.comesBack
  have hclose := hd c (endsStatement_brace (.inr hc.1))
  -- The routines for the block and for a statement in it take a frame each.
  have hblock (next : Token) :
      Derives (.plain (n + 2)) (o :: (ws ++ [c])) next (.statement ⟨.block, .none, us, _⟩) :=
    .block (Nat.succ_pos _) ho.1 hclose hc.1
  refine ⟨⟨o, _, rfl, ?_⟩, .whole hblock fun _ _ => .block hback⟩
  exact iff_of_true (endsStatement_brace (.inl ho.1))
    ((opensAsOperator_of_lays hls').2 startsClear_blockLines)

/-- No statements take no lines. -/
theorem LaidOutAll.nil : LaidOutAll width [] :=
  fun _ => ⟨[], by simp, .nil, .nil .nil⟩

/-- A statement in front of others. -/
theorem LaidOutAll.cons (h : LaidOut width t) (hs : LaidOutAll width ts) :
    LaidOutAll width (t :: ts) := by
  intro depth
  obtain ⟨ls, hne, hlays, hyields⟩ := h depth
  obtain ⟨ls', hnil, hlays', hyields'⟩ := hs depth
  refine ⟨ls ++ ls', by simp [hne], LaysAll.cons hlays hlays', ?_⟩
  refine (hyields.lines hyields' hne (fun hls' => ?_) fun hls' w hw => ?_).mono ?_
  · rw [hnil.1 hls']
    exact .nil
  · obtain ⟨u, us, rfl⟩ := List.exists_cons_of_ne_nil fun heq => hls' (hnil.2 heq)
    obtain ⟨o, r, rfl, -⟩ := hw.startsAs u rfl
    simp
  · rintro w ⟨v, w', rfl, hv, hw⟩
    exact hw.cons hv.1 hv.2

/-- Statements are laid out if each of them is. -/
theorem LaidOutAll.of_forall (h : ∀ t ∈ ts, LaidOut width t) : LaidOutAll width ts := by
  induction ts with
  | nil => exact .nil
  | cons t ts ih =>
      obtain ⟨ht, hts⟩ := List.forall_mem_cons.1 h
      exact .cons ht (ih hts)

/-- Well-formed statements are printed, and return from what is printed. -/
theorem WellFormedStatement.laidOut (h : WellFormedStatement σ) :
    ∀ t : Node, t.shape = σ → LaidOut width t := by
  induction h with
  | block _ ih =>
      intro t ht
      obtain ⟨ts, mark, rfl, rfl⟩ := Tree.of_shape_none ht
      exact .block (.of_forall fun t ht => ih _ (List.mem_map_of_mem ht) t rfl)
  | dataflow h hname =>
      intro t ht
      obtain ⟨u, ts, mark, rfl, rfl, hts⟩ := Tree.of_shape_node ht
      obtain ⟨name, rfl, hshape⟩ := Tree.of_shapes_one hts
      exact .dataflow h hname hshape
  | bare h =>
      rintro t rfl
      exact .bare h

end

/-- A well-formed program is printed, and the printed text is a program, unless it is nested too
deeply. Its shape is the one that was printed if nowhere a bare expression stands in front of a
statement that starts as an operator, and only then. Each of these places costs the list that it is
in one statement. -/
theorem Source.program_separated (p : Node) (h : WellFormedProgram p.shape) (width : Int) :
    ∃ text ts e q, Source.program width p = .ok text ∧
      TokenStream.ofText text = ⟨ts ++ [e], none⟩ ∧ e.kind = .endOfInput ∧ Grammatical ts e q ∧
      (∀ room, parseText room text = .ok q ∨
        ∃ t, parseText room text = .error (.grammatical ⟨.nestedTooDeeply, t⟩)) ∧
      (q.shape = p.shape ↔ ∀ list ∈ p.statementLists, joints width list = 0) ∧
      List.Forall₂ (fun list back => back.length + joints width list = list.length)
        p.statementLists q.statementLists := by
  obtain ⟨σs, hσ, hall⟩ := h
  obtain ⟨list, mark, rfl, rfl⟩ := Tree.of_shape_none hσ
  have hlaid : LaidOutAll width list :=
    .of_forall fun t ht => (hall _ (List.mem_map_of_mem ht)).laidOut t rfl
  obtain ⟨ls, hnil, hlays, hyields⟩ := hlaid 0
  obtain ⟨ts, hts, hreturned⟩ := hyields .start [] endsWord_nil
  obtain ⟨e, he, htext⟩ := hts.ofText_eq
  obtain ⟨n, us, hd, hback⟩ := hreturned.comesBack
  have hgrammatical : Grammatical ts e ⟨.program, .none, us, ⟨.start, e.position.offset⟩⟩ :=
    ⟨n + 1, us, hd e (endsStatement_of_endOfInput he), rfl⟩
  refine ⟨Text.joined "\n" ls, ts, e, _, ?_, htext, he, hgrammatical, ?_, ?_, ?_⟩
  · rw [Source.program, Sheet.empty, hlays []]
    rfl
  · intro room
    rw [parseText, htext]
    exact parse_of_grammatical room hts.kind_ne he hgrammatical
  · rw [Tree.shape_none, Tree.shape_none]
    refine Iff.trans ⟨fun heq => ?_, fun heq => ?_⟩ hback.shapes_eq_iff
    · injection heq
    · rw [heq]
  · exact .cons hback.length_add_joints hback.lists

/-- The statements `a` and `-b` of a block run together: they come back as the single statement
`a - b`, so the shape is another one. -/
theorem Source.program_separated_difference :
    ∃ p q : Node, WellFormedProgram p.shape ∧
      Source.program 4 p = .ok "\x7b\n    a\n    -b\n\x7d" ∧
      (∃ ts e, TokenStream.ofText "\x7b\n    a\n    -b\n\x7d" = ⟨ts ++ [e], none⟩ ∧
        Grammatical ts e q) ∧
      ¬ q.shape = p.shape := by
  have ha : IsLexeme .identifier ['a'] := .letter (by decide)
  have hb : IsLexeme .identifier ['b'] := .letter (by decide)
  let a : Node := ⟨.identifier, .text "a", [], default⟩
  let b : Node := ⟨.unary, .text "-", [⟨.identifier, .text "b", [], default⟩], default⟩
  let p : Node := ⟨.program, .none, [⟨.block, .none, [a, b], default⟩], default⟩
  have hwell : WellFormedProgram p.shape := by
    refine ⟨_, rfl, List.forall_mem_singleton.2 (.block ?_)⟩
    exact List.forall_mem_cons.2 ⟨.bare (.word ha rfl (by decide)), List.forall_mem_singleton.2
      (.bare (.prefixed (s := .minus) rfl (.word hb rfl (by decide))))⟩
  have hlist : joints 4 [a, b] = 1 := by rfl
  have hprint : Source.program 4 p = .ok "\x7b\n    a\n    -b\n\x7d" := by rfl
  obtain ⟨text, ts, e, q, htext, hts, -, hq, -, hiff, -⟩ := Source.program_separated p hwell 4
  obtain rfl := Except.ok.inj (htext.symm.trans hprint)
  refine ⟨p, q, hwell, hprint, ⟨ts, e, hts, hq⟩, fun hshape => ?_⟩
  have hnone := hiff.1 hshape [a, b] (.tail _ (.head _))
  rw [hlist] at hnone
  cases hnone

end Sigil
