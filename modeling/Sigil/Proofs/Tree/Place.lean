import Sigil.Proofs.Cursor.Place
import Sigil.Proofs.Parser.Layout
import Sigil.Proofs.Print.Program
import Sigil.Proofs.Tree.Parts

/-!
# Where nodes and failures are placed

Every place that a parser gives out is the place of a token. A node starts with a token of its
phrase: with the first one if it is a leaf or has a mark in front, and otherwise where its first
part starts, which parentheses around that part do not move. The mark of a bound that is left out
stands in front of the next token, and a failure at the token that was found. So all lines and
columns are right because those of the tokens are.

## Main results

* `Derives.startsAt`: the nodes of a phrase start with tokens of the phrase or behind it.
* `places_agree`: every cursor, token, failure and node of a text is placed in the text.
-/

namespace Sigil

/-! ### Nodes of phrases -/

/-- The trees of a phrase. -/
def Phrase.trees : Phrase → List Node
  | expression _ t | bound t | item _ t | statement t => [t]
  | bounds a b c => [a, b, c]
  | series _ ts | statements ts => ts

/-- All nodes of the trees start at places with the property. -/
def StartAt (P : Position → Prop) (ts : List Node) : Prop :=
  ∀ t ∈ ts, ∀ u ∈ t.walk, P u.mark.start

section

variable {P : Position → Prop} {t : Node} {ts us : List Node}

theorem startAt_append : StartAt P (ts ++ us) ↔ StartAt P ts ∧ StartAt P us :=
  List.forall_mem_append

theorem StartAt.start (h : StartAt P [t]) : P t.mark.start :=
  h t (by simp) t (Tree.mem_walk.2 (.inl rfl))

/-- The nodes of a tree start at places with the property if it starts at one, and so do the nodes
of its value and its children. -/
theorem startAt_mk {kind : NodeKind} {value : Value Node} {p : Position} {stop : Int} (hp : P p)
    (hvalue : StartAt P value.nodes) (hchildren : StartAt P ts) :
    StartAt P [⟨kind, value, ts, ⟨p, stop⟩⟩] :=
  List.forall_mem_singleton.2
    (Tree.forall_mem_walk.2 ⟨hp, Tree.forall_mem_subnodes.2 ⟨hvalue, hchildren⟩⟩)

end

/-- The nodes of a phrase start with tokens of the phrase or with the one behind it. -/
theorem Derives.startsAt {P : Position → Prop} {r : Room} {w : List Token} {next : Token}
    {phrase : Phrase} (h : Derives r w next phrase) (hw : ∀ o ∈ w, P o.position)
    (hnext : P next.position) : StartAt P phrase.trees := by
  have hnil : StartAt P [] := nofun
  have htext (s : String) : StartAt P (Value.text s : Value Node).nodes := nofun
  have habsent {p : Position} (hp : P p) : StartAt P [⟨.absent, .none, [], ⟨p, p.offset⟩⟩] :=
    startAt_mk hp hnil hnil
  induction h with
  | looser _ _ ih => exact ih hw hnext
  | literal => exact startAt_mk (hw _ (by simp)) (htext _) hnil
  | group _ _ _ ih =>
      obtain ⟨-, hw, hc⟩ := by simpa [or_imp, forall_and] using hw
      exact ih hw hc
  | array _ _ _ _ ih | map _ _ _ _ ih =>
      obtain ⟨ho, hw, hc⟩ := by simpa [or_imp, forall_and] using hw
      exact startAt_mk ho hnil (ih hw hc)
  | call _ _ _ _ ihf ih =>
      obtain ⟨hv, ho, hw, hc⟩ := by simpa [or_imp, forall_and] using hw
      have hcallee := ihf hv ho
      exact startAt_mk hcallee.start hcallee (ih hw hc)
  | index _ _ _ _ _ iht ih | slice _ _ _ _ _ iht ih =>
      obtain ⟨hv, ho, hw, hc⟩ := by simpa [or_imp, forall_and] using hw
      have hobject := iht hv ho
      exact startAt_mk hobject.start hnil (startAt_append.2 ⟨hobject, ih hw hc⟩)
  | member _ _ _ iht =>
      obtain ⟨hv, ho, -⟩ := by simpa [or_imp, forall_and] using hw
      have hobject := iht hv ho
      exact startAt_mk hobject.start (htext _) hobject
  | prefixed _ _ ih =>
      obtain ⟨ho, hw⟩ := by simpa [or_imp, forall_and] using hw
      exact startAt_mk ho (htext _) (ih hw hnext)
  | iteration _ _ _ _ iha ihb =>
      obtain ⟨ho, hv, hm, hw⟩ := by simpa [or_imp, forall_and] using hw
      exact startAt_mk ho hnil (startAt_append.2 ⟨iha hv hm, ihb hw hnext⟩)
  | operation _ _ _ iha ihb =>
      obtain ⟨hv, ho, hw⟩ := by simpa [or_imp, forall_and] using hw
      have hleft := iha hv ho
      exact startAt_mk hleft.start (htext _) (startAt_append.2 ⟨hleft, ihb hw hnext⟩)
  | conditional _ _ _ _ _ iha ihb ihc =>
      obtain ⟨hu, ho, hv, hm, hw⟩ := by simpa [or_imp, forall_and] using hw
      have hcondition := iha hu ho
      exact startAt_mk hcondition.start hnil
        (startAt_append.2 ⟨hcondition, startAt_append.2 ⟨ihb hv hm, ihc hw hnext⟩⟩)
  | leftOut => exact habsent hnext
  | bound _ ih => exact ih hw hnext
  | twoBounds _ _ _ iha ihb =>
      obtain ⟨hv, ho, hw⟩ := by simpa [or_imp, forall_and] using hw
      exact startAt_append.2 ⟨iha hv ho, startAt_append.2 ⟨ihb hw hnext, habsent hnext⟩⟩
  | threeBounds _ _ _ _ _ iha ihb ihc =>
      obtain ⟨hu, ho, hv, hm, hw⟩ := by simpa [or_imp, forall_and] using hw
      exact startAt_append.2 ⟨iha hu ho, startAt_append.2 ⟨ihb hv hm, ihc hw hnext⟩⟩
  | outerBounds _ _ _ iha ihc =>
      obtain ⟨hv, ho, hw⟩ := by simpa [or_imp, forall_and] using hw
      exact startAt_append.2 ⟨iha hv ho, startAt_append.2 ⟨habsent ho, ihc hw hnext⟩⟩
  | item _ _ ih => exact ih hw hnext
  | entry _ _ _ ih =>
      obtain ⟨hkey, -, hw⟩ := by simpa [or_imp, forall_and] using hw
      exact startAt_mk hkey (ih hw hnext) (startAt_mk hkey (htext _) hnil)
  | noItem | noStatement => exact hnil
  | lastItem _ ih => exact ih hw hnext
  | moreItems _ _ _ _ ih ihs =>
      obtain ⟨hv, ho, hw⟩ := by simpa [or_imp, forall_and] using hw
      exact startAt_append.2 ⟨ih hv ho, ihs hw hnext⟩
  | block _ _ _ _ ih =>
      obtain ⟨ho, hw, hc⟩ := by simpa [or_imp, forall_and] using hw
      exact startAt_mk ho hnil (ih hw hc)
  | dataflow _ _ _ ih =>
      obtain ⟨hv, ho, hname⟩ := by simpa [or_imp, forall_and] using hw
      have hdefined := ih hv ho
      exact startAt_mk hdefined.start hdefined (startAt_mk hname (htext _) hnil)
  | bare _ _ ih => exact ih hw hnext
  | @moreStatements r v w next t ts _ _ ih ihs =>
      obtain ⟨hv, hw⟩ := List.forall_mem_append.1 hw
      have hbehind : P (w.headD next).position := by
        cases w with
        | nil => exact hnext
        | cons o w => exact hw o (by simp)
      exact startAt_append.2 ⟨ih hv hbehind, ihs hw hnext⟩

/-! ### Texts -/

/-- The token at which parsing a text fails is one of its tokens. -/
theorem found_mem_of_parseText {room : Nat} {text : String} {e : ParseError}
    (h : parseText room text = .error (.grammatical e)) :
    e.found ∈ (TokenStream.ofText text).tokens := by
  obtain ⟨w, ⟨hfinds, s, s', -, hreads, -⟩⟩ := exists_failsBehind_of_parse h
  rcases hfinds with ⟨ts, htokens⟩ | ⟨hstream, -⟩
  · simp [htokens]
  -- A text that is cut up to its end has an end of input of its own, which is never consumed.
  · obtain ⟨pieces, gap, rest, hcut⟩ := exists_isCut text
    obtain rfl := hcut.rest_eq_nil (by rw [hstream])
    rw [hcut.ofText_of_end] at hstream
    obtain ⟨rfl, -⟩ := TokenStream.mk.inj hstream
    exact absurd rfl (hreads.kind_ne _ (List.mem_append_right _ (List.mem_singleton_self _)))

/-- The nodes of a program start with tokens of the text or at its start. -/
theorem isPlaceOf_of_mem_walk {room : Nat} {text : String} {p u : Node}
    (h : parseText room text = .ok p) (hu : u ∈ p.walk) : u.mark.start.IsPlaceOf text.toList := by
  obtain ⟨pieces, gap, hcut, statements, hd, rfl⟩ := isCut_of_parseText h
  have htokens : ∀ t ∈ pieces.map Piece.token ++ [⟨.endOfInput, "", placeBehind pieces gap⟩],
      t.position.IsPlaceOf text.toList := fun t ht =>
    TokenStream.isPlaceOf_of_mem (by rwa [hcut.ofText_of_end])
  have hstatements := hd.startsAt (P := fun q => q.IsPlaceOf text.toList)
    (fun o ho => htokens o (List.mem_append_left _ ho))
    (htokens _ (List.mem_append_right _ (List.mem_singleton_self _)))
  have hnil : StartAt (fun q => q.IsPlaceOf text.toList) [] := fun t ht => by cases ht
  have hprogram : StartAt (fun q => q.IsPlaceOf text.toList)
      [⟨.program, .none, statements, ⟨.start, (placeBehind pieces gap).offset⟩⟩] :=
    startAt_mk (Position.start_isPlaceOf text.toList) hnil hstatements
  exact hprogram _ (List.mem_singleton_self _) u hu

/-- All places have the lines and columns of their offsets. This holds for a cursor that started in
front of the text, however it was moved, and for the tokens and the faults that it finds; for the
tokens of the text and the fault that ends them; for the token or the fault that parsing the text
reports; and for the starts of all nodes of the program. -/
theorem places_agree (text : String) :
    (∀ moves, ((Cursor.ofText text).run moves).IsIn text.toList ∧
      ∀ move : Cursor.Move, Cursor.EndsIn text.toList
        (fun read => ∀ t, read = some t → t.position.IsPlaceOf text.toList)
        (move.step ((Cursor.ofText text).run moves))) ∧
    (∀ t ∈ (TokenStream.ofText text).tokens, t.position.IsPlaceOf text.toList) ∧
    (∀ e, (TokenStream.ofText text).failure = some e → e.position.IsPlaceOf text.toList) ∧
    ∀ room,
      (∀ e, parseText room text = .error (.lexical e) → e.position.IsPlaceOf text.toList) ∧
      (∀ e, parseText room text = .error (.grammatical e) →
        e.found.position.IsPlaceOf text.toList) ∧
      ∀ p, parseText room text = .ok p → ∀ u ∈ p.walk, u.mark.start.IsPlaceOf text.toList := by
  refine ⟨fun moves => ?_, fun t => TokenStream.isPlaceOf_of_mem,
    fun e => TokenStream.isPlaceOf_of_failure, fun room => ⟨fun e h => ?_, fun e h => ?_,
    fun p h u => isPlaceOf_of_mem_walk h⟩⟩
  · have hrun := Cursor.run_isIn moves (Cursor.ofText_isIn text)
    exact ⟨hrun, fun move => move.endsIn hrun⟩
  · exact TokenStream.isPlaceOf_of_failure (failure_of_parse h)
  · exact TokenStream.isPlaceOf_of_mem (found_mem_of_parseText h)

end Sigil
