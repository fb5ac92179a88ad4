import Mathlib.Data.List.Forall2
import Sigil.Proofs.Parser.Rules

/-!
# Two runs on tokens that look alike

A parser decides by the kinds of tokens alone. The texts of tokens get into the tree and into
failures, but no rule looks at them; the places of tokens become places of nodes, and no rule looks
at these either. So runs on two streams of tokens that differ in their places, or in their texts as
well, go the same way. What is looked at of texts is a parameter: the texts as they are, or nothing.

Rules that do alike from states that look alike are put together to such rules, so the property
passes from the routines that are called to the one that calls them.

## Main definitions

* `View`: what is looked at of texts.
* `Token.Alike`, `TokenStream.Alike`, `Tree.Alike`, `ParseFailure.Alike`: what looks alike.
* `Parse.Alike`: two rules do alike from states that look alike.
* `Routine.Alike`: calls of one routine with operands that look alike.

## Main results

* `Parse.Alike.bind`, `Parse.Alike.collect`, `Parse.Alike.iterate`: how rules are put together.
* `Parser.run_alike`: the routines treat alike what looks alike, with any number of frames.
* `Parser.program_uniform`: so does the rule for programs.
-/

namespace Sigil

/-! ### What looks alike -/

/-- A way to look at texts. What it shows of a text determines what it shows of the text between the
quotation marks. -/
structure View where
  seen : String → String
  unquoted : ∀ {s r : String}, seen s = seen r →
    seen (Parser.unquoted s) = seen (Parser.unquoted r)

/-- Texts are looked at as they are. -/
def View.full : View := ⟨id, fun h => congrArg Parser.unquoted h⟩

/-- Texts are not looked at. -/
def View.blank : View := ⟨fun _ => "", fun _ => rfl⟩

/-- Two tokens look alike: they have one kind, and what is seen of their texts is the same. -/
structure Token.Alike (v : View) (t u : Token) : Prop where
  kind : t.kind = u.kind
  text : v.seen t.text = v.seen u.text

/-- Two streams look alike: their tokens do, one by one, and they end with the same fault if they
end with one. -/
structure TokenStream.Alike (v : View) (a b : TokenStream) : Prop where
  tokens : List.Forall₂ (Token.Alike v) a.tokens b.tokens
  failure : a.failure.map LexError.fault = b.failure.map LexError.fault

/-- Streams that look alike go on alike, whatever was taken from them before. -/
theorem TokenStream.Alike.next {v : View} {a b : TokenStream} (h : a.Alike v b)
    (last last' : Option Token) :
    (∃ t u a' b', a.next last = (.ok t, a') ∧ b.next last' = (.ok u, b') ∧ t.Alike v u ∧
        a'.Alike v b') ∨
      ∃ e e' a' b', a.next last = (.error e, a') ∧ b.next last' = (.error e', b') ∧
        e.fault = e'.fault ∧ a'.Alike v b' := by
  obtain ⟨ts, failure⟩ := a
  obtain ⟨us, failure'⟩ := b
  obtain ⟨htokens, hfailure⟩ := h
  cases htokens with
  | cons ht htokens => exact .inl ⟨_, _, _, _, rfl, rfl, ht, htokens, hfailure⟩
  | nil =>
      cases failure with
      | none =>
          cases failure' with
          | some e => cases hfailure
          | none =>
              refine .inl ⟨_, _, _, _, rfl, rfl, ?_, .nil, rfl⟩
              cases last <;> cases last' <;> exact ⟨rfl, rfl⟩
      | some e =>
          cases failure' with
          | none => cases hfailure
          | some e' =>
              exact .inr ⟨e, e', _, _, rfl, rfl, Option.some.inj hfailure, .nil, rfl⟩

/-- Two failures look alike: they have one fault, and the tokens found look alike. -/
inductive ParseFailure.Alike (v : View) : ParseFailure → ParseFailure → Prop
  | lexical {e e' : LexError} (h : e.fault = e'.fault) : Alike v (.lexical e) (.lexical e')
  | grammatical {e e' : ParseError} (hfault : e.fault = e'.fault)
      (hfound : e.found.Alike v e'.found) : Alike v (.grammatical e) (.grammatical e')
  | overflow : Alike v .overflow .overflow

namespace Tree

variable {α : Type}

mutual

/-- The shape of a tree, with what is seen of the texts in it. -/
def viewed (v : View) : Tree α → Shape
  | ⟨kind, value, children, _⟩ =>
    let value := match value with
      | .none => .none
      | .text s => .text (v.seen s)
      | .node t => .node (viewed v t)
    ⟨kind, value, viewedAll v children, ()⟩
termination_by structural t => t

/-- The shapes of the trees of a list, with what is seen of the texts in them. -/
def viewedAll (v : View) : List (Tree α) → List Shape
  | [] => []
  | t :: ts => viewed v t :: viewedAll v ts
termination_by structural ts => ts

end

/-- Two trees look alike: they have one shape, as far as it is seen. -/
def Alike (v : View) (t u : Tree α) : Prop :=
  t.viewed v = u.viewed v

/-- Two values look alike: there are none, or texts or nodes that look alike. -/
inductive ValueAlike (v : View) : Value (Tree α) → Value (Tree α) → Prop
  | none : ValueAlike v .none .none
  | text {s r : String} (h : v.seen s = v.seen r) : ValueAlike v (.text s) (.text r)
  | node {t u : Tree α} (h : t.Alike v u) : ValueAlike v (.node t) (.node u)

variable {v : View}

/-- Lists of trees look alike if their trees do, one by one. -/
theorem viewedAll_eq {ts us : List (Tree α)} (h : List.Forall₂ (Alike v) ts us) :
    viewedAll v ts = viewedAll v us := by
  induction h with
  | nil => rfl
  | cons ht _ ih => rw [viewedAll, viewedAll, ht, ih]

/-- Nodes of one kind look alike if their values and children do, whatever their marks are. -/
theorem Alike.mk {kind : NodeKind} {value value' : Value (Tree α)} {ts us : List (Tree α)}
    {mark mark' : α} (hvalue : ValueAlike v value value') (h : List.Forall₂ (Alike v) ts us) :
    Alike v ⟨kind, value, ts, mark⟩ ⟨kind, value', us, mark'⟩ := by
  have hall := viewedAll_eq h
  cases hvalue with
  | none => simp only [Alike, viewed, hall]
  | text h => simp only [Alike, viewed, hall, h]
  | node h =>
      have hnode : _ = _ := h
      simp only [Alike, viewed, hall, hnode]

end Tree

namespace Parser

/-- Two states look alike: the tokens to look at do, and so do the streams behind them. -/
structure State.Alike (v : View) (s s' : State) : Prop where
  current : s.current.Alike v s'.current
  supply : s.supply.Alike v s'.supply

/-- States that look alike have equally many tokens to go. -/
theorem State.Alike.pending_eq {v : View} {s s' : State} (h : s.Alike v s') :
    s.pending = s'.pending := by
  have hfailure := congrArg Option.isSome h.supply.failure
  simp only [Option.isSome_map] at hfailure
  simp only [State.pending, TokenStream.pending, h.current.kind, h.supply.tokens.length_eq,
    hfailure]

/-- A rule consumes a token from a state if it does from one that looks alike. -/
theorem State.Alike.pending_lt_iff {v : View} {s s' m m' : State} (hs : s.Alike v s')
    (hm : m.Alike v m') : m.pending < s.pending ↔ m'.pending < s'.pending := by
  rw [hs.pending_eq, hm.pending_eq]

end Parser

/-! ### Rules that do alike -/

namespace Parse

open Sigil.Parser

/-- Two runs end alike: both with a result, and `R` relates the results, or both with failures that
look alike. The states behind them look alike as well. -/
inductive EndAlike {α β : Type} (v : View) (R : α → β → Prop) :
    EStateM.Result ParseFailure State α → EStateM.Result ParseFailure State β → Prop
  | ok {a : α} {b : β} {s s' : State} (h : R a b) (hs : s.Alike v s') :
      EndAlike v R (.ok a s) (.ok b s')
  | error {e e' : ParseFailure} {s s' : State} (h : e.Alike v e') (hs : s.Alike v s') :
      EndAlike v R (.error e s) (.error e' s')

/-- From states that look alike the two rules come to ends that are alike. -/
def Alike {α β : Type} (v : View) (R : α → β → Prop) (p : Parse α) (q : Parse β) : Prop :=
  ∀ s s' : State, s.Alike v s' → EndAlike v R (p s) (q s')

variable {α β γ δ : Type} {v : View} {R : α → β → Prop} {T : γ → δ → Prop} {p : Parse α}
  {q : Parse β} {s s' : State}

/-- Results that are related are ends that are alike. -/
theorem Alike.pure {a : α} {b : β} (h : R a b) : Alike v R (Pure.pure a) (Pure.pure b) :=
  fun _ _ hs => .ok h hs

/-- Rules that do alike go on behind runs that end alike. -/
theorem EndAlike.bind {f : α → Parse γ} {g : β → Parse δ} (h : EndAlike v R (p s) (q s'))
    (hf : ∀ a b, R a b → Alike v T (f a) (g b)) : EndAlike v T ((p >>= f) s) ((q >>= g) s') := by
  generalize hp : p s = x, hq : q s' = y at h
  cases h with
  | ok hab hm =>
      rw [bind_of_ok hp, bind_of_ok hq]
      exact hf _ _ hab _ _ hm
  | error he hm =>
      rw [bind_of_error hp, bind_of_error hq]
      exact .error he hm

/-- What is made of related results is related. -/
theorem EndAlike.map {f : α → γ} {g : β → δ} (h : EndAlike v R (p s) (q s'))
    (hf : ∀ a b, R a b → T (f a) (g b)) : EndAlike v T ((f <$> p) s) ((g <$> q) s') := by
  rw [map_eq_pure_bind, map_eq_pure_bind]
  exact h.bind fun a b hab => .pure (hf a b hab)

namespace Alike

/-- Rules that do alike, one after the other. -/
theorem bind {f : α → Parse γ} {g : β → Parse δ} (h : Alike v R p q)
    (hf : ∀ a b, R a b → Alike v T (f a) (g b)) : Alike v T (p >>= f) (q >>= g) :=
  fun s s' hs => (h s s' hs).bind hf

/-- Of two runs that end alike both overflow or none. The overflow is reported at tokens that look
alike. -/
theorem reportingOverflow (h : Alike v R p q) :
    Alike v R (Parse.reportingOverflow p) (Parse.reportingOverflow q) := by
  intro s s' hs
  have hend := h s s' hs
  generalize hp : p s = x, hq : q s' = y at hend
  simp only [Parse.reportingOverflow, hp, hq]
  cases hend with
  | ok hab hm => exact .ok hab hm
  | error he hm =>
      cases he with
      | lexical he => exact .error (.lexical he) hm
      | grammatical hfault hfound => exact .error (.grammatical hfault hfound) hm
      | overflow => exact .error (.grammatical rfl hm.current) hm

/-- What looks alike is `some` of it. -/
theorem some (h : Alike v R p q) : Alike v (Option.Rel R) (some <$> p) (some <$> q) :=
  fun s s' hs => (h s s' hs).map fun _ _ => .some

/-! ### Tokens -/

/-- The tokens to look at look alike. -/
theorem current : Alike v (Token.Alike v) Parse.current Parse.current :=
  fun _ _ hs => .ok hs.current hs

/-- A check gives the same answer on both sides, since the tokens to look at are of one kind. -/
theorem check_bind {kinds : List TokenKind} {f : Bool → Parse γ} {g : Bool → Parse δ}
    (hf : ∀ found, Alike v T (f found) (g found)) :
    Alike v T (Parse.check kinds >>= f) (Parse.check kinds >>= g) := by
  have hcheck : Alike v Eq (Parse.check kinds) (Parse.check kinds) :=
    fun _ _ hs => .ok (by rw [hs.current.kind]) hs
  exact hcheck.bind fun found _ heq => heq ▸ hf found

/-- The same fault is found at tokens that look alike. -/
theorem fail (fault : ParseFault) : Alike v R (Parse.fail fault) (Parse.fail fault) :=
  fun _ _ hs => .error (.grammatical rfl hs.current) hs

/-- The tokens behind look alike or both are lexical errors with one fault. -/
theorem advance : Alike v (Token.Alike v) Parse.advance Parse.advance := by
  intro s s' hs
  by_cases hend : s.current.kind = .endOfInput
  · simp only [Parse.advance, hend, hs.current.kind ▸ hend, if_true]
    exact .ok hs.current ⟨hs.current, hs.supply⟩
  · simp only [Parse.advance, hend, hs.current.kind ▸ hend, if_false]
    obtain ⟨t, u, a, b, ha, hb, ht, hab⟩ | ⟨e, e', a, b, ha, hb, he, hab⟩ :=
      hs.supply.next (Option.some s.current) (Option.some s'.current)
    · rw [ha, hb]
      exact .ok hs.current ⟨ht, hab⟩
    · rw [ha, hb]
      exact .error (.lexical he) ⟨hs.current, hab⟩

/-- Both sides take the token or leave it. -/
theorem accept (kinds : List TokenKind) :
    Alike v (Option.Rel (Token.Alike v)) (Parse.accept kinds) (Parse.accept kinds) := by
  refine .check_bind fun found => ?_
  cases found with
  | true => exact advance.some
  | false => exact .pure .none

/-- Both sides take the token or miss it. -/
theorem expect (kinds : List TokenKind) :
    Alike v (Token.Alike v) (Parse.expect kinds) (Parse.expect kinds) := by
  refine .bind (.accept kinds) fun r r' hr => ?_
  cases hr with
  | none => exact .fail _
  | some ht => exact .pure ht

/-! ### Nodes -/

/-- Nodes look alike whatever their places are. -/
theorem finish {kind : NodeKind} {start start' : Position} {value value' : Value Node}
    {ts us : List Node} (hvalue : Tree.ValueAlike v value value')
    (h : List.Forall₂ (Tree.Alike v) ts us) :
    Alike v (Tree.Alike v) (Parse.finish kind start value ts)
      (Parse.finish kind start' value' us) :=
  fun _ _ hs => .ok (.mk hvalue h) hs

/-- The nodes of what is left out look alike, wherever that is. -/
theorem absent : Alike v (Tree.Alike v) Parse.absent Parse.absent :=
  fun _ _ hs => .ok (.mk .none .nil) hs

/-! ### Repetitions -/

/-- Collections look alike if their steps do. Their results are related one by one. -/
theorem collect {step : Parse (Option α)} {step' : Parse (Option β)}
    (h : Alike v (Option.Rel R) step step') :
    Alike v (List.Forall₂ R) (Parse.collect step) (Parse.collect step') := by
  intro s s' hs
  induction hn : s.pending using Nat.strongRecOn generalizing s s' with
  | ind n ih =>
      subst hn
      have hend := h s s' hs
      generalize hp : step s = x, hq : step' s' = y at hend
      cases hend with
      | error he hm =>
          rw [Parse.collect, hp, Parse.collect, hq]
          exact .error he hm
      | @ok _ _ m m' hr hm =>
          cases hr with
          | none =>
              rw [collect_of_none hp, collect_of_none hq]
              exact .ok .nil hm
          | some hab =>
              -- both sides have equally many tokens to go, so both go on or both stop
              by_cases hlt : m.pending < s.pending
              · have hlt' := (hs.pending_lt_iff hm).1 hlt
                rw [collect_of_some hp hlt, collect_of_some hq hlt']
                exact (ih m.pending hlt m m' hm rfl).map fun _ _ => .cons hab
              · have hlt' := mt (hs.pending_lt_iff hm).2 hlt
                rw [Parse.collect, hp, Parse.collect, hq]
                simp only [hlt, hlt', if_false]
                exact .ok (.cons hab .nil) hm

/-- Repetitions look alike if their steps do, from related results on. -/
theorem iterate {step : α → Parse (Option α)} {step' : β → Parse (Option β)}
    (h : ∀ a b, R a b → Alike v (Option.Rel R) (step a) (step' b)) {a : α} {b : β} (hab : R a b) :
    Alike v R (Parse.iterate step a) (Parse.iterate step' b) := by
  intro s s' hs
  induction hn : s.pending using Nat.strongRecOn generalizing s s' a b with
  | ind n ih =>
      subst hn
      have hend := h a b hab s s' hs
      generalize hp : step a s = x, hq : step' b s' = y at hend
      cases hend with
      | error he hm =>
          rw [Parse.iterate, hp, Parse.iterate, hq]
          exact .error he hm
      | @ok _ _ m m' hr hm =>
          cases hr with
          | none =>
              rw [iterate_of_none hp, iterate_of_none hq]
              exact .ok hab hm
          | some hcd =>
              by_cases hlt : m.pending < s.pending
              · have hlt' := (hs.pending_lt_iff hm).1 hlt
                rw [iterate_of_some hp hlt, iterate_of_some hq hlt']
                exact ih m.pending hlt hcd m m' hm rfl
              · have hlt' := mt (hs.pending_lt_iff hm).2 hlt
                rw [Parse.iterate, hp, Parse.iterate, hq]
                simp only [hlt, hlt', if_false]
                exact .ok hcd hm

end Alike

/-- A rule for nodes does alike with itself. -/
abbrev Uniform (v : View) (p : Parse Node) : Prop :=
  Alike v (Tree.Alike v) p p

end Parse

/-! ### The routines -/

open Parse

/-- Two calls look alike: they are of one routine, with operands that look alike. -/
inductive Routine.Alike (v : View) : Routine → Routine → Prop
  | statement : Alike v .statement .statement
  | block : Alike v .block .block
  | expression {left left' : Option Node} (h : Option.Rel (Tree.Alike v) left left') :
      Alike v (.expression left) (.expression left')
  | binary {least : Int} {left left' : Option Node} (h : Option.Rel (Tree.Alike v) left left') :
      Alike v (.binary least left) (.binary least left')
  | unary : Alike v .unary .unary
  | operand : Alike v .operand .operand
  | suffixed {base base' : Option Node} (h : Option.Rel (Tree.Alike v) base base') :
      Alike v (.suffixed base) (.suffixed base')
  | subscript {object object' : Node} (h : object.Alike v object') :
      Alike v (.subscript object) (.subscript object')
  | slice {object object' start start' : Node} (hobject : object.Alike v object')
      (hstart : start.Alike v start') : Alike v (.slice object start) (.slice object' start')
  | sliceBound : Alike v .sliceBound .sliceBound
  | primary : Alike v .primary .primary
  | array : Alike v .array .array
  | map : Alike v .map .map

namespace Parser

/-- Calls that look alike do alike. -/
def CallsAlike (v : View) (call : Routine → Parse Node) : Prop :=
  ∀ ⦃routine routine' : Routine⦄, routine.Alike v routine' →
    Parse.Alike v (Tree.Alike v) (call routine) (call routine')

variable {v : View} {call : Routine → Parse Node} {object object' start start' : Node}

/-! ### Primaries -/

/-- Literals look alike if their tokens do: strings lose their quotes on both sides. -/
theorem literalText_alike {t u : Token} (h : t.Alike v u) :
    v.seen (literalText t) = v.seen (literalText u) := by
  simp only [literalText, ← h.kind]
  split
  · exact v.unquoted h.text
  · exact h.text

/-- Items between brackets look alike, and as many of them. -/
theorem items_alike {item : Parse Node} (close : Symbol) (h : item.Uniform v) :
    Parse.Alike v (List.Forall₂ (Tree.Alike v)) (items close item) (items close item) := by
  refine .check_bind fun closed => ?_
  cases closed with
  | true => exact .pure .nil
  | false =>
      refine .bind h fun _ _ hfirst => .bind (.collect ?_) fun _ _ hothers =>
        .pure (.cons hfirst hothers)
      refine .bind (.accept _) fun _ _ hcomma => ?_
      cases hcomma with
      | none => exact .pure .none
      | some _ =>
          refine .check_bind fun closed => ?_
          cases closed with
          | true => exact .pure .none
          | false => exact .some h

/-- Arrays look alike. -/
theorem array_uniform (h : CallsAlike v call) : (array call).Uniform v :=
  .bind (.expect _) fun _ _ _ => .bind (items_alike _ (h (.expression .none))) fun _ _ helements =>
    .bind (.expect _) fun _ _ _ => .finish .none helements

/-- Entries look alike, in the key and in the value. -/
theorem mapEntry_uniform (h : CallsAlike v call) : (mapEntry call).Uniform v := by
  refine .bind (.expect _) fun word word' hword => ?_
  simp only [hword.kind]
  exact .bind (.finish (.text (literalText_alike hword)) .nil) fun _ _ hkey =>
    .bind (.expect _) fun _ _ _ => .bind (h (.expression .none)) fun _ _ hvalue =>
      .finish (.node hvalue) (.cons hkey .nil)

/-- Maps look alike. -/
theorem map_uniform (h : CallsAlike v call) : (map call).Uniform v :=
  .bind (.expect _) fun _ _ _ => .bind (items_alike _ (mapEntry_uniform h)) fun _ _ hentries =>
    .bind (.expect _) fun _ _ _ => .finish .none hentries

/-- Primaries look alike: the kind of their first token decides what they are. -/
theorem primary_uniform (h : CallsAlike v call) : (primary call).Uniform v := by
  refine .bind .current fun t u ht => ?_
  have htext := literalText_alike ht
  obtain ⟨hkind, -⟩ := ht
  simp only [← hkind]
  cases hliteral : literal? t.kind with
  | some kind => exact .bind .advance fun _ _ _ => .finish (.text htext) .nil
  | none =>
      dsimp only
      split
      · exact h .array
      · exact h .map
      · exact .bind .advance fun _ _ _ => .bind (h (.expression .none)) fun _ _ hexpression =>
          .bind (.expect _) fun _ _ _ => .pure hexpression
      · exact .fail _

/-! ### Suffixes -/

/-- Bounds look alike or are left out on both sides. -/
theorem sliceBound_uniform (h : CallsAlike v call) : (sliceBound call).Uniform v := by
  refine .check_bind fun starts => ?_
  cases starts with
  | true => exact h .primary
  | false => exact .absent

/-- Slices look alike if the sliced expressions and all bounds do. -/
theorem slice_close_alike {stop stop' step step' : Node} (hobject : object.Alike v object')
    (hstart : start.Alike v start') (hstop : stop.Alike v stop') (hstep : step.Alike v step') :
    Parse.Alike v (Tree.Alike v) (slice.close object start stop step)
      (slice.close object' start' stop' step') :=
  .bind (.expect _) fun _ _ _ =>
    .finish .none (.cons hobject (.cons hstart (.cons hstop (.cons hstep .nil))))

/-- The same colons stand on both sides. -/
theorem slice_alike (h : CallsAlike v call) (hobject : object.Alike v object')
    (hstart : start.Alike v start') :
    Parse.Alike v (Tree.Alike v) (slice call object start) (slice call object' start') := by
  refine .check_bind fun double => ?_
  cases double with
  | true =>
      exact .bind .absent fun _ _ hstop => .bind .advance fun _ _ _ =>
        .bind (h .sliceBound) fun _ _ hstep => slice_close_alike hobject hstart hstop hstep
  | false =>
      refine .bind (.expect _) fun _ _ _ => .bind (h .sliceBound) fun _ _ hstop =>
        .bind (.accept _) fun _ _ hcolon => ?_
      cases hcolon with
      | none => exact .bind .absent fun _ _ hstep => slice_close_alike hobject hstart hstop hstep
      | some _ =>
          exact .bind (h .sliceBound) fun _ _ hstep =>
            slice_close_alike hobject hstart hstop hstep

/-- Both sides are a slice or both are an index. -/
theorem subscript_alike (h : CallsAlike v call) (hobject : object.Alike v object') :
    Parse.Alike v (Tree.Alike v) (subscript call object) (subscript call object') := by
  have hclose {index index' : Node} (hindex : index.Alike v index') :
      Parse.Alike v (Tree.Alike v) (subscript.close object index)
        (subscript.close object' index') :=
    .bind (.expect _) fun _ _ _ => .finish .none (.cons hobject (.cons hindex .nil))
  refine .bind (.expect _) fun _ _ _ => .check_bind fun colon => ?_
  cases colon with
  | true => exact .bind .absent fun _ _ hstart => h (.slice hobject hstart)
  | false =>
      refine .check_bind fun starts => ?_
      cases starts with
      | false => exact .bind (h (.expression .none)) fun _ _ hindex => hclose hindex
      | true =>
          refine .bind (h .primary) fun _ _ hfirst => .check_bind fun colon => ?_
          cases colon with
          | true => exact h (.slice hobject hfirst)
          | false =>
              exact .bind (h (.suffixed (.some hfirst))) fun _ _ hbase =>
                .bind (h (.expression (.some hbase))) fun _ _ hindex => hclose hindex

/-- Arguments look alike, and as many of them. -/
theorem arguments_alike (h : CallsAlike v call) :
    Parse.Alike v (List.Forall₂ (Tree.Alike v)) (arguments call) (arguments call) := by
  refine .check_bind fun closed => ?_
  cases closed with
  | true => exact .pure .nil
  | false =>
      refine .bind (h (.expression .none)) fun _ _ hfirst => .bind (.collect ?_) fun _ _ hothers =>
        .pure (.cons hfirst hothers)
      refine .bind (.accept _) fun _ _ hcomma => ?_
      cases hcomma with
      | none => exact .pure .none
      | some _ => exact .some (h (.expression .none))

/-- The same suffixes stand behind expressions that look alike. -/
theorem suffix?_alike (h : CallsAlike v call) (hobject : object.Alike v object') :
    Parse.Alike v (Option.Rel (Tree.Alike v)) (suffix? call object) (suffix? call object') := by
  refine .bind .current fun t u ht => ?_
  simp only [← ht.kind]
  split
  · exact .bind .advance fun _ _ _ => .bind (arguments_alike h) fun _ _ harguments =>
      .bind (.expect _) fun _ _ _ => .some (.finish (.node hobject) harguments)
  · exact .some (h (.subscript hobject))
  · exact .bind .advance fun _ _ _ => .bind (.expect _) fun _ _ hname =>
      .some (.finish (.text hname.text) (.cons hobject .nil))
  · exact .pure .none

/-- Expressions with suffixes look alike, from their starts or from operands that look alike. -/
theorem suffixed_alike (h : CallsAlike v call) {base base' : Option Node}
    (hbase : Option.Rel (Tree.Alike v) base base') :
    Parse.Alike v (Tree.Alike v) (suffixed call base) (suffixed call base') := by
  have hsuffixes {t u : Node} (ht : t.Alike v u) :
      Parse.Alike v (Tree.Alike v) (iterate (suffix? call) t) (iterate (suffix? call) u) :=
    .iterate (fun _ _ => suffix?_alike h) ht
  cases hbase with
  | some ht => exact hsuffixes ht
  | none => exact .bind (h .primary) fun _ _ => hsuffixes

/-! ### Operators -/

/-- Both sides are an iteration or none is. -/
theorem operand_uniform (h : CallsAlike v call) : (operand call).Uniform v := by
  refine .bind .current fun t u ht => ?_
  simp only [← ht.kind]
  split
  · exact .bind .advance fun _ _ _ => .bind (h (.suffixed .none)) fun _ _ hcollection =>
      .bind (.expect _) fun _ _ _ => .bind (h .unary) fun _ _ htransform =>
        .finish .none (.cons hcollection (.cons htransform .nil))
  · exact h (.suffixed .none)

/-- Two operators in front of operands look alike. -/
abbrev OperatorAlike (v : View) (o o' : Token × NodeKind) : Prop :=
  o.1.Alike v o'.1 ∧ o.2 = o'.2

/-- The same operators stand in front. -/
theorem prefixOperator_alike :
    Parse.Alike v (Option.Rel (OperatorAlike v)) prefixOperator prefixOperator := by
  refine .bind .current fun t u ht => ?_
  simp only [← ht.kind]
  cases prefixed? t.kind with
  | some kind => exact .bind .advance fun _ _ _ => .pure (.some ⟨ht, rfl⟩)
  | none => exact .pure .none

/-- Operators and operands look alike, so the nodes that are made of them do. -/
theorem unary_uniform (h : CallsAlike v call) : (unary call).Uniform v := by
  refine .bind (.collect prefixOperator_alike) fun operators operators' hoperators =>
    .bind (h .operand) fun first first' hfirst => ?_
  induction hoperators with
  | nil => exact .pure hfirst
  | @cons o o' _ _ ho _ ih =>
      obtain ⟨ht, hkind⟩ := ho
      simp only [List.foldrM_cons, hkind]
      exact .bind ih fun _ _ hnode => .finish (.text ht.text) (.cons hnode .nil)

/-- The same operators are tight enough. -/
theorem operation?_alike (h : CallsAlike v call) (least : Int) {left left' : Node}
    (hleft : left.Alike v left') :
    Parse.Alike v (Option.Rel (Tree.Alike v)) (operation? call least left)
      (operation? call least left') := by
  refine .bind .current fun t u ht => ?_
  simp only [← ht.kind]
  cases binary? t.kind with
  | none => exact .pure .none
  | some operator =>
      by_cases hle : least ≤ operator.1
      · simp only [hle, if_true]
        exact .bind .advance fun _ _ _ => .bind (h (.binary .none))
          fun _ _ hright => .some (.finish (.text ht.text) (.cons hleft (.cons hright .nil)))
      · simp only [hle, if_false]
        exact .pure .none

/-- Operations look alike, from their starts or from operands that look alike. -/
theorem binary_alike (h : CallsAlike v call) (least : Int) {left left' : Option Node}
    (hleft : Option.Rel (Tree.Alike v) left left') :
    Parse.Alike v (Tree.Alike v) (binary call least left) (binary call least left') := by
  have hoperations {t u : Node} (ht : t.Alike v u) : Parse.Alike v (Tree.Alike v)
      (iterate (operation? call least) t) (iterate (operation? call least) u) :=
    .iterate (fun _ _ => operation?_alike h least) ht
  cases hleft with
  | some ht => exact hoperations ht
  | none => exact .bind (h .unary) fun _ _ => hoperations

/-- Both sides have branches or none has. -/
theorem expression_alike (h : CallsAlike v call) {left left' : Option Node}
    (hleft : Option.Rel (Tree.Alike v) left left') :
    Parse.Alike v (Tree.Alike v) (expression call left) (expression call left') := by
  refine .bind (h (.binary hleft)) fun _ _ hcondition => .bind (.accept _) fun _ _ hsign => ?_
  cases hsign with
  | none => exact .pure hcondition
  | some _ =>
      exact .bind (h (.expression .none)) fun _ _ hconsequence => .bind (.expect _) fun _ _ _ =>
        .bind (h (.expression .none)) fun _ _ halternative =>
          .finish .none (.cons hcondition (.cons hconsequence (.cons halternative .nil)))

/-! ### Statements -/

/-- Blocks look alike. -/
theorem block_uniform (h : CallsAlike v call) : (block call).Uniform v := by
  refine .bind (.expect _) fun _ _ _ => .bind (.collect ?_) fun _ _ hstatements =>
    .bind (.expect _) fun _ _ _ => .finish .none hstatements
  refine .check_bind fun closed => ?_
  cases closed with
  | true => exact .pure .none
  | false => exact .some (h .statement)

/-- Both sides are a block, both are a definition or both are an expression. -/
theorem statement_uniform (h : CallsAlike v call) : (statement call).Uniform v := by
  refine .check_bind fun opens => ?_
  cases opens with
  | true => exact h .block
  | false =>
      refine .bind (h (.expression .none)) fun _ _ hdefined => .bind (.accept _)
        fun _ _ hflow => ?_
      cases hflow with
      | none => exact .pure hdefined
      | some _ =>
          exact .bind (.expect _) fun _ _ hword => .bind (.finish (.text hword.text) .nil)
            fun _ _ hname => .finish (.node hdefined) (.cons hname .nil)

/-! ### All routines -/

/-- Of each routine: if those that it calls do alike, so does it. -/
theorem body_alike (h : CallsAlike v call) : CallsAlike v (Routine.body call) := by
  intro routine routine' hcall
  cases hcall with
  | statement => exact statement_uniform h
  | block => exact block_uniform h
  | expression hleft => exact expression_alike h hleft
  | binary hleft => exact binary_alike h _ hleft
  | unary => exact unary_uniform h
  | operand => exact operand_uniform h
  | suffixed hbase => exact suffixed_alike h hbase
  | subscript hobject => exact subscript_alike h hobject
  | slice hobject hstart => exact slice_alike h hobject hstart
  | sliceBound => exact sliceBound_uniform h
  | primary => exact primary_uniform h
  | array => exact array_uniform h
  | map => exact map_uniform h

/-- The routines treat alike what looks alike, with any number of frames. -/
theorem run_alike (v : View) (n : Nat) : CallsAlike v (run n) := by
  induction n with
  | zero => exact fun _ _ _ _ _ hs => .error .overflow hs
  | succ n ih => exact body_alike ih

/-- Programs in streams that look alike: from states that look alike the parser of programs comes to
ends that are alike. -/
theorem program_uniform (v : View) (room : Nat) : (program room).Uniform v := by
  refine .bind (.reportingOverflow (.collect ?_)) fun _ _ hstatements => .bind .current
    fun _ _ _ => .pure (.mk .none hstatements)
  refine .check_bind fun closed => ?_
  cases closed with
  | true => exact .pure .none
  | false => exact .some (run_alike v room .statement)

end Parser

end Sigil
