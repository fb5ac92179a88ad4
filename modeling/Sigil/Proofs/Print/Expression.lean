import Sigil.Proofs.Print.Equations
import Sigil.Proofs.Print.Written

/-!
# Printing expressions

What the printer writes for an expression is one of the ways to write it. The texts are those of a
shape: the places that a tree is marked with are not printed.

An expression has one text and stands in parentheses where its place asks for a higher level than
its own. The lemmas here make the text of an expression from those of its parts, one lemma for each
kind of expression.

## Main definitions

* `Prints`: trees of a shape are printed as a text of some level.
* `Fits`: trees of a shape are printed at a place that asks for a level.

## Main results

* `Prints.fits`, `Prints.fits_grouped`: what is printed fits every place, if need be in parentheses.
* `Prints.operation`, `Prints.call` and so on: an expression is printed when its parts are.
-/

namespace Sigil

/-! ### Trees of a shape -/

namespace Tree

variable {α : Type} {t : Tree α} {kind : NodeKind} {σ τ υ : Shape} {σs : List Shape}
  {ts : List (Tree α)}

/-- A node with the shape of one without a value has none. -/
theorem of_shape_none (h : t.shape = ⟨kind, .none, σs, ()⟩) :
    ∃ ts mark, t = ⟨kind, .none, ts, mark⟩ ∧ ts.map shape = σs := by
  rcases t with ⟨kind', _ | s | u, ts, mark⟩
  · rw [shape_none] at h
    cases h
    exact ⟨ts, mark, rfl, rfl⟩
  · simp at h
  · simp at h

/-- A node with the shape of one with a text has that text. -/
theorem of_shape_text {s : String} (h : t.shape = ⟨kind, .text s, σs, ()⟩) :
    ∃ ts mark, t = ⟨kind, .text s, ts, mark⟩ ∧ ts.map shape = σs := by
  rcases t with ⟨kind', _ | s | u, ts, mark⟩
  · simp at h
  · rw [shape_text] at h
    cases h
    exact ⟨ts, mark, rfl, rfl⟩
  · simp at h

/-- A node with the shape of one with a node has one for its value. -/
theorem of_shape_node (h : t.shape = ⟨kind, .node σ, σs, ()⟩) :
    ∃ u ts mark, t = ⟨kind, .node u, ts, mark⟩ ∧ u.shape = σ ∧ ts.map shape = σs := by
  rcases t with ⟨kind', _ | s | u, ts, mark⟩
  · simp at h
  · simp at h
  · rw [shape_node] at h
    cases h
    exact ⟨u, ts, mark, rfl, rfl, rfl⟩

/-- The kind of a tree is that of its shape. -/
theorem kind_shape (t : Tree α) : t.shape.kind = t.kind := by
  rcases t with ⟨kind, _ | s | u, ts, mark⟩ <;> simp

/-- One shape is that of one node. -/
theorem of_shapes_one (h : ts.map shape = [σ]) : ∃ a, ts = [a] ∧ a.shape = σ := by
  obtain ⟨a, us, rfl, ha, hus⟩ := List.map_eq_cons_iff.1 h
  obtain rfl := List.map_eq_nil_iff.1 hus
  exact ⟨a, rfl, ha⟩

/-- Two shapes are those of two nodes. -/
theorem of_shapes_two (h : ts.map shape = [σ, τ]) :
    ∃ a b, ts = [a, b] ∧ a.shape = σ ∧ b.shape = τ := by
  obtain ⟨a, us, rfl, ha, hus⟩ := List.map_eq_cons_iff.1 h
  obtain ⟨b, rfl, hb⟩ := of_shapes_one hus
  exact ⟨a, b, rfl, ha, hb⟩

/-- Three shapes are those of three nodes. -/
theorem of_shapes_three (h : ts.map shape = [σ, τ, υ]) :
    ∃ a b c, ts = [a, b, c] ∧ a.shape = σ ∧ b.shape = τ ∧ c.shape = υ := by
  obtain ⟨a, us, rfl, ha, hus⟩ := List.map_eq_cons_iff.1 h
  obtain ⟨b, c, rfl, hb, hc⟩ := of_shapes_two hus
  exact ⟨a, b, c, rfl, ha, hb, hc⟩

end Tree

namespace Source

/-! ### Texts of shapes -/

/-- The text starts with none of the two characters that start an expression and also carry one on:
an opening parenthesis and a minus sign. -/
def StartsClear (w : List Char) : Prop :=
  ∀ c, w.head? = some c → c ≠ '(' ∧ c ≠ '-'

/-- Trees of the shape are printed as one text of a level, which is a way to write the shape and for
which there is the room `r`. The text starts clear if `clear` holds. -/
def Prints (r : Room) (level : Int) (clear : Prop) (σ : Shape) : Prop :=
  σ.kind.level? = some level ∧
    ∃ text, (∀ t : Node, t.shape = σ →
      ∀ least, expression t least = .ok (atLevel least level text)) ∧
        (clear → StartsClear text.toList) ∧ Written r (.expression level σ) text.toList

/-- Trees of the shape are printed at a place that asks for a level. -/
def Fits (r : Room) (least : Int) (clear : Prop) (σ : Shape) : Prop :=
  σ.kind.level?.isSome ∧
    ∃ text, (∀ t : Node, t.shape = σ → expression t least = .ok text) ∧
      (clear → StartsClear text.toList) ∧ Written r (.expression least σ) text.toList

/-- The bound of a slice is left out, or it fits its place. -/
def FitsBound (r : Room) (σ : Shape) : Prop :=
  σ = ⟨.absent, .none, [], ()⟩ ∨ Fits r Level.primary False σ

/-- Trees of the shape of a literal are printed as a lexeme that stands for the literal. -/
def PrintsLiteral (kind : NodeKind) (text : String) : Prop :=
  ∃ key, (∀ t : Node, t.shape = ⟨kind, .text text, [], ()⟩ →
    ∀ least, expression t least = .ok (atLevel least Level.primary key)) ∧
      IsLiteral kind text key.toList

/-- The entry of a map has a name or a string for a key, and its value fits its place. -/
def FitsEntry (r : Room) (σ : Shape) : Prop :=
  ∃ kind text υ, σ = ⟨.mapEntry, .node υ, [⟨kind, .text text, [], ()⟩], ()⟩ ∧
    (kind = .identifier ∨ kind = .string) ∧ PrintsLiteral kind text ∧
      Fits r Level.conditional False υ

/-- The levels of the kinds lie between the conditional's and the primaries'. -/
theorem level_bounds {kind : NodeKind} {level : Int} (h : kind.level? = some level) :
    Level.conditional ≤ level ∧ level ≤ Level.primary := by
  cases kind <;> cases h <;> decide

section

variable {r q : Room} {k l least level : Int} {σ τ υ : Shape} {σs : List Shape} {kind : NodeKind}
  {text : String} {cs : List Char} {clear clear' : Prop}

/-- What can be read with some room can be with more. -/
theorem Prints.mono (h : Prints r level clear σ) (hr : r ≤ q) (hclear : clear' → clear) :
    Prints q level clear' σ := by
  obtain ⟨hlevel, text, hprint, hstart, hwritten⟩ := h
  exact ⟨hlevel, text, hprint, fun h => hstart (hclear h), hwritten.mono hr⟩

/-- What fits with some room fits with more. -/
theorem Fits.mono (h : Fits r least clear σ) (hr : r ≤ q) (hclear : clear' → clear) :
    Fits q least clear' σ := by
  obtain ⟨hlevel, text, hprint, hstart, hwritten⟩ := h
  exact ⟨hlevel, text, hprint, fun h => hstart (hclear h), hwritten.mono hr⟩

/-- An expression stands as it is where no higher level than its own is asked for. -/
theorem Prints.fits (h : Prints r level clear σ) (hl : least ≤ level) : Fits r least clear σ := by
  obtain ⟨hlevel, text, hprint, hstart, hwritten⟩ := h
  refine ⟨by simp [hlevel], text, fun t ht => ?_, hstart, .looser hwritten hl⟩
  rw [hprint t ht, atLevel, if_neg (Int.not_lt.2 hl)]

/-- In parentheses an expression fits every place, if there is room for it within them. -/
theorem Prints.fits_grouped (h : Prints (.plain (r.primary - 1)) level clear σ)
    (hl : least ≤ Level.primary) (hclear : ¬ clear') : Fits r least clear' σ := by
  rcases Int.lt_or_le level least with hlt | hge
  · obtain ⟨hlevel, text, hprint, -, hwritten⟩ := h
    refine ⟨by simp [hlevel], "(" ++ text ++ ")", fun t ht => ?_, fun h => absurd h hclear, ?_⟩
    · rw [hprint t ht, atLevel, if_pos hlt]
    · have hgroup := Written.group (.looser hwritten (level_bounds hlevel).1)
      rw [String.toList_append, String.toList_append]
      exact .looser hgroup hl
  · exact (h.fits hge).mono r.enclosed_le fun h => absurd h hclear

/-- What is written for an expression starts with a character. -/
theorem ne_nil_of_written {w : List Char} (h : Written r (.expression least σ) w) : w ≠ [] := by
  obtain ⟨c, r, rfl, -⟩ := h.read.1
  simp

/-- What an expression starts with is what stands first in it. -/
theorem StartsClear.append {v w : List Char} (h : StartsClear v)
    (hv : Written r (.expression least σ) v) : StartsClear (v ++ w) := by
  obtain ⟨c, r, rfl⟩ := List.exists_cons_of_ne_nil (ne_nil_of_written hv)
  exact h

/-- A text that starts with neither a parenthesis nor a minus sign carries no statement on. -/
theorem startsClear_cons {c : Char} {r : List Char} (hc : c ≠ '(' ∧ c ≠ '-') :
    StartsClear (c :: r) := by
  intro d hd
  obtain rfl := Option.some.inj hd
  exact hc

/-! ### Primaries -/

/-- A name, a number or a truth value is printed as the lexeme it is. -/
theorem printsLiteral_word {token : TokenKind} (h : IsLexeme token cs)
    (hkind : Parser.literal? token = some kind) (hstring : token ≠ .string) :
    PrintsLiteral kind (String.ofList cs) := by
  refine ⟨String.ofList cs, fun t ht least => ?_, token, ?_, hkind, ?_⟩
  · obtain ⟨ts, mark, rfl, -⟩ := Tree.of_shape_text ht
    cases token <;> first | exact absurd rfl hstring | cases hkind <;> rfl
  · rw [String.toList_ofList]
    exact h
  · rw [if_neg hstring, String.toList_ofList]

/-- A string is printed between marks that it does not hold. -/
theorem printsLiteral_string (h : '"' ∉ text.toList ∨ '\'' ∉ text.toList) :
    PrintsLiteral .string text := by
  have hliteral : ∀ q, isQuote q = true → q ∉ text.toList →
      IsLiteral .string text (q :: (text.toList ++ [q])) := by
    intro q hq htext
    refine ⟨.string, .string hq htext, rfl, ?_⟩
    simp [Parser.unquoted]
  have hprint : ∀ key, stringLiteral text = .ok key →
      ∀ t : Node, t.shape = ⟨.string, .text text, [], ()⟩ →
        ∀ least, expression t least = .ok (atLevel least Level.primary key) := by
    intro key hkey t ht least
    obtain ⟨ts, mark, rfl, -⟩ := Tree.of_shape_text ht
    rw [expression_string, hkey]
    rfl
  by_cases hdouble : '"' ∈ text.toList
  · have hsingle : '\'' ∉ text.toList := h.resolve_left (fun hnot => hnot hdouble)
    refine ⟨"'" ++ text ++ "'", hprint _ ?_, ?_⟩
    · rw [stringLiteral, if_neg (not_not_intro hdouble), if_pos hsingle]
    · rw [String.toList_append, String.toList_append]
      exact hliteral '\'' (by decide) hsingle
  · refine ⟨"\"" ++ text ++ "\"", hprint _ ?_, ?_⟩
    · rw [stringLiteral, if_pos hdouble]
    · rw [String.toList_append, String.toList_append]
      exact hliteral '"' (by decide) hdouble

/-- A literal starts with a letter, a digit or a quotation mark. -/
theorem startsClear_of_isLiteral (h : IsLiteral kind text cs) : StartsClear cs := by
  obtain ⟨token, hcs, hkind, -⟩ := h
  obtain ⟨c, r, rfl⟩ := List.exists_cons_of_ne_nil hcs.ne_nil
  refine startsClear_cons ?_
  rcases hcs.cases_head with ⟨hc, -⟩ | ⟨hc, -⟩ | ⟨hc, -⟩ | ⟨-, -, s, rfl, -⟩
  · constructor <;> rintro rfl <;> exact absurd hc (by decide)
  · constructor <;> rintro rfl <;> exact absurd hc (by decide)
  · constructor <;> rintro rfl <;> exact absurd hc (by decide)
  · cases hkind

/-- A literal takes a frame. -/
theorem Prints.literal (hr : 0 < r.primary) (h : PrintsLiteral kind text)
    (hkind : kind.level? = some Level.primary) :
    Prints r Level.primary clear ⟨kind, .text text, [], ()⟩ := by
  obtain ⟨key, hprint, hkey⟩ := h
  exact ⟨hkind, key, hprint, fun _ => startsClear_of_isLiteral hkey, .literal hr hkey⟩

/-- Items that are printed one by one are printed as a series. -/
theorem items_written {item : Node → Printed} {k : Series}
    (h : ∀ σ ∈ σs, ∃ text, (∀ t : Node, t.shape = σ → item t = .ok text) ∧
      Written r (.item k σ) text.toList) :
    ∃ texts, (∀ ts : List Node, ts.map Tree.shape = σs → ts.mapM item = .ok texts) ∧
      texts.length = σs.length ∧ Written r (.series k σs) (Text.joined ", " texts).toList := by
  induction σs with
  | nil =>
      refine ⟨[], fun ts hts => ?_, rfl, .noItem⟩
      obtain rfl := List.map_eq_nil_iff.1 hts
      rfl
  | cons σ σs ih =>
      obtain ⟨⟨text, hprint, hwritten⟩, hrest⟩ := List.forall_mem_cons.1 h
      obtain ⟨texts, hprints, hlength, hseries⟩ := ih hrest
      refine ⟨text :: texts, fun ts hts => ?_, congrArg (· + 1) hlength, ?_⟩
      · obtain ⟨t, us, rfl, ht, hus⟩ := List.map_eq_cons_iff.1 hts
        rw [List.mapM_cons, hprint t ht, hprints us hus]
        rfl
      · rcases σs with _ | ⟨τ, σs⟩
        · obtain rfl := List.length_eq_zero_iff.1 hlength
          exact .lastItem hwritten
        · rcases texts with _ | ⟨text', texts⟩
          · cases hlength
          · rw [Text.joined, String.toList_append, String.toList_append, List.append_assoc]
            exact .moreItems hwritten hseries

/-- The items of a call or an array. -/
theorem commaSeparated_written {k : Series} (hk : k ≠ .entries)
    (h : ∀ σ ∈ σs, Fits r Level.conditional False σ) :
    ∃ text, (∀ ts : List Node, ts.map Tree.shape = σs →
      commaSeparated (expressions ts) = .ok text) ∧ Written r (.series k σs) text.toList := by
  have hitems : ∀ σ ∈ σs, ∃ text, (∀ t : Node, t.shape = σ →
      expression t Level.conditional = .ok text) ∧ Written r (.item k σ) text.toList := by
    intro σ hσ
    obtain ⟨-, text, hprint, -, hwritten⟩ := h σ hσ
    exact ⟨text, hprint, .item hk hwritten⟩
  obtain ⟨texts, hprints, -, hseries⟩ := items_written hitems
  refine ⟨Text.joined ", " texts, fun ts hts => ?_, hseries⟩
  rw [commaSeparated_eq, hprints ts hts]
  rfl

/-- Entries are printed with commas between them, as the grammar has them. -/
theorem entries_written (h : ∀ σ ∈ σs, FitsEntry r σ) :
    ∃ texts, (∀ ts : List Node, ts.map Tree.shape = σs → entries ts = .ok texts) ∧
      Written r (.series .entries σs) (Text.joined ", " texts).toList := by
  have hitems : ∀ σ ∈ σs, ∃ text, (∀ t : Node, t.shape = σ → entry t = .ok text) ∧
      Written r (.item .entries σ) text.toList := by
    intro σ hσ
    obtain ⟨kind, text, υ, rfl, hkind, ⟨key, hkey, hliteral⟩, -, value, hvalue, -, hwritten⟩ :=
      h σ hσ
    refine ⟨key ++ ": " ++ value, fun t ht => ?_, ?_⟩
    · obtain ⟨u, ts, mark, rfl, hu, hts⟩ := Tree.of_shape_node ht
      obtain ⟨name, rfl, hname⟩ := Tree.of_shapes_one hts
      exact entry_of_expressions _ _ _ _ (hkey name hname _) (hvalue u hu)
    · rw [String.toList_append, String.toList_append, List.append_assoc]
      exact .entry hliteral hkind hwritten
  obtain ⟨texts, hprints, -, hseries⟩ := items_written hitems
  exact ⟨texts, fun ts hts => by rw [entries_eq, hprints ts hts], hseries⟩

/-- An array is printed with its items between its marks. -/
theorem Prints.array (hr : 1 < r.primary)
    (h : ∀ σ ∈ σs, Fits (.plain (r.primary - 2)) Level.conditional False σ) :
    Prints r Level.primary clear ⟨.array, .none, σs, ()⟩ := by
  obtain ⟨text, hprint, hwritten⟩ := commaSeparated_written (k := .elements) (by decide) h
  refine ⟨rfl, "#[" ++ text ++ "]", fun t ht least => ?_, fun _ => ?_, ?_⟩
  · obtain ⟨ts, mark, rfl, hts⟩ := Tree.of_shape_none ht
    rw [expression_array, hprint ts hts]
    rfl
  · rw [String.toList_append, String.toList_append]
    exact startsClear_cons (by decide)
  · rw [String.toList_append, String.toList_append]
    exact .array hr hwritten

/-- A map is printed with its entries between its marks. -/
theorem Prints.map (hr : 1 < r.primary)
    (h : ∀ σ ∈ σs, FitsEntry (.plain (r.primary - 2)) σ) :
    Prints r Level.primary clear ⟨.map, .none, σs, ()⟩ := by
  obtain ⟨texts, hprint, hwritten⟩ := entries_written h
  refine ⟨rfl, "#\x7b" ++ Text.joined ", " texts ++ "\x7d", fun t ht least => ?_, fun _ => ?_, ?_⟩
  · obtain ⟨ts, mark, rfl, hts⟩ := Tree.of_shape_none ht
    rw [expression_map, hprint ts hts]
    rfl
  · rw [String.toList_append, String.toList_append]
    exact startsClear_cons (by decide)
  · rw [String.toList_append, String.toList_append]
    exact .map hr hwritten

/-! ### Suffixes -/

/-- A call is printed with its arguments in parentheses. -/
theorem Prints.call (hf : Fits r Level.suffixed clear σ)
    (h : ∀ τ ∈ σs, Fits (.plain (r.suffixed - 1)) Level.conditional False τ) :
    Prints r Level.suffixed clear ⟨.call, .node σ, σs, ()⟩ := by
  obtain ⟨-, callee, hcallee, hstart, hv⟩ := hf
  obtain ⟨text, hprint, hw⟩ := commaSeparated_written (k := .arguments) (by decide) h
  refine ⟨rfl, callee ++ "(" ++ text ++ ")", fun t ht least => ?_, fun h => ?_, ?_⟩
  · obtain ⟨u, ts, mark, rfl, hu, hts⟩ := Tree.of_shape_node ht
    rw [expression_call, hcallee u hu, hprint ts hts]
    rfl
  · simp only [String.toList_append, List.append_assoc]
    exact (hstart h).append hv
  · simp only [String.toList_append, List.append_assoc]
    exact .call hv hw

/-- An index is printed in brackets. -/
theorem Prints.index (hr : 3 < r.suffixed) (ht : Fits r Level.suffixed clear σ)
    (h : Fits (.resumed (r.suffixed - 2)) Level.conditional clear' τ) :
    Prints r Level.suffixed clear ⟨.index, .none, [σ, τ], ()⟩ := by
  obtain ⟨-, object, hobject, hstart, hv⟩ := ht
  obtain ⟨-, index, hindex, -, hw⟩ := h
  refine ⟨rfl, object ++ "[" ++ index ++ "]", fun t ht least => ?_, fun h => ?_, ?_⟩
  · obtain ⟨ts, mark, rfl, hts⟩ := Tree.of_shape_none ht
    obtain ⟨a, b, rfl, ha, hb⟩ := Tree.of_shapes_two hts
    rw [expression_index, hobject a ha, hindex b hb]
    rfl
  · simp only [String.toList_append, List.append_assoc]
    exact (hstart h).append hv
  · simp only [String.toList_append, List.append_assoc]
    exact .index hr hv hw

/-- What stands at a place for an expression is there. -/
theorem Fits.kind_ne (h : Fits r least clear σ) {t : Node} (ht : t.shape = σ) :
    t.kind ≠ .absent := by
  intro habsent
  have hlevel := h.1
  rw [← ht, Tree.kind_shape, habsent] at hlevel
  cases hlevel

/-- A bound is printed as a primary or as nothing. -/
theorem FitsBound.written (h : FitsBound r σ) :
    ∃ text, (∀ t : Node, t.shape = σ → bound t = .ok text) ∧ Written r (.bound σ) text.toList := by
  rcases h with rfl | h
  · refine ⟨"", fun t ht => ?_, .leftOut⟩
    obtain ⟨ts, mark, rfl, -⟩ := Tree.of_shape_none ht
    rfl
  · obtain ⟨-, text, hprint, -, hwritten⟩ := id h
    refine ⟨text, fun t ht => ?_, .bound hwritten⟩
    rw [bound, if_neg (h.kind_ne ht), hprint t ht]

/-- The bounds of a slice with the colons between them. -/
theorem bounds_written (ha : FitsBound r σ)
    (hb : FitsBound (.resumed (r.primary - 2)) τ) (hc : FitsBound (.resumed (r.primary - 2)) υ) :
    ∃ u v w, (∀ t : Node, t.shape = σ → bound t = .ok u) ∧
      (∀ t : Node, t.shape = τ → bound t = .ok v) ∧ (∀ t : Node, t.shape = υ → step t = .ok w) ∧
      Written r (.bounds σ τ υ) (u.toList ++ ':' :: (v.toList ++ w.toList)) := by
  obtain ⟨u, hu, hstart⟩ := ha.written
  obtain ⟨v, hv, hstop⟩ := hb.written
  rcases hc with rfl | hc
  · refine ⟨u, v, "", hu, hv, fun t ht => ?_, ?_⟩
    · obtain ⟨ts, mark, rfl, -⟩ := Tree.of_shape_none ht
      rfl
    · rw [String.toList_empty, List.append_nil]
      exact .twoBounds hstart hstop
  · obtain ⟨-, w, hw, -, hwritten⟩ := id hc
    refine ⟨u, v, ":" ++ w, hu, hv, fun t ht => ?_, ?_⟩
    · rw [step, if_neg (hc.kind_ne ht), hw t ht]
      rfl
    · rw [String.toList_append]
      exact .threeBounds hstart hstop hwritten

/-- The bounds of a slice are printed in brackets, the second colon only in front of a step. -/
theorem Prints.slice {start stop step : Shape} (hr : 3 < r.suffixed)
    (ht : Fits r Level.suffixed clear σ) (ha : FitsBound (.resumed (r.suffixed - 2)) start)
    (hb : FitsBound (.resumed (r.suffixed - 2 - 2)) stop)
    (hc : FitsBound (.resumed (r.suffixed - 2 - 2)) step) :
    Prints r Level.suffixed clear ⟨.slice, .none, [σ, start, stop, step], ()⟩ := by
  obtain ⟨-, object, hobject, hstart, hv⟩ := ht
  obtain ⟨u, v, w, hu, hstop, hw, hwritten⟩ := bounds_written ha hb hc
  refine ⟨rfl, object ++ "[" ++ u ++ ":" ++ v ++ w ++ "]", fun t ht least => ?_, fun h => ?_, ?_⟩
  · obtain ⟨ts, mark, rfl, hts⟩ := Tree.of_shape_none ht
    obtain ⟨a, us, rfl, ha, hus⟩ := List.map_eq_cons_iff.1 hts
    obtain ⟨b, c, d, rfl, hb, hc, hd⟩ := Tree.of_shapes_three hus
    rw [expression_slice, hobject a ha, hu b hb, hstop c hc, hw d hd]
    rfl
  · simp only [String.toList_append, List.append_assoc]
    exact (hstart h).append hv
  · have hslice := Written.slice hr hv hwritten
    simp only [String.toList_append, List.append_assoc]
    simpa using hslice

/-- A member is printed with its name behind a point. -/
theorem Prints.member (ht : Fits r Level.suffixed clear σ)
    (hname : IsLexeme .identifier cs) :
    Prints r Level.suffixed clear ⟨.member, .text (String.ofList cs), [σ], ()⟩ := by
  obtain ⟨-, object, hobject, hstart, hv⟩ := ht
  refine ⟨rfl, object ++ "." ++ String.ofList cs, fun t ht least => ?_, fun h => ?_, ?_⟩
  · obtain ⟨ts, mark, rfl, hts⟩ := Tree.of_shape_text ht
    obtain ⟨a, rfl, ha⟩ := Tree.of_shapes_one hts
    rw [expression_member, hobject a ha]
    rfl
  · simp only [String.toList_append, List.append_assoc]
    exact (hstart h).append hv
  · simp only [String.toList_append, String.toList_ofList, List.append_assoc]
    exact .member hv hname

/-! ### Operators -/

/-- A prefix operator is printed in front of its operand. Behind a statement it must not be a minus
sign. -/
theorem Prints.prefixed {s : Symbol} (hs : s.prefixed? = some kind)
    (h : Fits (.plain r.expression) Level.unary clear' σ) (hminus : clear → s ≠ .minus) :
    Prints r Level.unary clear ⟨kind, .text s.spelling, [σ], ()⟩ := by
  obtain ⟨-, operand, hoperand, -, hw⟩ := h
  have hlevel : kind.level? = some Level.unary := by
    cases s <;> cases hs <;> rfl
  refine ⟨hlevel, s.spelling ++ operand, fun t ht least => ?_, fun h => ?_, ?_⟩
  · obtain ⟨ts, mark, rfl, hts⟩ := Tree.of_shape_text ht
    obtain ⟨a, rfl, ha⟩ := Tree.of_shapes_one hts
    rw [expression_prefixed a mark least hs, hoperand a ha]
    rfl
  · have hne := hminus h
    rw [String.toList_append, Symbol.spelling, String.toList_ofList]
    cases s <;> first
      | cases hs; done
      | exact absurd rfl hne
      | exact startsClear_cons (by decide)
  · rw [String.toList_append, Symbol.spelling, String.toList_ofList]
    exact .prefixed hs hw

/-- An iteration is printed with its two expressions behind their marks. -/
theorem Prints.iteration {other : Prop}
    (ha : Fits (.plain r.expression) Level.suffixed clear' σ)
    (hb : Fits (.plain (r.expression - 2)) Level.unary other τ) :
    Prints r Level.unary clear ⟨.iteration, .none, [σ, τ], ()⟩ := by
  obtain ⟨-, collection, hcollection, -, hv⟩ := ha
  obtain ⟨-, transform, htransform, -, hw⟩ := hb
  refine ⟨rfl, "@@ " ++ collection ++ " >> " ++ transform, fun t ht least => ?_, fun _ => ?_, ?_⟩
  · obtain ⟨ts, mark, rfl, hts⟩ := Tree.of_shape_none ht
    obtain ⟨a, b, rfl, ha, hb⟩ := Tree.of_shapes_two hts
    rw [expression_iteration, hcollection a ha, htransform b hb]
    rfl
  · simp only [String.toList_append, List.append_assoc]
    exact startsClear_cons (by decide)
  · simp only [String.toList_append, List.append_assoc]
    exact .iteration hv hw

/-- The right operand is printed at a place for tighter expressions, so it gets parentheses where it
needs them. -/
theorem Prints.operation {s : Symbol} (ha : Fits r level clear σ)
    (hs : s.binary? = some (level, kind))
    (hb : Fits (.plain (r.expression - 1)) (level + 1) clear' τ) :
    Prints r level clear ⟨kind, .text s.spelling, [σ, τ], ()⟩ := by
  obtain ⟨-, left, hleft, hstart, hv⟩ := ha
  obtain ⟨-, right, hright, -, hw⟩ := hb
  refine ⟨(Symbol.level_of_binary? hs).1, left ++ " " ++ s.spelling ++ " " ++ right,
    fun t ht least => ?_, fun h => ?_, ?_⟩
  · obtain ⟨ts, mark, rfl, hts⟩ := Tree.of_shape_text ht
    obtain ⟨a, b, rfl, ha, hb⟩ := Tree.of_shapes_two hts
    rw [expression_operation a b mark least hs, hleft a ha, hright b hb]
    rfl
  · simp only [String.toList_append, List.append_assoc]
    exact (hstart h).append hv
  · simp only [String.toList_append, Symbol.spelling, String.toList_ofList, List.append_assoc]
    exact .operation hv hs hw

/-- The condition is printed at a place for expressions without branches. -/
theorem Prints.conditional {other : Prop} (ha : Fits r Level.logicalOr clear σ)
    (hb : Fits (.plain (r.expression - 1)) Level.conditional clear' τ)
    (hc : Fits (.plain (r.expression - 1)) Level.conditional other υ) :
    Prints r Level.conditional clear ⟨.conditional, .none, [σ, τ, υ], ()⟩ := by
  obtain ⟨-, condition, hcondition, hstart, hu⟩ := ha
  obtain ⟨-, consequence, hconsequence, -, hv⟩ := hb
  obtain ⟨-, alternative, halternative, -, hw⟩ := hc
  refine ⟨rfl, condition ++ " ?? " ++ consequence ++ " :: " ++ alternative,
    fun t ht least => ?_, fun h => ?_, ?_⟩
  · obtain ⟨ts, mark, rfl, hts⟩ := Tree.of_shape_none ht
    obtain ⟨a, b, c, rfl, ha, hb, hc⟩ := Tree.of_shapes_three hts
    rw [expression_conditional, hcondition a ha, hconsequence b hb, halternative c hc]
    rfl
  · simp only [String.toList_append, List.append_assoc]
    exact (hstart h).append hu
  · simp only [String.toList_append, List.append_assoc]
    exact .conditional hu hv hw

end

end Source

end Sigil
