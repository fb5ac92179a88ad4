import Sigil.Proofs.Grammar.Basic
import Sigil.Proofs.Token.Part

/-!
# Ways to write an expression

The texts that an expression can be written as in the style of the printer: the marks and blanks are
the printer's, but there may be more parentheses than it would put. They may stand around an
expression and around every expression in it. Names of members and keys of maps are no expressions,
and neither is a bound of a slice that is left out.

Each of these texts is cut into tokens that the grammar has an expression of the same shape for.

## Main definitions

* `Written`: the texts of the parts of expressions.

## Main results

* `Written.read`: a written text is cut into tokens of the grammar, with the same shape.
-/

namespace Sigil

/-! ### Shapes -/

namespace Tree

variable {α : Type}

/-- The function on the children is the one on trees, for each of them. -/
theorem mapAll_eq {β : Type} (f : α → β) (ts : List (Tree α)) : mapAll f ts = ts.map (map f) := by
  induction ts with
  | nil => rfl
  | cons t ts ih => rw [mapAll, ih, List.map_cons]

/-- The shape of a node without a value. -/
@[simp] theorem shape_none (kind : NodeKind) (ts : List (Tree α)) (mark : α) :
    shape ⟨kind, .none, ts, mark⟩ = ⟨kind, .none, ts.map shape, ()⟩ := by
  rw [shape, map, mapAll_eq]
  rfl

/-- The shape of a node with a text. -/
@[simp] theorem shape_text (kind : NodeKind) (s : String) (ts : List (Tree α)) (mark : α) :
    shape ⟨kind, .text s, ts, mark⟩ = ⟨kind, .text s, ts.map shape, ()⟩ := by
  rw [shape, map, mapAll_eq]
  rfl

/-- The shape of a node with another one for its value. -/
@[simp] theorem shape_node (kind : NodeKind) (t : Tree α) (ts : List (Tree α)) (mark : α) :
    shape ⟨kind, .node t, ts, mark⟩ = ⟨kind, .node t.shape, ts.map shape, ()⟩ := by
  rw [shape, map, mapAll_eq]
  rfl

end Tree

/-! ### Written texts -/

/-- The text is a lexeme, and the token that it makes is a literal of a kind that stands for a
text. -/
def IsLiteral (kind : NodeKind) (text : String) (cs : List Char) : Prop :=
  ∃ k, IsLexeme k cs ∧ Parser.literal? k = some kind ∧
    text = if k = .string then Parser.unquoted (String.ofList cs) else String.ofList cs

/-- The parts of an expression, each with the shape of what it stands for. -/
inductive Form where
  /-- An expression at a place that asks for a level. -/
  | expression (least : Int) (σ : Shape)
  /-- A bound of a slice, which may be left out. -/
  | bound (σ : Shape)
  /-- The three bounds of a slice and the colons between them. -/
  | bounds (start stop step : Shape)
  /-- An item of a series. -/
  | item (k : Series) (σ : Shape)
  /-- The items of a series, with commas between them. -/
  | series (k : Series) (σs : List Shape)

/-- The characters are a way to write the part, for which there is the room `r`. -/
inductive Written : Room → Form → List Char → Prop
  /-- A tighter expression may stand where a looser one is asked for. -/
  | looser {r : Room} {k l : Int} {σ : Shape} {w : List Char}
      (h : Written r (.expression k σ) w) (hl : l ≤ k) : Written r (.expression l σ) w
  | literal {r : Room} {kind : NodeKind} {text : String} {w : List Char} (hr : 0 < r.primary)
      (h : IsLiteral kind text w) :
      Written r (.expression Level.primary ⟨kind, .text text, [], ()⟩) w
  /-- Parentheses may stand around every expression. -/
  | group {r : Room} {σ : Shape} {w : List Char}
      (h : Written (.plain (r.primary - 1)) (.expression Level.conditional σ) w) :
      Written r (.expression Level.primary σ) ('(' :: (w ++ [')']))
  | array {r : Room} {σs : List Shape} {w : List Char} (hr : 1 < r.primary)
      (h : Written (.plain (r.primary - 2)) (.series .elements σs) w) :
      Written r (.expression Level.primary ⟨.array, .none, σs, ()⟩)
        ('#' :: '[' :: (w ++ [']']))
  | map {r : Room} {σs : List Shape} {w : List Char} (hr : 1 < r.primary)
      (h : Written (.plain (r.primary - 2)) (.series .entries σs) w) :
      Written r (.expression Level.primary ⟨.map, .none, σs, ()⟩)
        ('#' :: '\x7b' :: (w ++ ['\x7d']))
  | call {r : Room} {σ : Shape} {σs : List Shape} {v w : List Char}
      (hf : Written r (.expression Level.suffixed σ) v)
      (h : Written (.plain (r.suffixed - 1)) (.series .arguments σs) w) :
      Written r (.expression Level.suffixed ⟨.call, .node σ, σs, ()⟩)
        (v ++ '(' :: (w ++ [')']))
  | index {r : Room} {σ τ : Shape} {v w : List Char} (hr : 3 < r.suffixed)
      (ht : Written r (.expression Level.suffixed σ) v)
      (h : Written (.resumed (r.suffixed - 2)) (.expression Level.conditional τ) w) :
      Written r (.expression Level.suffixed ⟨.index, .none, [σ, τ], ()⟩)
        (v ++ '[' :: (w ++ [']']))
  | slice {r : Room} {σ start stop step : Shape} {v w : List Char} (hr : 3 < r.suffixed)
      (ht : Written r (.expression Level.suffixed σ) v)
      (h : Written (.resumed (r.suffixed - 2)) (.bounds start stop step) w) :
      Written r (.expression Level.suffixed ⟨.slice, .none, [σ, start, stop, step], ()⟩)
        (v ++ '[' :: (w ++ [']']))
  | member {r : Room} {σ : Shape} {v name : List Char}
      (ht : Written r (.expression Level.suffixed σ) v) (hname : IsLexeme .identifier name) :
      Written r (.expression Level.suffixed ⟨.member, .text (String.ofList name), [σ], ()⟩)
        (v ++ '.' :: name)
  | prefixed {r : Room} {σ : Shape} {w : List Char} {s : Symbol} {kind : NodeKind}
      (hs : s.prefixed? = some kind)
      (h : Written (.plain r.expression) (.expression Level.unary σ) w) :
      Written r (.expression Level.unary ⟨kind, .text s.spelling, [σ], ()⟩) (s.chars ++ w)
  | iteration {r : Room} {σ τ : Shape} {v w : List Char}
      (ha : Written (.plain r.expression) (.expression Level.suffixed σ) v)
      (hb : Written (.plain (r.expression - 2)) (.expression Level.unary τ) w) :
      Written r (.expression Level.unary ⟨.iteration, .none, [σ, τ], ()⟩)
        ('@' :: '@' :: ' ' :: (v ++ ' ' :: '>' :: '>' :: ' ' :: w))
  | operation {r : Room} {σ τ : Shape} {v w : List Char} {s : Symbol} {level : Int}
      {kind : NodeKind} (ha : Written r (.expression level σ) v)
      (hs : s.binary? = some (level, kind))
      (hb : Written (.plain (r.expression - 1)) (.expression (level + 1) τ) w) :
      Written r (.expression level ⟨kind, .text s.spelling, [σ, τ], ()⟩)
        (v ++ ' ' :: (s.chars ++ ' ' :: w))
  | conditional {r : Room} {σ τ υ : Shape} {u v w : List Char}
      (ha : Written r (.expression Level.logicalOr σ) u)
      (hb : Written (.plain (r.expression - 1)) (.expression Level.conditional τ) v)
      (hc : Written (.plain (r.expression - 1)) (.expression Level.conditional υ) w) :
      Written r (.expression Level.conditional ⟨.conditional, .none, [σ, τ, υ], ()⟩)
        (u ++ ' ' :: '?' :: '?' :: ' ' :: (v ++ ' ' :: ':' :: ':' :: ' ' :: w))
  | leftOut {r : Room} : Written r (.bound ⟨.absent, .none, [], ()⟩) []
  | bound {r : Room} {σ : Shape} {w : List Char}
      (h : Written r (.expression Level.primary σ) w) : Written r (.bound σ) w
  /-- A step that is left out leaves no colon. -/
  | twoBounds {r : Room} {σ τ : Shape} {v w : List Char} (ha : Written r (.bound σ) v)
      (hb : Written (.resumed (r.primary - 2)) (.bound τ) w) :
      Written r (.bounds σ τ ⟨.absent, .none, [], ()⟩) (v ++ ':' :: w)
  | threeBounds {r : Room} {σ τ υ : Shape} {u v w : List Char} (ha : Written r (.bound σ) u)
      (hb : Written (.resumed (r.primary - 2)) (.bound τ) v)
      (hc : Written (.resumed (r.primary - 2)) (.expression Level.primary υ) w) :
      Written r (.bounds σ τ υ) (u ++ ':' :: (v ++ ':' :: w))
  | item {r : Room} {k : Series} {σ : Shape} {w : List Char} (hk : k ≠ .entries)
      (h : Written r (.expression Level.conditional σ) w) : Written r (.item k σ) w
  | entry {r : Room} {kind : NodeKind} {text : String} {σ : Shape} {key w : List Char}
      (hkey : IsLiteral kind text key) (hkind : kind = .identifier ∨ kind = .string)
      (h : Written r (.expression Level.conditional σ) w) :
      Written r (.item .entries ⟨.mapEntry, .node σ, [⟨kind, .text text, [], ()⟩], ()⟩)
        (key ++ ':' :: ' ' :: w)
  | noItem {r : Room} {k : Series} : Written r (.series k []) []
  | lastItem {r : Room} {k : Series} {σ : Shape} {w : List Char} (h : Written r (.item k σ) w) :
      Written r (.series k [σ]) w
  | moreItems {r : Room} {k : Series} {σ τ : Shape} {σs : List Shape} {v w : List Char}
      (h : Written r (.item k σ) v) (hs : Written r (.series k (τ :: σs)) w) :
      Written r (.series k (σ :: τ :: σs)) (v ++ ',' :: ' ' :: w)

namespace Written

variable {r q : Room} {form : Form} {w : List Char}

/-- A name is written as it is. -/
theorem name (hr : 0 < r.primary) (h : IsLexeme .identifier w) :
    Written r (.expression Level.primary ⟨.identifier, .text (String.ofList w), [], ()⟩) w :=
  .literal hr ⟨.identifier, h, rfl, rfl⟩

/-- More room allows no less. -/
theorem mono (h : Written r form w) (hr : r ≤ q) : Written q form w := by
  have hplain {a b k : Nat} (h : a ≤ b) : Room.plain (a - k) ≤ Room.plain (b - k) :=
    Room.plain_mono (Nat.sub_le_sub_right h k)
  have hresumed {a b : Nat} (h : a ≤ b) : Room.resumed (a - 2) ≤ Room.resumed (b - 2) :=
    Room.resumed_mono (Nat.sub_le_sub_right h 2)
  induction h generalizing q with
  | looser _ hl ih => exact .looser (ih hr) hl
  | literal hroom h => exact .literal (Nat.lt_of_lt_of_le hroom hr.2.2) h
  | group _ ih => exact .group (ih (hplain hr.2.2))
  | array hroom _ ih => exact .array (Nat.lt_of_lt_of_le hroom hr.2.2) (ih (hplain hr.2.2))
  | map hroom _ ih => exact .map (Nat.lt_of_lt_of_le hroom hr.2.2) (ih (hplain hr.2.2))
  | call _ _ ihf ih => exact .call (ihf hr) (ih (hplain hr.2.1))
  | index hroom _ _ iht ih =>
      exact .index (Nat.lt_of_lt_of_le hroom hr.2.1) (iht hr) (ih (hresumed hr.2.1))
  | slice hroom _ _ iht ih =>
      exact .slice (Nat.lt_of_lt_of_le hroom hr.2.1) (iht hr) (ih (hresumed hr.2.1))
  | member _ hname ih => exact .member (ih hr) hname
  | prefixed hs _ ih => exact .prefixed hs (ih (Room.plain_mono hr.1))
  | iteration _ _ iha ihb => exact .iteration (iha (Room.plain_mono hr.1)) (ihb (hplain hr.1))
  | operation _ hs _ iha ihb => exact .operation (iha hr) hs (ihb (hplain hr.1))
  | conditional _ _ _ iha ihb ihc =>
      exact .conditional (iha hr) (ihb (hplain hr.1)) (ihc (hplain hr.1))
  | leftOut => exact .leftOut
  | bound _ ih => exact .bound (ih hr)
  | twoBounds _ _ iha ihb => exact .twoBounds (iha hr) (ihb (hresumed hr.2.2))
  | threeBounds _ _ _ iha ihb ihc =>
      exact .threeBounds (iha hr) (ihb (hresumed hr.2.2)) (ihc (hresumed hr.2.2))
  | item hk _ ih => exact .item hk (ih hr)
  | entry hkey hkind _ ih => exact .entry hkey hkind (ih hr)
  | noItem => exact .noItem
  | lastItem _ ih => exact .lastItem (ih hr)
  | moreItems _ _ ih ihs => exact .moreItems (ih hr) (ihs hr)

end Written

/-! ### Reading what is written -/

/-- The characters are cut into tokens that the grammar has the part for. -/
def Form.Read (r : Room) (w : List Char) : Form → Prop
  | expression least σ => StartsOperand w ∧
      ∀ p rest, EndsWord rest → ∃ ts t, Lexes p w rest ts ∧ t.shape = σ ∧
        ∀ next, Derives r ts next (.expression least t)
  | bound σ => (w = [] ∧ σ = ⟨.absent, .none, [], ()⟩) ∨
      StartsOperand w ∧
        ∀ p rest, EndsWord rest → ∃ ts t, Lexes p w rest ts ∧ t.shape = σ ∧
          ∀ next, Derives r ts next (.expression Level.primary t)
  | bounds start stop step => ∀ p rest, ∃ ts, Lexes p w (']' :: rest) ts ∧
      ∀ next, ∃ a b c : Node, a.shape = start ∧ b.shape = stop ∧ c.shape = step ∧
        Derives r ts next (.bounds a b c)
  | item k σ => ∀ p rest, EndsWord rest → ∃ ts t, Lexes p w rest ts ∧ t.shape = σ ∧
      ∀ next, Derives r ts next (.item k t)
  | series k σs => ∀ p rest, EndsWord rest → ∃ ts us, Lexes p w rest ts ∧
      us.map Tree.shape = σs ∧ ∀ next, Derives r ts next (.series k us)

section

variable {r : Room} {k l least : Int} {σ τ υ : Shape} {σs : List Shape} {u v w : List Char}
  {kind : NodeKind} {text : String} {s : Symbol}

/-- The lexeme of a literal is read as it. -/
theorem literal_read (hr : 0 < r.primary) (h : IsLiteral kind text w) :
    (Form.expression Level.primary ⟨kind, .text text, [], ()⟩).Read r w := by
  obtain ⟨k, hw, hkind, rfl⟩ := h
  have hsymbol : ∀ s, k ≠ .symbol s := by
    rintro s rfl
    cases hkind
  refine ⟨?_, fun p rest hrest => ?_⟩
  · obtain ⟨c, cs, rfl⟩ := List.exists_cons_of_ne_nil hw.ne_nil
    rcases hw.cases_head with ⟨hc, -⟩ | ⟨hc, -⟩ | ⟨hc, -⟩ | ⟨-, -, s, hs, -⟩
    · exact startsOperand_of_isWordPart (isWordPart_of_isWordStart hc) cs
    · exact startsOperand_of_isWordPart (isWordPart_of_isDigit hc) cs
    · exact startsOperand_of_isQuote hc cs
    · exact absurd hs (hsymbol s)
  · refine ⟨_, _, .word hw hsymbol hrest, ?_, fun next => .literal hr hkind⟩
    simp [Parser.literalText]

/-- Parentheses are read as tokens and leave no trace in the shape. -/
theorem group_read (ih : (Form.expression Level.conditional σ).Read (.plain (r.primary - 1)) w) :
    (Form.expression Level.primary σ).Read r ('(' :: (w ++ [')'])) := by
  refine ⟨⟨_, _, rfl, by decide, by decide⟩, fun p rest _ => ?_⟩
  obtain ⟨ts, t, hts, hshape, hd⟩ :=
    ih.2 (p.after ['(']) (')' :: rest) (endsWord_mark (by simp) _)
  exact ⟨_, t, .behind_closed .lparen rfl (hts.append (.closing .rparen rfl)), hshape,
    fun next => .group rfl (hd _) rfl⟩

/-- The items are read between the marks of an array. -/
theorem array_read (hr : 1 < r.primary)
    (ih : (Form.series .elements σs).Read (.plain (r.primary - 2)) w) :
    (Form.expression Level.primary ⟨.array, .none, σs, ()⟩).Read r
      ('#' :: '[' :: (w ++ [']'])) := by
  refine ⟨⟨_, _, rfl, by decide, by decide⟩, fun p rest _ => ?_⟩
  obtain ⟨ts, us, hts, hshape, hd⟩ :=
    ih (p.after ['#', '[']) (']' :: rest) (endsWord_mark (by simp) _)
  exact ⟨_, _, .behind_closed .arrayOpen rfl (hts.append (.closing .rbracket rfl)),
    by rw [Tree.shape_none, hshape], fun next => .array hr rfl (hd _) rfl⟩

/-- The entries are read between the marks of a map. -/
theorem map_read (hr : 1 < r.primary)
    (ih : (Form.series .entries σs).Read (.plain (r.primary - 2)) w) :
    (Form.expression Level.primary ⟨.map, .none, σs, ()⟩).Read r
      ('#' :: '\x7b' :: (w ++ ['\x7d'])) := by
  refine ⟨⟨_, _, rfl, by decide, by decide⟩, fun p rest _ => ?_⟩
  obtain ⟨ts, us, hts, hshape, hd⟩ :=
    ih (p.after ['#', '\x7b']) ('\x7d' :: rest) (endsWord_mark (by simp) _)
  exact ⟨_, _, .behind_closed .mapOpen rfl (hts.append (.closing .rbrace rfl)),
    by rw [Tree.shape_none, hshape], fun next => .map hr rfl (hd _) rfl⟩

/-- The arguments are read behind the expression that is called. -/
theorem call_read (ihf : (Form.expression Level.suffixed σ).Read r v)
    (ih : (Form.series .arguments σs).Read (.plain (r.suffixed - 1)) w) :
    (Form.expression Level.suffixed ⟨.call, .node σ, σs, ()⟩).Read r
      (v ++ '(' :: (w ++ [')'])) := by
  refine ⟨ihf.1.append, fun p rest _ => ?_⟩
  obtain ⟨vs, t, hvs, rfl, hf⟩ :=
    ihf.2 p ('(' :: (w ++ [')']) ++ rest) (endsWord_mark (by simp) _)
  obtain ⟨ts, us, hts, rfl, hd⟩ :=
    ih ((p.after v).after ['(']) (')' :: rest) (endsWord_mark (by simp) _)
  exact ⟨_, _, hvs.append (.behind_closed .lparen rfl (hts.append (.closing .rparen rfl))),
    Tree.shape_node .., fun next => .call (hf _) rfl (hd _) rfl⟩

/-- The index is read in brackets, behind the indexed expression. -/
theorem index_read (hr : 3 < r.suffixed)
    (iht : (Form.expression Level.suffixed σ).Read r v)
    (ih : (Form.expression Level.conditional τ).Read (.resumed (r.suffixed - 2)) w) :
    (Form.expression Level.suffixed ⟨.index, .none, [σ, τ], ()⟩).Read r
      (v ++ '[' :: (w ++ [']'])) := by
  refine ⟨iht.1.append, fun p rest _ => ?_⟩
  obtain ⟨vs, t, hvs, rfl, ht⟩ :=
    iht.2 p ('[' :: (w ++ [']']) ++ rest) (endsWord_mark (by simp) _)
  obtain ⟨ts, u, hts, rfl, hd⟩ :=
    ih.2 ((p.after v).after ['[']) (']' :: rest) (endsWord_mark (by simp) _)
  exact ⟨_, _, hvs.append (.behind_closed .lbracket rfl (hts.append (.closing .rbracket rfl))),
    Tree.shape_none .., fun next => .index hr (ht _) rfl (hd _) rfl⟩

/-- The bounds are read in brackets, behind the sliced expression. -/
theorem slice_read {start stop step : Shape} (hr : 3 < r.suffixed)
    (iht : (Form.expression Level.suffixed σ).Read r v)
    (ih : (Form.bounds start stop step).Read (.resumed (r.suffixed - 2)) w) :
    (Form.expression Level.suffixed ⟨.slice, .none, [σ, start, stop, step], ()⟩).Read r
      (v ++ '[' :: (w ++ [']'])) := by
  refine ⟨iht.1.append, fun p rest _ => ?_⟩
  obtain ⟨vs, t, hvs, rfl, ht⟩ :=
    iht.2 p ('[' :: (w ++ [']']) ++ rest) (endsWord_mark (by simp) _)
  obtain ⟨ts, hts, hd⟩ := ih ((p.after v).after ['[']) rest
  have hclose : Lexes (((p.after v).after ['[']).after w) [']'] rest _ := .closing .rbracket rfl
  obtain ⟨a, b, c, rfl, rfl, rfl, hbounds⟩ := hd ⟨.symbol .rbracket, Symbol.rbracket.spelling,
    ((p.after v).after ['[']).after w⟩
  exact ⟨_, _, hvs.append (.behind_closed .lbracket rfl (hts.append hclose)),
    Tree.shape_none .., fun next => .slice hr (ht _) rfl hbounds rfl⟩

/-- The name is read behind a point, which is no part of a number there. -/
theorem member_read (iht : (Form.expression Level.suffixed σ).Read r v)
    (hname : IsLexeme .identifier w) :
    (Form.expression Level.suffixed ⟨.member, .text (String.ofList w), [σ], ()⟩).Read r
      (v ++ '.' :: w) := by
  refine ⟨iht.1.append, fun p rest hrest => ?_⟩
  obtain ⟨vs, t, hvs, rfl, ht⟩ := iht.2 p ('.' :: w ++ rest) (hname.endsWord rest)
  have hword : Lexes ((p.after v).after ['.']) w rest _ := .word hname (by simp) hrest
  exact ⟨_, _, hvs.append (.behind_closed .dot rfl hword), Tree.shape_text ..,
    fun next => .member (ht _) rfl rfl⟩

/-! #### Operators -/

/-- The operator is read on its own, since an operand starts with nothing that would extend it. -/
theorem prefixed_read (hs : s.prefixed? = some kind)
    (ih : (Form.expression Level.unary σ).Read (.plain r.expression) w) :
    (Form.expression Level.unary ⟨kind, .text s.spelling, [σ], ()⟩).Read r
      (s.chars ++ w) := by
  refine ⟨?_, fun p rest hrest => ?_⟩
  · cases s <;> first
      | exact ⟨_, _, rfl, by decide, by decide⟩
      | cases hs
  · have hstands : s.Stands (w ++ rest) :=
      ih.1.append.stands (by cases s <;> first | cases hs; done | simp [Symbol.extensions])
    obtain ⟨ts, t, hts, rfl, hd⟩ := ih.2 (p.after s.chars) rest hrest
    exact ⟨_, _, .behind_symbol s hstands hts,
      Tree.shape_text .., fun next => .prefixed hs (hd next)⟩

/-- The two expressions are read behind their marks. -/
theorem iteration_read (iha : (Form.expression Level.suffixed σ).Read (.plain r.expression) v)
    (ihb : (Form.expression Level.unary τ).Read (.plain (r.expression - 2)) w) :
    (Form.expression Level.unary ⟨.iteration, .none, [σ, τ], ()⟩).Read r
      ('@' :: '@' :: ' ' :: (v ++ ' ' :: '>' :: '>' :: ' ' :: w)) := by
  refine ⟨⟨_, _, rfl, by decide, by decide⟩, fun p rest hrest => ?_⟩
  obtain ⟨vs, a, hvs, rfl, ha⟩ := iha.2 ((p.after ['@', '@']).after [' '])
    (' ' :: '>' :: '>' :: ' ' :: w ++ rest) (endsWord_mark (by simp) _)
  obtain ⟨ts, b, hts, rfl, hb⟩ :=
    ihb.2 ((((p.after ['@', '@']).after [' ']).after v).beyond .pipe) rest hrest
  have hne := (hb ⟨.endOfInput, "", p⟩).ne_nil_of_expression
  have hpipe := Lexes.between_blanks .pipe (by decide) hts hne
  exact ⟨_, _, .behind_closed .iter rfl (.behind_blank rfl (hvs.append hpipe) (by simp)),
    Tree.shape_none .., fun next => .iteration rfl (ha _) rfl (hb next)⟩

/-- Blanks on both sides keep the operator apart from the operands. -/
theorem operation_read {level : Int} (iha : (Form.expression level σ).Read r v)
    (hs : s.binary? = some (level, kind))
    (ihb : (Form.expression (level + 1) τ).Read (.plain (r.expression - 1)) w) :
    (Form.expression level ⟨kind, .text s.spelling, [σ, τ], ()⟩).Read r
      (v ++ ' ' :: (s.chars ++ ' ' :: w)) := by
  refine ⟨iha.1.append, fun p rest hrest => ?_⟩
  have hblank : ' ' ∉ s.extensions := by cases s <;> decide
  obtain ⟨vs, a, hvs, rfl, ha⟩ :=
    iha.2 p (' ' :: (s.chars ++ ' ' :: w) ++ rest) (endsWord_mark (by simp) _)
  obtain ⟨ts, b, hts, rfl, hb⟩ := ihb.2 ((p.after v).beyond s) rest hrest
  have hne := (hb ⟨.endOfInput, "", p⟩).ne_nil_of_expression
  exact ⟨_, _, hvs.append (.between_blanks s hblank hts hne), Tree.shape_text ..,
    fun next => .operation (ha _) hs (hb next)⟩

/-- Blanks on both sides keep both marks apart from the three expressions. -/
theorem conditional_read (iha : (Form.expression Level.logicalOr σ).Read r u)
    (ihb : (Form.expression Level.conditional τ).Read (.plain (r.expression - 1)) v)
    (ihc : (Form.expression Level.conditional υ).Read (.plain (r.expression - 1)) w) :
    (Form.expression Level.conditional ⟨.conditional, .none, [σ, τ, υ], ()⟩).Read r
      (u ++ ' ' :: '?' :: '?' :: ' ' :: (v ++ ' ' :: ':' :: ':' :: ' ' :: w)) := by
  refine ⟨iha.1.append, fun p rest hrest => ?_⟩
  obtain ⟨us, a, hus, rfl, ha⟩ := iha.2 p
    (' ' :: '?' :: '?' :: ' ' :: (v ++ ' ' :: ':' :: ':' :: ' ' :: w) ++ rest)
    (endsWord_mark (by simp) _)
  obtain ⟨vs, b, hvs, rfl, hb⟩ := ihb.2 ((p.after u).beyond .cond)
    (' ' :: ':' :: ':' :: ' ' :: w ++ rest) (endsWord_mark (by simp) _)
  obtain ⟨ts, c, hts, rfl, hc⟩ :=
    ihc.2 ((((p.after u).beyond .cond).after v).beyond .alt) rest hrest
  have hne := (hc ⟨.endOfInput, "", p⟩).ne_nil_of_expression
  have halt := hvs.append (Lexes.between_blanks .alt (by decide) hts hne)
  exact ⟨_, _, hus.append (Lexes.between_blanks .cond (by decide) halt (by simp)),
    Tree.shape_none .., fun next => .conditional (ha _) rfl (hb _) rfl (hc next)⟩

/-! #### Bounds and items -/

/-- A bound, which may be left out, in front of a text that may follow it. -/
theorem bound_read (ih : (Form.bound σ).Read r w) (p : Position) {rest : List Char}
    (hrest : EndsWord rest) : ∃ ts, Lexes p w rest ts ∧ ∀ next, ∃ t : Node, t.shape = σ ∧
      Derives r ts next (.bound t) := by
  rcases ih with ⟨rfl, rfl⟩ | ⟨-, ih⟩
  · exact ⟨[], .nil, fun next => ⟨_, Tree.shape_none .., .leftOut⟩⟩
  · obtain ⟨ts, t, hts, hshape, hd⟩ := ih p rest hrest
    exact ⟨ts, hts, fun next => ⟨t, hshape, .bound (hd next)⟩⟩

/-- Two bounds are read with a colon between them. Neither ends with one. -/
theorem twoBounds_read (iha : (Form.bound σ).Read r v)
    (ihb : (Form.bound τ).Read (.resumed (r.primary - 2)) w) :
    (Form.bounds σ τ ⟨.absent, .none, [], ()⟩).Read r (v ++ ':' :: w) := by
  intro p rest
  have hclose : EndsWord (']' :: rest) := endsWord_mark (by simp) _
  obtain ⟨vs, hvs, hleft⟩ := bound_read iha p (endsWord_colon (w ++ ']' :: rest))
  obtain ⟨ts, hts, hright⟩ := bound_read ihb ((p.after v).after [':']) hclose
  have hcolon :=
    Lexes.behind_symbol .colon (stands_colon (ihb.imp And.left And.left) (by decide) rest) hts
  refine ⟨_, hvs.append hcolon, fun next => ?_⟩
  obtain ⟨a, rfl, ha⟩ := hleft ⟨.symbol .colon, Symbol.colon.spelling, p.after v⟩
  obtain ⟨b, rfl, hb⟩ := hright next
  exact ⟨a, b, _, rfl, rfl, Tree.shape_none .., .twoBounds ha rfl hb⟩

/-- Two colons with nothing between them are one token. -/
theorem threeBounds_read (iha : (Form.bound σ).Read r u)
    (ihb : (Form.bound τ).Read (.resumed (r.primary - 2)) v)
    (ihc : (Form.expression Level.primary υ).Read (.resumed (r.primary - 2)) w) :
    (Form.bounds σ τ υ).Read r (u ++ ':' :: (v ++ ':' :: w)) := by
  intro p rest
  have hclose : EndsWord (']' :: rest) := endsWord_mark (by simp) _
  rcases ihb with ⟨rfl, rfl⟩ | ⟨hstart, hmiddle⟩
  · obtain ⟨us, hus, hleft⟩ := bound_read iha p (endsWord_colon (':' :: w ++ ']' :: rest))
    obtain ⟨ts, c, hts, rfl, hc⟩ := ihc.2 ((p.after u).after [':', ':']) (']' :: rest) hclose
    refine ⟨_, hus.append (.behind_closed .alt rfl hts), fun next => ?_⟩
    obtain ⟨a, rfl, ha⟩ := hleft ⟨.symbol .alt, Symbol.alt.spelling, p.after u⟩
    exact ⟨a, _, c, rfl, Tree.shape_none .., rfl, .outerBounds ha rfl (.bound (hc next))⟩
  · obtain ⟨us, hus, hleft⟩ := bound_read iha p (endsWord_colon (v ++ ':' :: w ++ ']' :: rest))
    obtain ⟨vs, b, hvs, rfl, hb⟩ :=
      hmiddle ((p.after u).after [':']) (':' :: w ++ ']' :: rest) (endsWord_mark (by simp) _)
    obtain ⟨ts, c, hts, rfl, hc⟩ :=
      ihc.2 ((((p.after u).after [':']).after v).after [':']) (']' :: rest) hclose
    have hsecond := Lexes.behind_symbol .colon (stands_colon (.inr ihc.1) (by decide) rest) hts
    have hfirst := Lexes.behind_symbol .colon
      (hstart.append.append.stands (by simp [Symbol.extensions])) (hvs.append hsecond)
    refine ⟨_, hus.append hfirst, fun next => ?_⟩
    obtain ⟨a, rfl, ha⟩ := hleft ⟨.symbol .colon, Symbol.colon.spelling, p.after u⟩
    exact ⟨a, b, c, rfl, rfl, rfl, .threeBounds ha rfl (.bound (hb _)) rfl (.bound (hc next))⟩

/-- An item is read as the expression that it is. -/
theorem item_read {k : Series} (hk : k ≠ .entries)
    (ih : (Form.expression Level.conditional σ).Read r w) : (Form.item k σ).Read r w := by
  intro p rest hrest
  obtain ⟨ts, t, hts, hshape, hd⟩ := ih.2 p rest hrest
  exact ⟨ts, t, hts, hshape, fun next => .item hk (hd next)⟩

/-- The key is read in front of its colon, and the value behind a blank. -/
theorem entry_read {key : List Char} (hkey : IsLiteral kind text key)
    (hkind : kind = .identifier ∨ kind = .string)
    (ih : (Form.expression Level.conditional σ).Read r w) :
    (Form.item .entries ⟨.mapEntry, .node σ, [⟨kind, .text text, [], ()⟩], ()⟩).Read r
      (key ++ ':' :: ' ' :: w) := by
  intro p rest hrest
  obtain ⟨k, hlexeme, hliteral, rfl⟩ := hkey
  have hk : (k = .identifier ∨ k = .string) ∧
      kind = if k = .string then .string else .identifier := by
    cases k <;> cases hliteral
    · exact ⟨.inl rfl, rfl⟩
    · rcases hkind with hkind | hkind <;> cases hkind
    · exact ⟨.inr rfl, rfl⟩
    · rcases hkind with hkind | hkind <;> cases hkind
  have hsymbol : ∀ s, k ≠ .symbol s := by
    rintro s rfl
    cases hliteral
  obtain ⟨ts, t, hts, rfl, hd⟩ := ih.2 (((p.after key).after [':']).after [' ']) rest hrest
  have hne := (hd ⟨.endOfInput, "", p⟩).ne_nil_of_expression
  have hword : Lexes p key (':' :: ' ' :: w ++ rest) _ :=
    .word hlexeme hsymbol (endsWord_mark (by simp) (' ' :: w ++ rest))
  have hcolon := Lexes.behind_symbol .colon
    (Symbol.stands_cons (by decide) (w ++ rest)) (Lexes.behind_blank rfl hts hne)
  refine ⟨_, _, hword.append hcolon, ?_, fun next => .entry hk.1 rfl (hd next)⟩
  simp [Parser.literalText, hk.2]

/-- Nothing is read where there is no item. -/
theorem noItem_read {k : Series} : (Form.series k []).Read r [] :=
  fun _ _ _ => ⟨[], [], .nil, rfl, fun _ => .noItem⟩

/-- The last item is read in front of the closing mark. -/
theorem lastItem_read {k : Series} (ih : (Form.item k σ).Read r w) :
    (Form.series k [σ]).Read r w := by
  intro p rest hrest
  obtain ⟨ts, t, hts, rfl, hd⟩ := ih p rest hrest
  exact ⟨ts, [t], hts, rfl, fun next => .lastItem (hd next)⟩

/-- The other items are read behind a comma and a blank. -/
theorem moreItems_read {k : Series} (ih : (Form.item k σ).Read r v)
    (ihs : (Form.series k (τ :: σs)).Read r w) :
    (Form.series k (σ :: τ :: σs)).Read r (v ++ ',' :: ' ' :: w) := by
  intro p rest hrest
  obtain ⟨vs, t, hvs, rfl, ht⟩ :=
    ih p (',' :: ' ' :: w ++ rest) (endsWord_mark (by simp) _)
  obtain ⟨ts, us, hts, hshape, hd⟩ := ihs (((p.after v).after [',']).after [' ']) rest hrest
  have hus : us ≠ [] := by
    rintro rfl
    cases hshape
  have hne := (hd ⟨.endOfInput, "", p⟩).ne_nil_of_series hus
  exact ⟨_, t :: us, hvs.append (.behind_closed .comma rfl (.behind_blank rfl hts hne)),
    by rw [List.map_cons, hshape], fun next => .moreItems (ht _) rfl (hd next) fun _ => hus⟩

end

/-- What is written is cut into tokens of the grammar, for the same part. -/
theorem Written.read {r : Room} {form : Form} {w : List Char} (h : Written r form w) :
    form.Read r w := by
  induction h with
  | looser _ hl ih =>
      refine ⟨ih.1, fun p rest hrest => ?_⟩
      obtain ⟨ts, t, hts, hshape, hd⟩ := ih.2 p rest hrest
      exact ⟨ts, t, hts, hshape, fun next => .looser (hd next) hl⟩
  | literal hr h => exact literal_read hr h
  | group _ ih => exact group_read ih
  | array hr _ ih => exact array_read hr ih
  | map hr _ ih => exact map_read hr ih
  | call _ _ ihf ih => exact call_read ihf ih
  | index hr _ _ iht ih => exact index_read hr iht ih
  | slice hr _ _ iht ih => exact slice_read hr iht ih
  | member _ hname ih => exact member_read ih hname
  | prefixed hs _ ih => exact prefixed_read hs ih
  | iteration _ _ iha ihb => exact iteration_read iha ihb
  | operation _ hs _ iha ihb => exact operation_read iha hs ihb
  | conditional _ _ _ iha ihb ihc => exact conditional_read iha ihb ihc
  | leftOut => exact .inl ⟨rfl, rfl⟩
  | bound _ ih => exact .inr ih
  | twoBounds _ _ iha ihb => exact twoBounds_read iha ihb
  | threeBounds _ _ _ iha ihb ihc => exact threeBounds_read iha ihb ihc
  | item hk _ ih => exact item_read hk ih
  | entry hkey hkind _ ih => exact entry_read hkey hkind ih
  | noItem => exact noItem_read
  | lastItem _ ih => exact lastItem_read ih
  | moreItems _ _ ih ihs => exact moreItems_read ih ihs

end Sigil
