import Sigil.Proofs.Grammar.Complete
import Sigil.Proofs.Print.Lines
import Sigil.Proofs.Print.Simplify

/-!
# Printing what was read

What is printed for a phrase has no words but those of the tokens that the phrase was read from. The
tokens are simplified step by step to the words that are printed, and they are the same phrase all
the way: parentheses that only group are left out, commas behind last items, and colons in front of
steps that are left out.

An expression keeps its words at every place it may stand at. Where the place asks for a higher
level than that of the expression, the tokens have parentheses that stay.

## Main definitions

* `Keeps`: the printed text has the words that are left of some tokens.
* `KeepsExpression`: an expression keeps its words at every place.
* `Phrase.Kept`: what is printed for a phrase has no words but those of its tokens.

## Main results

* `Derives.kept`: every phrase keeps to the words of its tokens.
-/

namespace Sigil

open Source

/-! ### Expressions at their places -/

/-- There is a text, and the tokens are simplified step by step to the words of the text. -/
def Keeps (printed : Printed) (P : List Token → Prop) (w : List Token) : Prop :=
  ∃ text v, printed = .ok text ∧ Spells text.toList v ∧ Tidies P w v

/-- The second tokens are the first ones, in parentheses if these are needed. -/
def Enclosed (needed : Prop) (v v' : List Token) : Prop :=
  (¬ needed ∧ v' = v) ∨ needed ∧ ∃ o c : Token,
    o.IsSymbol .lparen ∧ c.IsSymbol .rparen ∧ v' = o :: (v ++ [c])

/-- The tokens, which are the expression at a place that asks for a level, are simplified to the
tokens of the text of the expression. At places that ask for a higher level than that of the
expression one pair of parentheses is left. -/
def KeepsExpression (r : Room) (least : Int) (w : List Token) (t : Node) : Prop :=
  ∃ level text v, t.kind.level? = some level ∧
    (∀ k, expression t k = .ok (atLevel k level text)) ∧ Spells text.toList v ∧
    MadeOf r (.expression level t.shape) v ∧
    ∀ k ≤ least, ∃ v', Enclosed (level < k) v v' ∧ Tidies (MadeOf r (.expression k t.shape)) w v'

/-- The bound is left out, or it is an expression at its place. -/
def KeepsBound (r : Room) (w : List Token) (t : Node) : Prop :=
  (t.shape = ⟨.absent, .none, [], ()⟩ ∧ w = []) ∨ t.kind ≠ .absent ∧
    ∃ text v, expression t Level.primary = .ok text ∧ StartsOperand text.toList ∧
      Spells text.toList v ∧ Tidies (MadeOf r (.expression Level.primary t.shape)) w v

/-- The text of an item of a series. -/
def Source.printedItem : Series → Node → Printed
  | .arguments | .elements => fun t => expression t Level.conditional
  | .entries => entry

/-- What is printed for the phrase has no words but those of the tokens. Whether a comma or a colon
at the end of a series or of bounds is redundant shows at the mark behind it, so this is included
there. -/
def Phrase.Kept (r : Room) (w : List Token) (next : Token) : Phrase → Prop
  | expression least t => KeepsExpression r least w t
  | bound t => KeepsBound r w t
  | bounds start stop step => ∀ c, c.IsSymbol .rbracket → ∃ u v x y,
      Source.bound start = .ok u ∧ Source.bound stop = .ok v ∧ Source.step step = .ok x ∧
        Spells (u.toList ++ ':' :: (v.toList ++ (x.toList ++ [']']))) (y ++ [c]) ∧
          Tidies (Closed (MadeOf r (.bounds start.shape stop.shape step.shape)) c) (w ++ [c])
            (y ++ [c])
  | item s t => Keeps (printedItem s t) (MadeOf r (.item s t.shape)) w
  | series s ts => ∃ texts v, ts.mapM (printedItem s) = .ok texts ∧
      Spells (Text.joined ", " texts).toList v ∧ (ts ≠ [] → texts ≠ []) ∧
        ∀ c, c.IsSymbol s.close →
          Tidies (Closed (MadeOf r (.series s (ts.map Tree.shape))) c) (w ++ [c]) (v ++ [c])
  | statement t => (IsBare t.shape → next.kind.EndsStatement) ∧
      ∀ (width : Int) (depth : Nat), ∃ ls v, ls ≠ [] ∧ Lays width depth t ls ∧
        Spells (Text.joined "\n" ls).toList v ∧ Tidies (StatementOf r (Clear w next) t.shape) w v
  | statements ts => ∀ (width : Int) (depth : Nat), ∃ ls v, (ls = [] ↔ ts = []) ∧
      LaysAll width depth ts ls ∧ Spells (Text.joined "\n" ls).toList v ∧
        Tidies (StatementsOf r (Clear w next) (ts.map Tree.shape)) w v

section

variable {r : Room} {k l least level : Int} {w v u : List Token} {o m c name next : Token}
  {a b d t : Node} {σ : Shape} {text : String} {kind : NodeKind} {mark : Extent}

/-- An expression keeps its words at every place that the tokens may stand at. -/
theorem KeepsExpression.keeps (h : KeepsExpression r least w t) (hk : k ≤ least) :
    Keeps (expression t k) (MadeOf r (.expression k t.shape)) w := by
  obtain ⟨level, text, v, -, hprint, hspells, -, hall⟩ := h
  obtain ⟨v', henclosed, htidies⟩ := hall k hk
  rcases henclosed with ⟨hlevel, rfl⟩ | ⟨hlevel, o, c, ho, hc, rfl⟩
  · exact ⟨text, v', by rw [hprint, atLevel, if_neg hlevel], hspells, htidies⟩
  · refine ⟨"(" ++ text ++ ")", _, by rw [hprint, atLevel, if_pos hlevel], ?_, htidies⟩
    rw [String.toList_append, String.toList_append, List.append_assoc]
    exact .bracketed ho rfl hspells hc rfl fun _ => endsWord_mark (by simp) _

/-- A tight expression may stand where a looser one is asked for. -/
theorem KeepsExpression.looser (h : KeepsExpression r k w t) (hl : l ≤ k) :
    KeepsExpression r l w t := by
  obtain ⟨level, text, v, hlevel, hprint, hspells, hv, hall⟩ := h
  exact ⟨level, text, v, hlevel, hprint, hspells, hv, fun j hj => hall j (Int.le_trans hj hl)⟩

/-- An expression of its own level. -/
theorem KeepsExpression.of_tidies (text : String) (hshape : t.shape = σ)
    (hlevel : t.kind.level? = some level)
    (hprint : ∀ k, expression t k = .ok (atLevel k level text)) (hspells : Spells text.toList v)
    (h : Tidies (MadeOf r (.expression level σ)) w v) : KeepsExpression r level w t := by
  subst hshape
  refine ⟨level, text, v, hlevel, hprint, hspells, h.target, fun k hk => ⟨v, ?_, ?_⟩⟩
  · exact .inl ⟨Int.not_lt.2 hk, rfl⟩
  · exact h.mono fun _ hw => hw.looser hk

/-- Parentheses stay where the place asks for more than the level of the expression, and only
there. -/
theorem KeepsExpression.group (ho : o.IsSymbol .lparen) (hc : c.IsSymbol .rparen)
    (h : KeepsExpression (.plain (r.primary - 1)) Level.conditional w t) :
    KeepsExpression r Level.primary (o :: (w ++ [c])) t := by
  obtain ⟨level, text, v, hlevel, hprint, hspells, hv, hall⟩ := h
  have hlow : Level.conditional ≤ level := (level_bounds hlevel).1
  obtain ⟨v', henclosed, htidies⟩ := hall Level.conditional (Int.le_refl _)
  obtain rfl : v' = v := by
    rcases henclosed with ⟨-, rfl⟩ | ⟨hlt, -⟩
    · rfl
    · exact absurd hlow (Int.not_le.2 hlt)
  have hroom := r.enclosed_le
  refine ⟨level, text, v', hlevel, hprint, hspells, hv.mono hroom, fun k hk => ?_⟩
  have hgrouped : Tidies (MadeOf r (.expression k t.shape)) (o :: (w ++ [c]))
      (o :: (v' ++ [c])) :=
    htidies.map (fun v => o :: (v ++ [c])) (fun _ hw => (MadeOf.group ho.1 hc.1 hw).looser hk)
      fun _ _ h => (h.before [c]).behind [o]
  rcases Int.lt_or_le level k with hlt | hle
  · exact ⟨_, .inr ⟨hlt, o, c, ho, hc, rfl⟩, hgrouped⟩
  · refine ⟨v', .inl ⟨Int.not_lt.2 hle, rfl⟩, hgrouped.step ((hv.mono hroom).looser hle) (.inr ?_)⟩
    have hdrops : Drops ([] ++ o :: (v' ++ c :: [])) ([] ++ (v' ++ [])) :=
      .parentheses ho.1 (hv.isExpression.looser hlow) hc.1
    rwa [List.append_nil] at hdrops

/-! ### Primaries -/

/-- The key of a literal is cut into a token with the same word. -/
theorem spells_of_isLiteral {key : List Char} (hkey : IsLiteral kind (Parser.literalText o) key)
    (ho : Parser.literal? o.kind = some kind) : Spells key [o] := by
  obtain ⟨token, hlexeme, htoken, htext⟩ := hkey
  have hkind : o.kind = token := by
    generalize o.kind = token' at ho
    cases token <;> cases token' <;> cases htoken <;> cases ho <;> rfl
  refine .word hlexeme ?_ hkind htext
  rintro s rfl
  cases htoken

/-- A literal keeps its word, though perhaps in other quotation marks. -/
theorem literal_kept (hr : 0 < r.primary) (hw : IsLexeme o.kind o.text.toList)
    (ho : Parser.literal? o.kind = some kind) :
    KeepsExpression r Level.primary [o] ⟨kind, .text (Parser.literalText o), [], mark⟩ := by
  obtain ⟨⟨key, hprint, hkey⟩, hlevel⟩ := printsLiteral_of_token hw ho
  have hmade : MadeOf r (.expression Level.primary _) [o] :=
    ⟨_, Tree.shape_text .., fun _ => .literal hr ho⟩
  exact .of_tidies _ (Tree.shape_text ..) hlevel (hprint _ (Tree.shape_text ..))
    (spells_of_isLiteral hkey ho) (.refl hmade)

/-- The printed items of a series, with commas between them. -/
theorem commaSeparated_of_items {s : Series} {ts : List Node} {texts : List String}
    (hs : s ≠ .entries) (h : ts.mapM (printedItem s) = .ok texts) :
    commaSeparated (expressions ts) = .ok (Text.joined ", " texts) := by
  have hitems : printedItem s = fun t => expression t Level.conditional := by
    cases s <;> first | exact absurd rfl hs | rfl
  rw [commaSeparated_eq, ← hitems, h]
  rfl

/-- What the items lose, the array loses. -/
theorem array_kept {ts : List Node} (hr : 1 < r.primary) (ho : o.IsSymbol .arrayOpen)
    (hc : c.IsSymbol .rbracket)
    (h : (Phrase.series .elements ts).Kept (.plain (r.primary - 2)) w c) :
    KeepsExpression r Level.primary (o :: (w ++ [c])) ⟨.array, .none, ts, mark⟩ := by
  obtain ⟨texts, v, hprint, hspells, -, htidies⟩ := h
  have hprint := commaSeparated_of_items (by decide) hprint
  have hall := (htidies c hc).behind [o] fun _ => MadeOf.array hr ho.1 hc.1
  refine .of_tidies ("#[" ++ Text.joined ", " texts ++ "]") (Tree.shape_none ..) rfl
    (fun k => ?_) ?_ hall
  · rw [expression_array, hprint]
    rfl
  · simp only [String.toList_append, List.append_assoc]
    exact .bracketed ho rfl hspells hc rfl fun _ => endsWord_mark (by simp) _

/-- What the entries lose, the map loses. -/
theorem map_kept {ts : List Node} (hr : 1 < r.primary) (ho : o.IsSymbol .mapOpen)
    (hc : c.IsSymbol .rbrace)
    (h : (Phrase.series .entries ts).Kept (.plain (r.primary - 2)) w c) :
    KeepsExpression r Level.primary (o :: (w ++ [c])) ⟨.map, .none, ts, mark⟩ := by
  obtain ⟨texts, v, hprint, hspells, -, htidies⟩ := h
  have hall := (htidies c hc).behind [o] fun _ => MadeOf.map hr ho.1 hc.1
  refine .of_tidies ("#\x7b" ++ Text.joined ", " texts ++ "\x7d") (Tree.shape_none ..) rfl
    (fun k => ?_) ?_ hall
  · rw [expression_map, entries_eq]
    change ts.mapM entry >>= _ = _
    rw [show ts.mapM entry = .ok texts from hprint]
    rfl
  · simp only [String.toList_append, List.append_assoc]
    exact .bracketed ho rfl hspells hc rfl fun _ => endsWord_mark (by simp) _

/-! ### Suffixes -/

/-- A suffix in brackets behind what it belongs to. -/
theorem spells_suffix {cs ds : List Char} {s s' : Symbol} (hv : Spells cs v) (ho : o.IsSymbol s)
    (hs : s.extensions = []) (hw : Spells ds w) (hc : c.IsSymbol s') (hs' : s'.extensions = [])
    (hopen : ∀ rest, EndsWord (s.chars ++ rest)) (hclose : ∀ rest, EndsWord (s'.chars ++ rest)) :
    Spells (cs ++ (s.chars ++ (ds ++ s'.chars))) (v ++ o :: (w ++ [c])) := by
  refine .append hv (.bracketed ho hs hw hc hs' hclose) fun rest => ?_
  rw [List.append_assoc]
  exact hopen _

/-- What the expression and the arguments lose, the call loses, one after the other. -/
theorem call_kept {ts : List Node} (hf : KeepsExpression r Level.suffixed v t)
    (ho : o.IsSymbol .lparen) (hc : c.IsSymbol .rparen)
    (h : (Phrase.series .arguments ts).Kept (.plain (r.suffixed - 1)) w c) :
    KeepsExpression r Level.suffixed (v ++ o :: (w ++ [c])) ⟨.call, .node t, ts, mark⟩ := by
  obtain ⟨callee, v', hcallee, hv, hfirst⟩ := hf.keeps (Int.le_refl _)
  obtain ⟨texts, w', hprint, hw, -, hsecond⟩ := h
  have hprint := commaSeparated_of_items (by decide) hprint
  have hall := hfirst.pair [] [o] (hsecond c hc) fun _ _ => MadeOf.call ho.1 hc.1
  refine .of_tidies (callee ++ "(" ++ Text.joined ", " texts ++ ")") (Tree.shape_node ..) rfl
    (fun k => ?_) ?_ hall
  · rw [expression_call, hcallee, hprint]
    rfl
  · simp only [String.toList_append, List.append_assoc]
    exact spells_suffix hv ho rfl hw hc rfl (fun _ => endsWord_mark (by simp) _)
      fun _ => endsWord_mark (by simp) _

/-- What the expression and the index lose, the whole loses. -/
theorem index_kept (hr : 3 < r.suffixed) (ht : KeepsExpression r Level.suffixed v t)
    (ho : o.IsSymbol .lbracket) (hc : c.IsSymbol .rbracket)
    (h : KeepsExpression (.resumed (r.suffixed - 2)) Level.conditional w a) :
    KeepsExpression r Level.suffixed (v ++ o :: (w ++ [c]))
      ⟨.index, .none, [t, a], mark⟩ := by
  obtain ⟨object, v', hobject, hv, hfirst⟩ := ht.keeps (Int.le_refl _)
  obtain ⟨index, w', hindex, hw, hsecond⟩ := h.keeps (Int.le_refl _)
  have hall := hfirst.pair [] [o] (hsecond.closed c) fun _ _ => MadeOf.index hr ho.1 hc.1
  refine .of_tidies (object ++ "[" ++ index ++ "]") (Tree.shape_none ..) rfl
    (fun k => ?_) ?_ hall
  · rw [expression_index, hobject, hindex]
    rfl
  · simp only [String.toList_append, List.append_assoc]
    exact spells_suffix hv ho rfl hw hc rfl (fun _ => endsWord_mark (by simp) _)
      fun _ => endsWord_mark (by simp) _

/-- What the expression and the bounds lose, the slice loses. -/
theorem slice_kept (hr : 3 < r.suffixed) (ht : KeepsExpression r Level.suffixed v t)
    (ho : o.IsSymbol .lbracket) (hc : c.IsSymbol .rbracket)
    (h : (Phrase.bounds a b d).Kept (.resumed (r.suffixed - 2)) w c) :
    KeepsExpression r Level.suffixed (v ++ o :: (w ++ [c]))
      ⟨.slice, .none, [t, a, b, d], mark⟩ := by
  obtain ⟨object, v', hobject, hv, hfirst⟩ := ht.keeps (Int.le_refl _)
  obtain ⟨start, stop, step, w', hstart, hstop, hstep, hw, hsecond⟩ := h c hc
  have hall := hfirst.pair [] [o] hsecond fun _ _ => MadeOf.slice hr ho.1 hc.1
  refine .of_tidies (object ++ "[" ++ start ++ ":" ++ stop ++ step ++ "]")
    (Tree.shape_none ..) rfl (fun k => ?_) ?_ hall
  · rw [expression_slice, hobject, hstart, hstop, hstep]
    rfl
  · simp only [String.toList_append, List.append_assoc]
    have hright : Spells ('[' :: _) (o :: (w' ++ [c])) :=
      .behind ho hw fun _ => Symbol.stands_of_closed rfl _
    have hspells := hv.append hright fun _ => endsWord_mark (by simp) _
    exact hspells

/-- What the expression loses, the member loses. -/
theorem member_kept (ht : KeepsExpression r Level.suffixed v t) (ho : o.IsSymbol .dot)
    (hname : name.kind = .identifier) (hlexeme : IsLexeme .identifier name.text.toList) :
    KeepsExpression r Level.suffixed (v ++ [o, name])
      ⟨.member, .text name.text, [t], mark⟩ := by
  obtain ⟨object, v', hobject, hv, hfirst⟩ := ht.keeps (Int.le_refl _)
  have hall := hfirst.before [o, name] fun _ => MadeOf.member ho.1 hname
  refine .of_tidies (object ++ "." ++ name.text) (Tree.shape_text ..) rfl
    (fun k => ?_) ?_ hall
  · rw [expression_member, hobject]
    rfl
  · have hword : Spells name.text.toList [name] :=
      .word hlexeme (by simp) hname (by simp [Parser.literalText, hname])
    have hright : Spells ('.' :: name.text.toList) [o, name] :=
      .behind ho hword fun _ => Symbol.stands_of_closed rfl _
    simp only [String.toList_append, List.append_assoc]
    exact hv.append hright hlexeme.endsWord

/-! ### Operators -/

/-- What the operand loses, the whole loses. -/
theorem prefixed_kept (hw : IsLexeme o.kind o.text.toList)
    (ho : Parser.prefixed? o.kind = some kind)
    (h : KeepsExpression (.plain r.expression) Level.unary w a)
    (hstart : ∀ text, expression a Level.unary = .ok text → StartsOperand text.toList) :
    KeepsExpression r Level.unary (o :: w) ⟨kind, .text o.text, [a], mark⟩ := by
  obtain ⟨s, hs, hkind⟩ := symbol_of_prefixed? ho
  have ho' : o.IsSymbol s := ⟨hs, text_of_symbol hw hs⟩
  have hlevel : kind.level? = some Level.unary := by
    cases s <;> cases hkind <;> rfl
  obtain ⟨operand, w', hoperand, hspells, htidies⟩ := h.keeps (Int.le_refl _)
  have hall := htidies.behind [o] fun _ => MadeOf.prefixed ho
  refine .of_tidies (o.text ++ operand) (Tree.shape_text ..) hlevel (fun k => ?_) ?_ hall
  · rw [expression_prefixed a mark k hkind, hoperand]
    rfl
  · rw [String.toList_append, ho'.2, Symbol.spelling, String.toList_ofList]
    refine .behind ho' hspells fun rest => (hstart _ hoperand).append.stands ?_
    cases s <;> first
      | cases hkind; done
      | simp [Symbol.extensions]

/-- What both expressions lose, the iteration loses. -/
theorem iteration_kept (ho : o.IsSymbol .iter)
    (ha : KeepsExpression (.plain r.expression) Level.suffixed v a)
    (hm : m.IsSymbol .pipe) (hb : KeepsExpression (.plain (r.expression - 2)) Level.unary w b) :
    KeepsExpression r Level.unary (o :: (v ++ m :: w))
      ⟨.iteration, .none, [a, b], mark⟩ := by
  obtain ⟨collection, v', hcollection, hv, hfirst⟩ := ha.keeps (Int.le_refl _)
  obtain ⟨transform, w', htransform, hw, hsecond⟩ := hb.keeps (Int.le_refl _)
  have hall := hfirst.pair [o] [m] hsecond fun _ _ => MadeOf.iteration ho.1 hm.1
  refine .of_tidies ("@@ " ++ collection ++ " >> " ++ transform) (Tree.shape_none ..) rfl
    (fun k => ?_) ?_ hall
  · rw [expression_iteration, hcollection, htransform]
    rfl
  · simp only [String.toList_append, List.append_assoc]
    have hright := hv.between hm (by decide) hw hsecond.target.ne_nil
    exact .behind ho (.blank hright (by simp)) fun _ => Symbol.stands_of_closed rfl _

/-- What both operands lose, the operation loses. -/
theorem operation_kept (ha : KeepsExpression r level v a)
    (ho : IsLexeme o.kind o.text.toList) (hkind : Parser.binary? o.kind = some (level, kind))
    (hb : KeepsExpression (.plain (r.expression - 1)) (level + 1) w b) :
    KeepsExpression r level (v ++ o :: w) ⟨kind, .text o.text, [a, b], mark⟩ := by
  obtain ⟨s, hs, hbinary⟩ := symbol_of_binary? hkind
  have ho' : o.IsSymbol s := ⟨hs, text_of_symbol ho hs⟩
  have hblank : ' ' ∉ s.extensions := by cases s <;> decide
  obtain ⟨left, v', hleft, hv, hfirst⟩ := ha.keeps (Int.le_refl _)
  obtain ⟨right, w', hright, hw, hsecond⟩ := hb.keeps (Int.le_refl _)
  have hall := hfirst.pair [] [o] hsecond fun _ _ => MadeOf.operation hkind
  refine .of_tidies (left ++ " " ++ o.text ++ " " ++ right) (Tree.shape_text ..)
    (Symbol.level_of_binary? hbinary).1 (fun k => ?_) ?_ hall
  · rw [expression_operation a b mark k hbinary, hleft, hright]
    rfl
  · simp only [String.toList_append, ho'.2, Symbol.spelling, String.toList_ofList,
      List.append_assoc]
    exact hv.between ho' hblank hw hsecond.target.ne_nil

/-- What the condition and both branches lose, the conditional loses. -/
theorem conditional_kept (ha : KeepsExpression r Level.logicalOr u a)
    (ho : o.IsSymbol .cond) (hb : KeepsExpression (.plain (r.expression - 1)) Level.conditional v b)
    (hm : m.IsSymbol .alt)
    (hd : KeepsExpression (.plain (r.expression - 1)) Level.conditional w d) :
    KeepsExpression r Level.conditional (u ++ o :: (v ++ m :: w))
      ⟨.conditional, .none, [a, b, d], mark⟩ := by
  obtain ⟨condition, u', hcondition, hu, hfirst⟩ := ha.keeps (Int.le_refl _)
  obtain ⟨consequence, v', hconsequence, hv, hsecond⟩ := hb.keeps (Int.le_refl _)
  obtain ⟨alternative, w', halternative, hw, hthird⟩ := hd.keeps (Int.le_refl _)
  have hbranches : Tidies (MadeOf.Branches (.plain (r.expression - 1)) m b.shape d.shape)
      (v ++ m :: w) (v' ++ m :: w') :=
    hsecond.pair [] [m] hthird fun x y hx hy => ⟨x, y, rfl, hx, hy⟩
  have hall := hfirst.pair [] [o] hbranches fun _ _ => MadeOf.conditional ho.1 hm.1
  refine .of_tidies (condition ++ " ?? " ++ consequence ++ " :: " ++ alternative)
    (Tree.shape_none ..) rfl (fun k => ?_) ?_ hall
  · rw [expression_conditional, hcondition, hconsequence, halternative]
    rfl
  · simp only [String.toList_append, List.append_assoc]
    have halt := hv.between hm (by decide) hw hthird.target.ne_nil
    exact hu.between ho (by decide) halt (by simp)

/-! ### Bounds -/

/-- What is printed for a bound, if it is not left out. -/
theorem KeepsBound.keeps (h : KeepsBound r w t) :
    ∃ text v, Source.bound t = .ok text ∧ Spells text.toList v ∧
      Tidies (MadeOf r (.bound t.shape)) w v ∧
        (text.toList = [] ∧ v = [] ∨ StartsOperand text.toList) := by
  rcases h with ⟨hshape, rfl⟩ | ⟨hkind, text, v, hprint, hstart, hspells, htidies⟩
  · obtain ⟨ts, mark, rfl, -⟩ := Tree.of_shape_none hshape
    refine ⟨"", [], rfl, .nil, ?_, .inl ⟨rfl, rfl⟩⟩
    rw [hshape]
    exact .refl .leftOut
  · have hbound : Source.bound t = .ok text := by rw [Source.bound, if_neg hkind, hprint]
    exact ⟨text, v, hbound, hspells, htidies.mono fun _ => MadeOf.bound, .inr hstart⟩

/-- A single colon. -/
def Token.colon : Token := ⟨.symbol .colon, Symbol.colon.spelling, .start⟩

/-- The colon that the printer puts. -/
theorem Token.isSymbol_colon : Token.colon.IsSymbol .colon := ⟨rfl, rfl⟩

/-- A pair of colons is the same words as two colons. -/
theorem words_alt (ho : o.kind = .symbol .alt) :
    words (v ++ o :: w) = words (v ++ Token.colon :: Token.colon :: w) := by
  simp only [words_append, words_cons, Token.words_of_alt ho]
  rfl

section

variable {cs ds es : List Char} {x y z : List Token}

/-- Two bounds with a colon between them, in front of the end of the slice. -/
theorem spells_twoBounds (hx : Spells cs x) (ho : o.IsSymbol .colon) (hy : Spells ds y)
    (hstart : ds = [] ∨ StartsOperand ds) (hc : c.IsSymbol .rbracket) :
    Spells (cs ++ ':' :: (ds ++ [']'])) ((x ++ o :: y) ++ [c]) := by
  have hright : Spells (ds ++ [']']) (y ++ [c]) :=
    hy.append (.closing hc rfl) fun _ => endsWord_mark (by simp) _
  have hcolon : Spells (':' :: (ds ++ [']'])) (o :: (y ++ [c])) :=
    .colon ho hright fun rest => by
      rw [List.append_assoc]
      exact stands_colon hstart (by decide) rest
  rw [List.append_assoc]
  exact hx.append hcolon fun _ => endsWord_mark (by simp) _

/-- Three bounds with colons between them. With nothing between the colons they are one token. -/
theorem spells_threeBounds (hx : Spells cs x) (ho : o.IsSymbol .colon) (hy : Spells ds y)
    (hstart : ds = [] ∧ y = [] ∨ StartsOperand ds) (hm : m.IsSymbol .colon) (hz : Spells es z)
    (hlast : StartsOperand es) (hc : c.IsSymbol .rbracket) :
    Spells (cs ++ ':' :: (ds ++ ':' :: (es ++ [']']))) ((x ++ o :: (y ++ m :: z)) ++ [c]) := by
  have hright : Spells (es ++ [']']) (z ++ [c]) :=
    hz.append (.closing hc rfl) fun _ => endsWord_mark (by simp) _
  rw [List.append_assoc]
  rcases hstart with ⟨rfl, rfl⟩ | hstart
  · let pair : Token := ⟨.symbol .alt, Symbol.alt.spelling, .start⟩
    have hpair : Spells (Symbol.alt.chars ++ (es ++ [']'])) (pair :: (z ++ [c])) :=
      .behind ⟨rfl, rfl⟩ hright fun _ => Symbol.stands_of_closed rfl _
    have hwords : words (pair :: (z ++ [c])) = words (o :: m :: (z ++ [c])) := by
      simp only [words_cons, ho.words_eq Token.isSymbol_colon, hm.words_eq Token.isSymbol_colon]
      rfl
    exact hx.append (hpair.congr hwords) fun _ => endsWord_mark (by simp) _
  · have hsecond : Spells (':' :: (es ++ [']'])) (m :: (z ++ [c])) :=
      .colon hm hright fun rest => by
        rw [List.append_assoc]
        exact stands_colon (.inr hlast) (by decide) rest
    have hmiddle := hy.append hsecond fun _ => endsWord_mark (by simp) _
    have hfirst : Spells (':' :: (ds ++ ':' :: (es ++ [']']))) (o :: (y ++ m :: (z ++ [c]))) :=
      .colon ho hmiddle fun _ => hstart.append.append.stands (by simp [Symbol.extensions])
    have hall := hx.append hfirst fun _ => endsWord_mark (by simp) _
    simpa using hall

end

/-- Two bounds are printed with one colon, as they are written. -/
theorem twoBounds_kept (iha : KeepsBound r v a) (ho : o.IsSymbol .colon)
    (ihb : KeepsBound (.resumed (r.primary - 2)) w b) (mark : Extent) :
    (Phrase.bounds a b ⟨.absent, .none, [], mark⟩).Kept r (v ++ o :: w) next := by
  intro c hc
  obtain ⟨start, v', hstart, hv, hfirst, -⟩ := iha.keeps
  obtain ⟨stop, w', hstop, hw, hsecond, hleft⟩ := ihb.keeps
  rw [Tree.shape_none]
  refine ⟨start, stop, "", v' ++ o :: w', hstart, hstop, rfl, ?_, ?_⟩
  · exact spells_twoBounds hv ho hw (hleft.imp_left And.left) hc
  · exact (hfirst.pair [] [o] hsecond fun _ _ => MadeOf.twoBounds ho.1).closed c

/-- The text of a step that is there starts with a colon. -/
theorem step_of_expression (hkind : d.kind ≠ .absent)
    (h : expression d Level.primary = .ok text) : Source.step d = .ok (":" ++ text) := by
  rw [Source.step, if_neg hkind, h]
  rfl

/-- A colon behind which no step comes is left out. -/
theorem drop_colon {P : List Token → Prop} {x : List Token} (hm : m.kind = .symbol .colon)
    (hc : c.kind = .symbol .rbracket) (h : Tidies (Closed P c) w ((x ++ [m]) ++ [c]))
    (hx : P x) : Tidies (Closed P c) w (x ++ [c]) := by
  refine h.step ⟨x, rfl, hx⟩ (.inr ?_)
  rw [List.append_assoc]
  exact .colon hm hc

/-- A third bound that is left out loses its colon. If it is there both colons are kept. -/
theorem threeBounds_kept (iha : KeepsBound r u a) (ho : o.IsSymbol .colon)
    (ihb : KeepsBound (.resumed (r.primary - 2)) v b)
    (hm : m.IsSymbol .colon) (ihd : KeepsBound (.resumed (r.primary - 2)) w d) :
    (Phrase.bounds a b d).Kept r (u ++ o :: (v ++ m :: w)) next := by
  intro c hc
  obtain ⟨start, u', hstart, hu, hfirst, -⟩ := iha.keeps
  obtain ⟨stop, v', hstop, hv, hsecond, hleft⟩ := ihb.keeps
  rcases ihd with ⟨hshape, rfl⟩ | ⟨hkind, step, w', hstep, hoperand, hw, hthird⟩
  · obtain ⟨ts, mark, rfl, -⟩ := Tree.of_shape_none hshape
    rw [hshape]
    refine ⟨start, stop, "", u' ++ o :: v', hstart, hstop, rfl, ?_, ?_⟩
    · exact spells_twoBounds hu ho hv (hleft.imp_left And.left) hc
    · have hall : Tidies (MadeOf r (.bounds a.shape b.shape ⟨.absent, .none, [], ()⟩))
          (u ++ o :: (v ++ [m])) ((u' ++ o :: v') ++ [m]) := by
        rw [List.append_assoc]
        refine hfirst.pair [] [o] (hsecond.closed m) ?_
        rintro x _ hx ⟨y, rfl, hy⟩
        exact .threeBounds ho.1 hm.1 hx hy .leftOut
      exact drop_colon hm.1 hc.1 (hall.closed c) (.twoBounds ho.1 hfirst.target hsecond.target)
  · refine ⟨start, stop, _, u' ++ o :: (v' ++ m :: w'), hstart, hstop,
      step_of_expression hkind hstep, ?_, ?_⟩
    · rw [String.toList_append, List.append_assoc]
      exact spells_threeBounds hu ho hv hleft hm hw hoperand hc
    · have hright : Tidies (fun x => ∃ y z, x = y ++ m :: z ∧
          MadeOf (.resumed (r.primary - 2)) (.bound b.shape) y ∧
          MadeOf (.resumed (r.primary - 2)) (.expression Level.primary d.shape) z)
          (v ++ m :: w) (v' ++ m :: w') :=
        hsecond.pair [] [m] hthird fun y z hy hz => ⟨y, z, rfl, hy, hz⟩
      refine (hfirst.pair [] [o] hright ?_).closed c
      rintro x _ hx ⟨y, z, rfl, hy, hz⟩
      exact .threeBounds ho.1 hm.1 hx hy hz.bound

/-- A pair of colons with no step behind it is a single colon that is needed, and another one. -/
theorem outerBounds_kept (iha : KeepsBound r v a) (ho : o.kind = .symbol .alt)
    (ihd : KeepsBound (.resumed (r.primary - 2)) w d) (mark : Extent) :
    (Phrase.bounds a ⟨.absent, .none, [], mark⟩ d).Kept r (v ++ o :: w) next := by
  intro c hc
  obtain ⟨start, v', hstart, hv, hfirst, -⟩ := iha.keeps
  have hcolon := Token.isSymbol_colon
  rw [Tree.shape_none]
  rcases ihd with ⟨hshape, rfl⟩ | ⟨hkind, step, w', hstep, hoperand, hw, hsecond⟩
  · obtain ⟨ts, mark', rfl, -⟩ := Tree.of_shape_none hshape
    rw [hshape]
    refine ⟨start, "", "", v' ++ [.colon], hstart, rfl, rfl, ?_, ?_⟩
    · exact spells_twoBounds hv hcolon .nil (.inl rfl) hc
    · have hall : Tidies (MadeOf r (.bounds a.shape ⟨.absent, .none, [], ()⟩
          ⟨.absent, .none, [], ()⟩)) (v ++ [o]) (v' ++ [o]) :=
        hfirst.before [o] fun _ hx => .outerBounds ho hx .leftOut
      have hpair : Tidies (MadeOf r (.bounds a.shape ⟨.absent, .none, [], ()⟩
          ⟨.absent, .none, [], ()⟩)) (v ++ [o]) ((v' ++ [.colon]) ++ [.colon]) := by
        refine hall.step ?_ (.inl ?_)
        · rw [List.append_assoc]
          exact .threeBounds hcolon.1 hcolon.1 hfirst.target .leftOut .leftOut
        · rw [List.append_assoc]
          exact (words_alt ho).symm
      exact drop_colon hcolon.1 hc.1 (hpair.closed c)
        (.twoBounds hcolon.1 hfirst.target .leftOut)
  · refine ⟨start, "", _, v' ++ o :: w', hstart, rfl, step_of_expression hkind hstep, ?_, ?_⟩
    · have hspells := spells_threeBounds hv hcolon .nil (.inl ⟨rfl, rfl⟩) hcolon hw hoperand hc
      rw [String.toList_append, List.append_assoc]
      refine hspells.congr ?_
      rw [List.nil_append, List.append_assoc, List.append_assoc]
      exact (words_alt ho).symm
    · exact (hfirst.pair [] [o] hsecond fun _ _ hx hy => .outerBounds ho hx hy.bound).closed c

/-! ### Items -/

/-- What the expression loses, the item loses. -/
theorem item_kept {s : Series} (hs : s ≠ .entries)
    (h : KeepsExpression r Level.conditional w t) : (Phrase.item s t).Kept r w next := by
  obtain ⟨text, v, hprint, hspells, htidies⟩ := h.keeps (Int.le_refl _)
  refine ⟨text, v, ?_, hspells, htidies.mono fun _ => MadeOf.item hs⟩
  cases s with
  | entries => exact absurd rfl hs
  | _ => exact hprint

/-- The key of an entry keeps its word as a literal does. -/
theorem entry_kept {mark' : Extent} (hw : IsLexeme name.kind name.text.toList)
    (hname : name.kind = .identifier ∨ name.kind = .string) (ho : o.IsSymbol .colon)
    (h : KeepsExpression r Level.conditional w t) :
    (Phrase.item .entries
      ⟨.mapEntry, .node t,
        [⟨if name.kind = .string then .string else .identifier, .text (Parser.literalText name), [],
          mark⟩], mark'⟩).Kept r (name :: o :: w) next := by
  have hliteral := literal?_of_key hname
  obtain ⟨⟨key, hkey, hword⟩, -⟩ := printsLiteral_of_token hw hliteral
  obtain ⟨value, v, hvalue, hspells, htidies⟩ := h.keeps (Int.le_refl _)
  have hall := htidies.behind [name, o] fun _ => MadeOf.entry hname ho.1
  refine ⟨key ++ ": " ++ value, name :: o :: v,
    entry_of_expressions _ _ _ _ (hkey _ (Tree.shape_text ..) _) hvalue, ?_, ?_⟩
  · have hright : Spells (':' :: ' ' :: value.toList) (o :: v) :=
      .colon ho (.blank hspells htidies.target.ne_nil) fun _ => Symbol.stands_cons (by decide) _
    have hall := (spells_of_isLiteral hword hliteral).append hright
      fun _ => endsWord_mark (by simp) _
    simp only [String.toList_append, List.append_assoc]
    exact hall
  · rw [Tree.shape_node, List.map_singleton, Tree.shape_text]
    exact hall

section

variable {s : Series} {ts : List Node}

/-- No items are printed as nothing. -/
theorem noItem_kept : (Phrase.series s []).Kept r [] next :=
  ⟨[], [], rfl, .nil, fun h => absurd rfl h, fun _ _ => .refl ⟨[], rfl, .noItem⟩⟩

/-- What the item loses, the series loses. -/
theorem lastItem_kept (h : (Phrase.item s t).Kept r w next) :
    (Phrase.series s [t]).Kept r w next := by
  obtain ⟨text, v, hprint, hspells, htidies⟩ := h
  refine ⟨[text], v, ?_, hspells, by simp, fun c _ => ?_⟩
  · rw [List.mapM_cons, hprint]
    rfl
  · exact (htidies.mono fun _ => MadeOf.lastItem).closed c

/-- A comma behind which no item comes is left out. -/
theorem trailingComma_kept (h : (Phrase.item s t).Kept r v o) (ho : o.kind = .symbol .comma)
    (hs : s ≠ .arguments) : (Phrase.series s [t]).Kept r (v ++ [o]) next := by
  obtain ⟨text, v', hprint, hspells, htidies⟩ := h
  refine ⟨[text], v', ?_, hspells, by simp, fun c hc => ?_⟩
  · rw [List.mapM_cons, hprint]
    rfl
  · have hall := htidies.before [o] fun _ hv =>
      MadeOf.moreItems ho hv .noItem fun heq => absurd heq hs
    refine (hall.closed c).step ⟨v', rfl, .lastItem htidies.target⟩ (.inr ?_)
    rw [List.append_assoc]
    refine .comma ho ?_
    cases s with
    | arguments => exact absurd rfl hs
    | elements => exact .inl hc.1
    | entries => exact .inr hc.1

/-- What an item and the others behind a comma lose, the series loses. -/
theorem moreItems_kept (h : (Phrase.item s t).Kept r v o) (ho : o.IsSymbol .comma) (hts : ts ≠ [])
    (hs : (Phrase.series s ts).Kept r w next) :
    (Phrase.series s (t :: ts)).Kept r (v ++ o :: w) next := by
  obtain ⟨text, v', hprint, hv, hfirst⟩ := h
  obtain ⟨texts, w', hprints, hw, htexts, hsecond⟩ := hs
  refine ⟨text :: texts, v' ++ o :: w', ?_, ?_, by simp, fun c hc => ?_⟩
  · rw [List.mapM_cons, hprint, hprints]
    rfl
  · obtain ⟨text', texts, rfl⟩ := List.exists_cons_of_ne_nil (htexts hts)
    have hne : w' ≠ [] := by
      obtain ⟨y, hy, hmade⟩ :=
        (hsecond ⟨.symbol s.close, s.close.spelling, .start⟩ ⟨rfl, rfl⟩).target
      rw [(List.append_inj' hy rfl).1]
      exact hmade.ne_nil_of_series (by simpa using hts)
    have hright : Spells (',' :: ' ' :: (Text.joined ", " (text' :: texts)).toList) (o :: w') :=
      .behind ho (.blank hw hne) fun _ => Symbol.stands_of_closed rfl _
    have hall := hv.append hright fun _ => endsWord_mark (by simp) _
    rw [Text.joined, String.toList_append, String.toList_append, List.append_assoc]
    exact hall
  · have hall : Tidies (Closed (MadeOf r (.series s (t.shape :: ts.map Tree.shape))) c)
        (v ++ o :: (w ++ [c])) (v' ++ o :: (w' ++ [c])) := by
      refine hfirst.pair [] [o] (hsecond c hc) ?_
      rintro x _ hx ⟨y, rfl, hy⟩
      refine ⟨x ++ o :: y, by simp, .moreItems ho.1 hx hy fun _ => by simpa using hts⟩
    simpa using hall

end

/-! ### Statements -/

/-- A simpler expression still stands behind every statement that it stood behind. -/
theorem Tidies.cleared (h : Tidies (MadeOf r (.expression l σ)) w v) (next : Token) :
    Tidies (fun x => MadeOf r (.expression l σ) x ∧ (Clear w next → ∀ next, Clear x next)) w v := by
  refine h.preserves (fun hclear next' => ?_) fun x y hxy hx hclear next' =>
    hxy.clear (hx hclear next')
  obtain ⟨a, r, rfl⟩ := List.exists_cons_of_ne_nil h.source.ne_nil
  exact hclear

/-- What the expression loses, the statement loses. -/
theorem bare_kept (hlevel : t.kind.level?.isSome) (h : KeepsExpression r Level.conditional w t)
    (hnext : next.kind.EndsStatement) : (Phrase.statement t).Kept r w next := by
  obtain ⟨text, v, hprint, hspells, htidies⟩ := h.keeps (Int.le_refl _)
  have hbare : IsBare t.shape := isBare_of_level? (by rwa [Tree.kind_shape])
  refine ⟨fun _ => hnext, fun width depth => ⟨_, v, by simp, .bare hbare hprint, ?_, ?_⟩⟩
  · refine hspells.indented fun ts hts hnil => htidies.target.ne_nil ?_
    rwa [hnil, words_nil, eq_comm, words_eq_nil_iff] at hts
  · exact (htidies.cleared next).mono fun x hx => .bare hx.1 hx.2 hbare

/-- What the expression loses, the statement with the name loses. -/
theorem dataflow_kept (h : KeepsExpression r Level.conditional w t) (ho : o.IsSymbol .flow)
    (hname : name.kind = .identifier) (hlexeme : IsLexeme .identifier name.text.toList)
    {mark' : Extent} :
    (Phrase.statement
      ⟨.dataflow, .node t, [⟨.identifier, .text name.text, [], mark⟩], mark'⟩).Kept r
      (w ++ [o, name]) next := by
  obtain ⟨text, v, hprint, hspells, htidies⟩ := h.keeps (Int.le_refl _)
  refine ⟨fun hbare => absurd rfl hbare.2, fun width depth => ?_⟩
  refine ⟨_, v ++ [o, name], by simp, .dataflow hprint _, ?_, ?_⟩
  · have hword : Spells name.text.toList [name] :=
      .word hlexeme (by simp) hname (by simp [Parser.literalText, hname])
    have hall := hspells.between ho (by decide) hword (by simp)
    refine Yields.indented ?_ fun ts hts hnil => ?_
    · rw [Value.shown, String.toList_append, String.toList_append, List.append_assoc]
      exact hall
    · rw [hnil, words_nil, eq_comm, words_eq_nil_iff] at hts
      simp at hts
  · rw [Tree.shape_node, List.map_singleton, Tree.shape_text]
    exact (htidies.cleared o).before [o, name] fun x hx =>
      .dataflow hx.1 (fun hclear => hx.2 (clear_append hclear)) ho.1 hname

/-- What the statements lose, the block loses. -/
theorem block_kept {ts : List Node} (hr : 0 < r.expression) (ho : o.IsSymbol .lbrace)
    (hc : c.IsSymbol .rbrace)
    (h : (Phrase.statements ts).Kept (.plain (r.expression - 2)) w c) :
    (Phrase.statement ⟨.block, .none, ts, mark⟩).Kept r (o :: (w ++ [c])) next := by
  refine ⟨fun hbare => absurd rfl hbare.1, fun width depth => ?_⟩
  obtain ⟨ls, v, hnil, hlays, hspells, htidies⟩ := h width (depth + 1)
  refine ⟨_, o :: (v ++ [c]), blockLines_ne_nil, .block hlays hnil, ?_, ?_⟩
  · refine hspells.blockLines.mono ?_
    rintro _ ⟨o', ws, c', rfl, ho', hc', hwords⟩
    simp only [words_cons, words_append, hwords, ho'.words_eq ho, hc'.words_eq hc]
  · rw [Tree.shape_none]
    exact htidies.map (fun x => o :: (x ++ [c])) (fun _ hx => .block hr ho.1 hc.1 hx)
      fun _ _ hxy => (hxy.before [c]).behind [o]

/-- No statements are printed as nothing. -/
theorem noStatement_kept : (Phrase.statements []).Kept r [] next :=
  fun _ _ => ⟨[], [], by simp, .nil, .nil, .refl .nil⟩

/-- A statement is simplified in front of the others, and the others behind it. -/
theorem moreStatements_kept {ts : List Node} (h : (Phrase.statement t).Kept r v (w.headD next))
    (hs : (Phrase.statements ts).Kept r w next) :
    (Phrase.statements (t :: ts)).Kept r (v ++ w) next := by
  intro width depth
  obtain ⟨hbare, hfirst⟩ := h
  obtain ⟨ls, v', hne, hlays, hv, ht⟩ := hfirst width depth
  obtain ⟨ls', w', hnil, hlays', hw, hts⟩ := hs width depth
  refine ⟨ls ++ ls', v' ++ w', by simp [hne], LaysAll.cons hlays hlays', ?_, ?_⟩
  · refine (hv.lines hw hne (fun hls' => ?_) fun hls' us hus hus' => ?_).mono ?_
    · obtain rfl := hnil.1 hls'
      rw [hts.target.eq_nil, words_nil]
    · have hne : w' ≠ [] := hts.target.ne_nil (by simpa [hnil] using hls')
      rw [hus', words_nil, eq_comm, words_eq_nil_iff] at hus
      exact hne hus
    · rintro _ ⟨vs, ws, rfl, hvs, hws⟩
      simp only [words_append, hvs, hws]
  · have hheadD : Clear (v ++ w) next = Clear v (w.headD next) := by
      cases v <;> rfl
    rw [hheadD]
    exact ht.pair [] [] hts fun x y hx hy => hx.cons hy hbare

/-! ### Every phrase -/

/-- Valid symbols are spelled as they should be. -/
theorem isSymbol_of_valid {s : Symbol} (h : IsLexeme o.kind o.text.toList)
    (hs : o.kind = .symbol s) : o.IsSymbol s :=
  ⟨hs, text_of_symbol h hs⟩

end

/-- What is printed for an expression starts as an operand. -/
theorem Derives.startsOperand {r : Room} {w : List Token} {next : Token} {least : Int} {t : Node}
    (h : Derives r w next (.expression least t)) (hw : Valid w) (hl : least ≤ Level.primary)
    {text : String} (htext : expression t least = .ok text) : StartsOperand text.toList := by
  obtain ⟨-, text', hprint, -, hwritten⟩ := fits_of_printed (h.printed hw) hl False.elim
  obtain rfl := Except.ok.inj ((hprint t rfl).symm.trans htext)
  exact hwritten.read.1

/-- What is printed for a phrase of valid tokens has no words but those of the tokens. -/
theorem Derives.kept {r : Room} {w : List Token} {next : Token} {phrase : Phrase}
    (h : Derives r w next phrase) (hw : Valid w) : phrase.Kept r w next := by
  induction h with
  | looser _ hl ih => exact (ih hw).looser hl
  | literal hr ho => exact literal_kept hr (valid_cons.1 hw).1 ho
  | group ho _ hc ih =>
      simp only [valid_cons, valid_append] at hw
      exact .group (isSymbol_of_valid hw.1 ho) (isSymbol_of_valid hw.2.2.1 hc) (ih hw.2.1)
  | array hr ho _ hc ih =>
      simp only [valid_cons, valid_append] at hw
      exact array_kept hr (isSymbol_of_valid hw.1 ho) (isSymbol_of_valid hw.2.2.1 hc) (ih hw.2.1)
  | map hr ho _ hc ih =>
      simp only [valid_cons, valid_append] at hw
      exact map_kept hr (isSymbol_of_valid hw.1 ho) (isSymbol_of_valid hw.2.2.1 hc) (ih hw.2.1)
  | call _ ho _ hc ihf ih =>
      simp only [valid_cons, valid_append] at hw
      exact call_kept (ihf hw.1) (isSymbol_of_valid hw.2.1 ho) (isSymbol_of_valid hw.2.2.2.1 hc)
        (ih hw.2.2.1)
  | index hr _ ho _ hc iht ih =>
      simp only [valid_cons, valid_append] at hw
      exact index_kept hr (iht hw.1) (isSymbol_of_valid hw.2.1 ho)
        (isSymbol_of_valid hw.2.2.2.1 hc) (ih hw.2.2.1)
  | slice hr _ ho _ hc iht ih =>
      simp only [valid_cons, valid_append] at hw
      exact slice_kept hr (iht hw.1) (isSymbol_of_valid hw.2.1 ho)
        (isSymbol_of_valid hw.2.2.2.1 hc) (ih hw.2.2.1)
  | member _ ho hname iht =>
      simp only [valid_cons, valid_append] at hw
      exact member_kept (iht hw.1) (isSymbol_of_valid hw.2.1 ho) hname (hname ▸ hw.2.2.1)
  | prefixed ho h ih =>
      obtain ⟨ho', hw⟩ := valid_cons.1 hw
      exact prefixed_kept ho' ho (ih hw) fun _ => h.startsOperand hw (by decide)
  | iteration ho _ hm _ iha ihb =>
      simp only [valid_cons, valid_append] at hw
      exact iteration_kept (isSymbol_of_valid hw.1 ho) (iha hw.2.1)
        (isSymbol_of_valid hw.2.2.1 hm) (ihb hw.2.2.2)
  | operation _ ho _ iha ihb =>
      simp only [valid_cons, valid_append] at hw
      exact operation_kept (iha hw.1) hw.2.1 ho (ihb hw.2.2)
  | conditional _ ho _ hm _ iha ihb ihc =>
      simp only [valid_cons, valid_append] at hw
      exact conditional_kept (iha hw.1) (isSymbol_of_valid hw.2.1 ho) (ihb hw.2.2.1)
        (isSymbol_of_valid hw.2.2.2.1 hm) (ihc hw.2.2.2.2)
  | leftOut => exact .inl ⟨Tree.shape_none .., rfl⟩
  | @bound r w next t h ih =>
      obtain ⟨text, v, hprint, hspells, htidies⟩ := (ih hw).keeps (Int.le_refl _)
      have hlevel : t.kind.level?.isSome := h.hasLevel
      refine .inr ⟨fun hkind => ?_, text, v, hprint, h.startsOperand hw (Int.le_refl _) hprint,
        hspells, htidies⟩
      rw [hkind] at hlevel
      cases hlevel
  | twoBounds _ ho _ iha ihb =>
      simp only [valid_cons, valid_append] at hw
      exact twoBounds_kept (iha hw.1) (isSymbol_of_valid hw.2.1 ho) (ihb hw.2.2) _
  | threeBounds _ ho _ hm _ iha ihb ihc =>
      simp only [valid_cons, valid_append] at hw
      exact threeBounds_kept (iha hw.1) (isSymbol_of_valid hw.2.1 ho) (ihb hw.2.2.1)
        (isSymbol_of_valid hw.2.2.2.1 hm) (ihc hw.2.2.2.2)
  | outerBounds _ ho _ iha ihc =>
      simp only [valid_cons, valid_append] at hw
      exact outerBounds_kept (iha hw.1) ho (ihc hw.2.2) _
  | item hs _ ih => exact item_kept hs (ih hw)
  | entry hkey ho _ ih =>
      simp only [valid_cons] at hw
      exact entry_kept hw.1 hkey (isSymbol_of_valid hw.2.1 ho) (ih hw.2.2)
  | noItem => exact noItem_kept
  | lastItem _ ih => exact lastItem_kept (ih hw)
  | @moreItems r o next v w t ts s _ ho hs hlast ih ihs =>
      simp only [valid_cons, valid_append] at hw
      cases ts with
      | nil =>
          cases hs
          exact trailingComma_kept (ih hw.1) ho fun hs => hlast hs rfl
      | cons t' ts =>
          exact moreItems_kept (ih hw.1) (isSymbol_of_valid hw.2.1 ho) (by simp) (ihs hw.2.2)
  | block hr ho _ hc ih =>
      simp only [valid_cons, valid_append] at hw
      exact block_kept hr (isSymbol_of_valid hw.1 ho) (isSymbol_of_valid hw.2.2.1 hc) (ih hw.2.1)
  | dataflow _ ho hname ih =>
      simp only [valid_cons, valid_append] at hw
      exact dataflow_kept (ih hw.1) (isSymbol_of_valid hw.2.1 ho) hname (hname ▸ hw.2.2.1)
  | bare h hnext ih => exact bare_kept h.hasLevel (ih hw) hnext
  | noStatement => exact noStatement_kept
  | moreStatements _ _ ih ihs =>
      obtain ⟨hv, hw⟩ := valid_append.1 hw
      exact moreStatements_kept (ih hv) (ihs hw)

end Sigil
