import Sigil.Proofs.Print.Expression

/-!
# Printing what is parsed

An expression that the grammar has for some tokens is printed, and the printed text takes no more
room than the tokens do. Where the printer puts parentheses the tokens have them as well: an
expression binds looser than its place allows only if it stands in parentheses there, and these have
taken their room already.

A text that starts with an opening parenthesis or a minus sign might carry on what stands in front
of it. The printer writes no such text for tokens that start with something else.

## Main definitions

* `Valid`: tokens that are lexemes of their kinds.
* `Phrase.Printed`: what is printed for the phrases of expressions.

## Main results

* `Derives.printed`: every phrase of valid tokens is printed.
-/

namespace Sigil

open Source

/-! ### Valid tokens -/

/-- The tokens are lexemes of their kinds. -/
def Valid (w : List Token) : Prop :=
  ∀ o ∈ w, IsLexeme o.kind o.text.toList

section

variable {o : Token} {v w : List Token} {s : Symbol}

/-- Tokens have the texts of lexemes if the first has and the others have. -/
@[simp] theorem valid_cons : Valid (o :: w) ↔ IsLexeme o.kind o.text.toList ∧ Valid w :=
  List.forall_mem_cons

/-- Tokens have the texts of lexemes if those of both parts have. -/
@[simp] theorem valid_append : Valid (v ++ w) ↔ Valid v ∧ Valid w :=
  List.forall_mem_append

/-- The text of a symbol is its spelling. -/
theorem text_of_symbol (h : IsLexeme o.kind o.text.toList) (hs : o.kind = .symbol s) :
    o.text = s.spelling := by
  obtain ⟨c, r, hchars⟩ := List.exists_cons_of_ne_nil h.ne_nil
  rw [hchars, hs] at h
  rcases h.cases_head with ⟨-, -, hk⟩ | ⟨-, hk⟩ | ⟨-, hk, -⟩ | ⟨-, -, s', hk, hcs⟩
  · unfold kindOfWord at hk
    split at hk <;> cases hk
  · cases hk
  · cases hk
  · obtain rfl := TokenKind.symbol.inj hk
    rw [Symbol.spelling, hcs, ← hchars, String.ofList_toList]

/-- A string holds one of the quotation marks at most. -/
theorem quote_not_mem (h : IsLexeme o.kind o.text.toList) (ho : o.kind = .string) :
    '"' ∉ (Parser.unquoted o.text).toList ∨ '\'' ∉ (Parser.unquoted o.text).toList := by
  rw [ho] at h
  obtain ⟨q, body, hq, hbody, hchars⟩ := h.of_string
  have hunquoted : (Parser.unquoted o.text).toList = body := by
    rw [Parser.unquoted, hchars]
    simp
  rw [hunquoted]
  simp only [isQuote, Bool.or_eq_true, beq_iff_eq] at hq
  rcases hq with rfl | rfl
  · exact .inl hbody
  · exact .inr hbody

/-- A literal is printed as the token that it was, or with other quotation marks. -/
theorem printsLiteral_of_token {kind : NodeKind} (h : IsLexeme o.kind o.text.toList)
    (ho : Parser.literal? o.kind = some kind) :
    PrintsLiteral kind (Parser.literalText o) ∧ kind.level? = some Level.primary := by
  by_cases hstring : o.kind = .string
  · obtain rfl : NodeKind.string = kind := by
      rw [hstring] at ho
      exact Option.some.inj ho
    rw [Parser.literalText, if_pos hstring]
    exact ⟨printsLiteral_string (quote_not_mem h hstring), rfl⟩
  · rw [Parser.literalText, if_neg hstring]
    have hprints := printsLiteral_word h ho hstring
    rw [String.ofList_toList] at hprints
    refine ⟨hprints, ?_⟩
    generalize o.kind = token at ho
    cases token <;> cases ho <;> rfl

end

/-! ### What is printed for a phrase -/

/-- A statement may go on behind a token like the first one, or like the next one if there is
none. -/
abbrev Clear (w : List Token) (next : Token) : Prop :=
  (w.headD next).kind.EndsStatement

/-- The item of a series fits its place. -/
def FitsItem (r : Room) : Series → Shape → Prop
  | .arguments, σ | .elements, σ => Fits r Level.conditional False σ
  | .entries, σ => FitsEntry r σ

/-- What stands for the phrase is printed, in the room of the phrase. An expression that the tokens
have in parentheses is printed in the room within these. -/
def Phrase.Printed (r : Room) (w : List Token) (next : Token) : Phrase → Prop
  | expression least t => ∃ q level, Prints q level (Clear w next) t.shape ∧
      (q ≤ r ∧ least ≤ level ∨ q ≤ .plain (r.primary - 1) ∧ ¬ Clear w next)
  | bound t => FitsBound r t.shape
  | bounds start stop step => FitsBound r start.shape ∧
      FitsBound (.resumed (r.primary - 2)) stop.shape ∧
      FitsBound (.resumed (r.primary - 2)) step.shape
  | item k t => FitsItem r k t.shape
  | series k ts => ∀ t ∈ ts, FitsItem r k t.shape
  | statement _ | statements _ => True

section

variable {r : Room} {w : List Token} {next : Token} {least : Int} {t : Node} {clear : Prop}

/-- What is printed for an expression fits the place that the tokens stand at. -/
theorem fits_of_printed (h : (Phrase.expression least t).Printed r w next)
    (hl : least ≤ Level.primary) (hclear : clear → Clear w next) : Fits r least clear t.shape := by
  obtain ⟨q, level, h, ⟨hr, hle⟩ | ⟨hr, hnot⟩⟩ := h
  · exact (h.fits hle).mono hr hclear
  · exact ((h.mono hr id).fits_grouped hl hnot).mono r.le_refl hclear

/-- An expression of the level that its place asks for. -/
theorem printed_of_prints (h : Prints r least (Clear w next) t.shape) :
    (Phrase.expression least t).Printed r w next :=
  ⟨r, least, h, .inl ⟨r.le_refl, Int.le_refl least⟩⟩

/-- What follows the first operand does not matter for how an expression starts. -/
theorem clear_append {o : Token} {v : List Token} (h : Clear (v ++ o :: w) next) : Clear v o := by
  cases v with
  | nil => exact h
  | cons a v => exact h

/-- What starts with a parenthesis or a minus sign is not clear of a statement in front. -/
theorem not_clear {o : Token} (ho : o.kind = .symbol .lparen ∨ o.kind = .symbol .minus) :
    ¬ Clear (o :: w) next := by
  rintro ⟨-, hnone⟩
  rcases ho with ho | ho
  · simp [ho, TokenKind.extension?] at hnone
  · simp [ho, TokenKind.extension?, Parser.binary?, Symbol.binary?] at hnone

/-- A bound that is left out. -/
theorem fitsBound_absent (mark : Extent) :
    FitsBound r (Tree.shape ⟨.absent, .none, [], mark⟩) :=
  .inl (Tree.shape_none ..)

/-! #### The phrases one by one -/

variable {o c : Token} {a b : Node} {v : List Token} {level : Int} {kind : NodeKind}
  {mark : Extent}

/-- A literal is printed as the token that it was. -/
theorem literal_printed (hr : 0 < r.primary) (hw : IsLexeme o.kind o.text.toList)
    (ho : Parser.literal? o.kind = some kind) :
    (Phrase.expression Level.primary ⟨kind, .text (Parser.literalText o), [], mark⟩).Printed r
      [o] next := by
  obtain ⟨hprints, hlevel⟩ := printsLiteral_of_token hw ho
  refine printed_of_prints ?_
  rw [Tree.shape_text]
  exact .literal hr hprints hlevel

/-- The room within parentheses is there for the parentheses that the printer puts. -/
theorem group_printed (ho : o.kind = .symbol .lparen)
    (ih : (Phrase.expression Level.conditional t).Printed (.plain (r.primary - 1)) w c) :
    (Phrase.expression Level.primary t).Printed r (o :: (w ++ [c])) next := by
  obtain ⟨q, level, h, hcases⟩ := ih
  have hnot : ¬ Clear (o :: (w ++ [c])) next := not_clear (.inl ho)
  have hroom : q ≤ .plain (r.primary - 1) := by
    obtain ⟨hr, -⟩ | ⟨hr, -⟩ := hcases
    · exact hr
    · exact Room.le_trans hr (Room.enclosed_le _)
  exact ⟨q, level, h.mono q.le_refl fun hclear => absurd hclear hnot, .inr ⟨hroom, hnot⟩⟩

/-- An operand may be printed with parentheses behind its operator. -/
theorem prefixed_printed (hw : IsLexeme o.kind o.text.toList)
    (ho : Parser.prefixed? o.kind = some kind)
    (ih : (Phrase.expression Level.unary a).Printed (.plain r.expression) w next) :
    (Phrase.expression Level.unary ⟨kind, .text o.text, [a], mark⟩).Printed r
      (o :: w) next := by
  obtain ⟨s, hs, hkind⟩ := symbol_of_prefixed? ho
  refine printed_of_prints ?_
  rw [Tree.shape_text, text_of_symbol hw hs]
  refine .prefixed hkind (fits_of_printed ih (by decide) id) ?_
  rintro hclear rfl
  exact not_clear (.inr hs) hclear

/-- The operands of an operation may be printed with parentheses. -/
theorem operation_printed (hw : IsLexeme o.kind o.text.toList)
    (ho : Parser.binary? o.kind = some (level, kind))
    (iha : (Phrase.expression level a).Printed r v o)
    (ihb : (Phrase.expression (level + 1) b).Printed (.plain (r.expression - 1)) w next) :
    (Phrase.expression level ⟨kind, .text o.text, [a, b], mark⟩).Printed r
      (v ++ o :: w) next := by
  obtain ⟨s, hs, hbinary⟩ := symbol_of_binary? ho
  obtain ⟨-, -, hlevel⟩ := Symbol.level_of_binary? hbinary
  have hlow : level ≤ Level.primary := Int.le_trans hlevel (by decide)
  have hhigh : level + 1 ≤ Level.primary := Int.le_trans (Int.add_le_add_right hlevel 1) (by decide)
  refine printed_of_prints ?_
  rw [Tree.shape_text, text_of_symbol hw hs]
  exact .operation (fits_of_printed iha hlow clear_append) hbinary (fits_of_printed ihb hhigh id)

/-- An item is printed as the expression that it is. -/
theorem item_printed {k : Series} (hk : k ≠ .entries)
    (ih : (Phrase.expression Level.conditional t).Printed r w next) :
    (Phrase.item k t).Printed r w next := by
  have hfits := fits_of_printed ih (by decide) False.elim
  cases k with
  | arguments => exact hfits
  | elements => exact hfits
  | entries => exact absurd rfl hk

/-- The key of an entry is a literal. -/
theorem literal?_of_key (ho : o.kind = .identifier ∨ o.kind = .string) :
    Parser.literal? o.kind = some (if o.kind = .string then .string else .identifier) := by
  rcases ho with ho | ho <;> simp [ho, Parser.literal?]

/-- An entry is printed with its key as the token that it was. -/
theorem entry_printed {mark' : Extent} (hw : IsLexeme o.kind o.text.toList)
    (ho : o.kind = .identifier ∨ o.kind = .string)
    (ih : (Phrase.expression Level.conditional t).Printed r w next) :
    (Phrase.item .entries
      ⟨.mapEntry, .node t,
        [⟨if o.kind = .string then .string else .identifier, .text (Parser.literalText o), [],
          mark⟩], mark'⟩).Printed r v next := by
  have hkind := literal?_of_key ho
  refine ⟨_, Parser.literalText o, t.shape, ?_, ?_, (printsLiteral_of_token hw hkind).1,
    fits_of_printed ih (by decide) False.elim⟩
  · rw [Tree.shape_node, List.map_singleton, Tree.shape_text]
    rfl
  · split
    · exact .inr rfl
    · exact .inl rfl

end

/-- Every phrase of valid tokens is printed. -/
theorem Derives.printed {r : Room} {w : List Token} {next : Token} {phrase : Phrase}
    (h : Derives r w next phrase) (hw : Valid w) : phrase.Printed r w next := by
  induction h with
  | looser _ hl ih =>
      obtain ⟨q, level, h, hcases⟩ := ih hw
      refine ⟨q, level, h, ?_⟩
      rcases hcases with ⟨hr, hle⟩ | hgrouped
      · exact .inl ⟨hr, Int.le_trans hl hle⟩
      · exact .inr hgrouped
  | literal hr ho => exact literal_printed hr (valid_cons.1 hw).1 ho
  | group ho _ hc ih =>
      simp only [valid_cons, valid_append] at hw
      exact group_printed ho (ih hw.2.1)
  | array hr ho _ hc ih =>
      simp only [valid_cons, valid_append] at hw
      refine printed_of_prints ?_
      rw [Tree.shape_none]
      exact .array hr (List.forall_mem_map.2 (ih hw.2.1))
  | map hr ho _ hc ih =>
      simp only [valid_cons, valid_append] at hw
      refine printed_of_prints ?_
      rw [Tree.shape_none]
      exact .map hr (List.forall_mem_map.2 (ih hw.2.1))
  | call _ ho _ hc ihf ih =>
      simp only [valid_cons, valid_append] at hw
      refine printed_of_prints ?_
      rw [Tree.shape_node]
      exact .call (fits_of_printed (ihf hw.1) (by decide) clear_append)
        (List.forall_mem_map.2 (ih hw.2.2.1))
  | index hr _ ho _ hc iht ih =>
      simp only [valid_cons, valid_append] at hw
      refine printed_of_prints ?_
      rw [Tree.shape_none]
      exact .index hr (fits_of_printed (iht hw.1) (by decide) clear_append)
        (fits_of_printed (ih hw.2.2.1) (by decide) id)
  | slice hr _ ho _ hc iht ih =>
      simp only [valid_cons, valid_append] at hw
      obtain ⟨ha, hb, hc⟩ := ih hw.2.2.1
      refine printed_of_prints ?_
      rw [Tree.shape_none]
      exact .slice hr (fits_of_printed (iht hw.1) (by decide) clear_append) ha hb hc
  | @member r o name next v t _ ho hname iht =>
      simp only [valid_cons, valid_append] at hw
      refine printed_of_prints ?_
      rw [Tree.shape_text, ← String.ofList_toList (s := name.text)]
      exact .member (fits_of_printed (iht hw.1) (by decide) clear_append) (hname ▸ hw.2.2.1)
  | prefixed ho _ ih =>
      obtain ⟨ho', hw⟩ := valid_cons.1 hw
      exact prefixed_printed ho' ho (ih hw)
  | iteration ho _ hm _ iha ihb =>
      simp only [valid_cons, valid_append] at hw
      refine printed_of_prints ?_
      rw [Tree.shape_none]
      exact .iteration (fits_of_printed (iha hw.2.1) (by decide) id)
        (fits_of_printed (ihb hw.2.2.2) (by decide) id)
  | operation _ ho _ iha ihb =>
      simp only [valid_cons, valid_append] at hw
      exact operation_printed hw.2.1 ho (iha hw.1) (ihb hw.2.2)
  | conditional _ ho _ hm _ iha ihb ihc =>
      simp only [valid_cons, valid_append] at hw
      refine printed_of_prints ?_
      rw [Tree.shape_none]
      exact .conditional (fits_of_printed (iha hw.1) (by decide) clear_append)
        (fits_of_printed (ihb hw.2.2.1) (by decide) id)
        (fits_of_printed (ihc hw.2.2.2.2) (by decide) id)
  | leftOut => exact fitsBound_absent _
  | bound _ ih => exact .inr (fits_of_printed (ih hw) (by decide) False.elim)
  | twoBounds _ ho _ iha ihb =>
      simp only [valid_cons, valid_append] at hw
      exact ⟨iha hw.1, ihb hw.2.2, fitsBound_absent _⟩
  | threeBounds _ ho _ hm _ iha ihb ihc =>
      simp only [valid_cons, valid_append] at hw
      exact ⟨iha hw.1, ihb hw.2.2.1, ihc hw.2.2.2.2⟩
  | outerBounds _ ho _ iha ihc =>
      simp only [valid_cons, valid_append] at hw
      exact ⟨iha hw.1, fitsBound_absent _, ihc hw.2.2⟩
  | item hs _ ih => exact item_printed hs (ih hw)
  | entry hkey ho _ ih =>
      simp only [valid_cons] at hw
      exact entry_printed hw.1 hkey (ih hw.2.2)
  | noItem =>
      intro t ht
      cases ht
  | lastItem _ ih =>
      intro t ht
      obtain rfl := List.mem_singleton.1 ht
      exact ih hw
  | moreItems _ ho _ hlast ih ihs =>
      simp only [valid_cons, valid_append] at hw
      exact List.forall_mem_cons.2 ⟨ih hw.1, ihs hw.2.2⟩
  | block | dataflow | bare | noStatement | moreStatements => trivial

end Sigil
