import Sigil.Proofs.Print.Derived

/-!
# Printing statements

A statement is printed as lines, a block as the lines of its statements between those of its braces.
There is no mark between statements, so a bare expression ends where the next statement starts, and
the token there must not carry it on. The lines of a statement are read back as the statement in
front of any token that may stand behind it.

## Main definitions

* `StatementOf`, `StatementsOf`: the tokens of statements of a shape.
* `PrintsStatement`, `PrintsStatements`: statements of a shape are printed, and read back.

## Main results

* `PrintsStatement.bare`, `PrintsStatement.dataflow`, `PrintsStatement.block`: the three kinds of
  statements.
* `PrintsStatements.cons`: a statement in front of others.
-/

namespace Sigil

open Source

/-! ### The first token of a text -/

section

variable {r : Room} {least : Int} {p : Position} {kind : TokenKind} {σ : Shape} {t : Node}
  {w rest : List Char} {ts : List Token} {next : Token}

/-- The text starts clear exactly if its first token may stand behind every statement. -/
def StartsAlike (w : List Char) (ts : List Token) : Prop :=
  ∃ o us, ts = o :: us ∧ (o.kind.EndsStatement ↔ StartsClear w)

/-- What follows makes no difference to the start. -/
theorem StartsAlike.append {v : List Char} {us : List Token} (h : StartsAlike w ts)
    (hw : w ≠ []) : StartsAlike (w ++ v) (ts ++ us) := by
  obtain ⟨o, ts, rfl, ho⟩ := h
  obtain ⟨c, r, rfl⟩ := List.exists_cons_of_ne_nil hw
  exact ⟨o, ts ++ us, rfl, ho⟩

/-- A text that starts clear is cut into tokens that may stand behind every statement. -/
theorem StartsAlike.clear (h : StartsAlike w ts) (hw : StartsClear w) (next : Token) :
    Clear ts next := by
  obtain ⟨o, us, rfl, ho⟩ := h
  exact ho.2 hw

/-- Of the lexemes only two symbols start with the characters that carry on an expression. -/
theorem IsLexeme.not_endsStatement {c : Char} {r : List Char} (h : IsLexeme kind (c :: r))
    (hc : c = '(' ∨ c = '-') : ¬ kind.EndsStatement := by
  rcases h.cases_head with ⟨hword, -⟩ | ⟨hdigit, -⟩ | ⟨hquote, -⟩ | ⟨-, -, s, rfl, hs⟩
  · rcases hc with rfl | rfl <;> exact absurd hword (by decide)
  · rcases hc with rfl | rfl <;> exact absurd hdigit (by decide)
  · rcases hc with rfl | rfl <;> exact absurd hquote (by decide)
  · rintro ⟨-, hnone⟩
    rcases hc with rfl | rfl <;> cases s <;> cases hs <;> cases hnone

/-- What the first character of an expression tells about its first token. -/
theorem startsAlike_of_lexes (hstart : StartsOperand w) (h : Lexes p w rest ts)
    (hd : Derives r ts next (.expression least t)) : StartsAlike w ts := by
  obtain ⟨o, us, rfl, ho, -⟩ := hd.opensWith
  obtain ⟨c, r, rfl, hc, hblank⟩ := hstart
  simp only [List.mem_cons, List.not_mem_nil, or_false, not_or] at hc
  obtain ⟨hlexeme, hhead⟩ := h.head_eq (startsNoFiller_cons ⟨hblank, hc.2.2.1, hc.2.2.2⟩)
  refine ⟨o, us, rfl, fun hends d hd => ?_, fun hclear => ?_⟩
  · obtain rfl := Option.some.inj hd
    obtain ⟨cs, hcs⟩ := List.head?_eq_some_iff.1 hhead
    rw [hcs] at hlexeme
    exact ⟨fun hd => hlexeme.not_endsStatement (.inl hd) hends,
      fun hd => hlexeme.not_endsStatement (.inr hd) hends⟩
  · obtain ⟨hparen, hminus⟩ := hclear c rfl
    refine endsStatement_of_startsExpression ho ?_ ?_
    · intro hkind
      rw [text_of_symbol hlexeme hkind] at hhead
      exact hparen (Option.some.inj hhead).symm
    · intro hkind
      rw [text_of_symbol hlexeme hkind] at hhead
      exact hminus (Option.some.inj hhead).symm

/-- An expression at the place of a statement is cut into its tokens. -/
theorem Written.yields (h : Written r (.expression Level.conditional σ) w) :
    Yields (fun ts => StartsAlike w ts ∧ ∃ t : Node, t.shape = σ ∧
      ∀ next, Derives r ts next (.expression Level.conditional t)) w := by
  intro p rest hrest
  obtain ⟨hstart, hread⟩ := h.read
  obtain ⟨ts, t, hts, hshape, hd⟩ := hread p rest hrest
  exact ⟨ts, hts, startsAlike_of_lexes hstart hts (hd (.endAt p)), t, hshape, hd⟩

end

/-! ### Reading statements -/

/-- The statement is an expression. -/
def IsBare (σ : Shape) : Prop :=
  σ.kind ≠ .block ∧ σ.kind ≠ .dataflow

/-- The tokens are a statement of the shape. If it is a bare expression, then this depends on the
token behind it. Where `clear` holds the statement may stand behind every other one. -/
def StatementOf (r : Room) (clear : Prop) (σ : Shape) (w : List Token) : Prop :=
  ∃ t : Node, t.shape = σ ∧ (clear → ∀ next, Clear w next) ∧
    ∀ next, (IsBare σ → next.kind.EndsStatement) → Derives r w next (.statement t)

/-- The tokens are statements of the shapes. -/
def StatementsOf (r : Room) (clear : Prop) (σs : List Shape) (w : List Token) : Prop :=
  ∃ us : List Node, us.map Tree.shape = σs ∧
    (clear → ∀ next, next.kind.EndsStatement → Clear w next) ∧
      ∀ next, next.kind.EndsStatement → Derives r w next (.statements us)

section

variable {r : Room} {σ : Shape} {σs : List Shape} {v w : List Token} {o c name : Token}
  {clear clear' : Prop}

/-- A statement has a token. -/
theorem StatementOf.ne_nil (h : StatementOf r clear σ w) : w ≠ [] := by
  obtain ⟨t, -, -, hd⟩ := h
  have hend : (Token.endAt .start).kind.EndsStatement := endsStatement_of_endOfInput rfl
  exact (hd (.endAt .start) fun _ => hend).ne_nil_of_statement

/-- An expression is a statement on its own. -/
theorem StatementOf.bare
    (h : ∃ t : Node, t.shape = σ ∧ ∀ next, Derives r w next (.expression Level.conditional t))
    (hclear : clear → ∀ next, Clear w next) (hbare : IsBare σ) : StatementOf r clear σ w := by
  obtain ⟨t, hshape, hd⟩ := h
  exact ⟨t, hshape, hclear, fun next hnext => .bare (hd next) (hnext hbare)⟩

/-- An expression, an arrow and a name are a statement. -/
theorem StatementOf.dataflow
    (h : ∃ t : Node, t.shape = σ ∧ ∀ next, Derives r w next (.expression Level.conditional t))
    (hclear : clear → ∀ next, Clear w next) (ho : o.kind = .symbol .flow)
    (hname : name.kind = .identifier) :
    StatementOf r clear
      ⟨.dataflow, .node σ, [⟨.identifier, .text name.text, [], ()⟩], ()⟩ (w ++ [o, name]) := by
  obtain ⟨t, rfl, hd⟩ := h
  refine ⟨_, ?_, fun hc next => ?_, fun next _ => .dataflow (hd o) ho hname⟩
  · rw [Tree.shape_node, List.map_singleton, Tree.shape_text]
    rfl
  · obtain ⟨a, w, rfl⟩ := List.exists_cons_of_ne_nil (hd o).ne_nil_of_expression
    exact hclear hc next

/-- The braces of a block may stand behind every statement. -/
theorem endsStatement_brace {kind : TokenKind}
    (h : kind = .symbol .lbrace ∨ kind = .symbol .rbrace) : kind.EndsStatement := by
  rcases h with rfl | rfl <;> exact ⟨by decide, rfl⟩

/-- Statements in braces are a statement, and it does not matter what stands in front of it. -/
theorem StatementOf.block (hr : 0 < r.expression) (ho : o.kind = .symbol .lbrace)
    (hc : c.kind = .symbol .rbrace)
    (h : StatementsOf (.plain (r.expression - 2)) clear σs w) :
    StatementOf r clear' ⟨.block, .none, σs, ()⟩ (o :: (w ++ [c])) := by
  obtain ⟨us, rfl, -, hd⟩ := h
  exact ⟨_, Tree.shape_none .., fun _ _ => endsStatement_brace (.inl ho),
    fun _ _ => .block hr ho (hd c (endsStatement_brace (.inr hc))) hc⟩

/-- No statements are no tokens. -/
theorem StatementsOf.nil : StatementsOf r clear [] [] :=
  ⟨[], rfl, fun _ _ h => h, fun _ _ => .noStatement⟩

/-- A statement in front of others. If it is a bare expression, then the others have to start
clear. -/
theorem StatementOf.cons (h : StatementOf r clear σ v) (hs : StatementsOf r clear' σs w)
    (hbare : IsBare σ → clear') : StatementsOf r clear (σ :: σs) (v ++ w) := by
  have hne := h.ne_nil
  obtain ⟨t, rfl, hclear, ht⟩ := h
  obtain ⟨us, rfl, hclear', hd⟩ := hs
  obtain ⟨o, v, rfl⟩ := List.exists_cons_of_ne_nil hne
  exact ⟨t :: us, rfl, fun hc next _ => hclear hc next, fun next hnext =>
    .moreStatements (ht _ fun hb => hclear' (hbare hb) next hnext) (hd next hnext)⟩

/-- A statement on its own. -/
theorem StatementOf.single (h : StatementOf r clear σ w) : StatementsOf r clear [σ] w := by
  have hnil : StatementsOf r True [] [] := .nil
  have hall := h.cons hnil fun _ => trivial
  rwa [List.append_nil] at hall

/-- Without a statement there is no token. -/
theorem StatementsOf.eq_nil (h : StatementsOf r clear [] w) : w = [] := by
  obtain ⟨us, hus, -, hd⟩ := h
  obtain rfl := List.map_eq_nil_iff.1 hus
  cases hd (.endAt .start) (endsStatement_of_endOfInput rfl)
  rfl

/-- With a statement there is a token. -/
theorem StatementsOf.ne_nil (h : StatementsOf r clear σs w) (hσs : σs ≠ []) : w ≠ [] := by
  obtain ⟨us, rfl, -, hd⟩ := h
  have hend : (Token.endAt .start).kind.EndsStatement := endsStatement_of_endOfInput rfl
  exact (hd (.endAt .start) hend).ne_nil_of_statements (by rintro rfl; exact hσs rfl)

end

section

variable {r : Room} {σ : Shape} {σs : List Shape} {cs v w gap : List Char} {clear clear' : Prop}

/-- A written expression is cut into the tokens of a statement. -/
theorem bare_reads (h : Written r (.expression Level.conditional σ) w)
    (hclear : clear → StartsClear w) (hbare : IsBare σ) : Yields (StatementOf r clear σ) w := by
  refine h.yields.mono ?_
  rintro ts ⟨hstart, hexpression⟩
  exact .bare hexpression (fun hc => hstart.clear (hclear hc)) hbare

/-- A text, the sign of a dataflow definition and a name. -/
theorem Yields.flow {Q : List Token → Prop} (h : Yields Q w) (hname : IsLexeme .identifier v) :
    Yields (fun ts => ∃ ws o name, ts = ws ++ [o, name] ∧ o.IsSymbol .flow ∧
      (name.kind = .identifier ∧ name.text = String.ofList v) ∧ Q ws)
      (w ++ ' ' :: '=' :: '>' :: ' ' :: v) := by
  intro p rest hrest
  obtain ⟨ts, hts, hq⟩ := h p (' ' :: '=' :: '>' :: ' ' :: v ++ rest) (endsWord_mark (by simp) _)
  have hword : Lexes ((p.after w).beyond .flow) v rest _ := .word hname (by simp) hrest
  have hflow := Lexes.between_blanks .flow (by decide) hword (by simp)
  exact ⟨_, hts.append hflow, ts, _, _, rfl, ⟨rfl, rfl⟩, ⟨rfl, rfl⟩, hq⟩

/-- So is a written expression with an arrow and a name behind it. -/
theorem dataflow_reads (h : Written r (.expression Level.conditional σ) w)
    (hclear : clear → StartsClear w) (hname : IsLexeme .identifier v) :
    Yields
      (StatementOf r clear
        ⟨.dataflow, .node σ, [⟨.identifier, .text (String.ofList v), [], ()⟩], ()⟩)
      (w ++ ' ' :: '=' :: '>' :: ' ' :: v) := by
  refine (h.yields.flow hname).mono ?_
  rintro _ ⟨ts, o, name, rfl, ho, ⟨hkind, htext⟩, hstart, hexpression⟩
  exact htext ▸ .dataflow hexpression (fun hc => hstart.clear (hclear hc)) ho.1 hkind

/-- Blanks end every word, if more than a word comes behind them. -/
theorem endsWord_of_blanks {c : Char} {rest : List Char} (hgap : ∀ d ∈ gap, isBlank d = true)
    (hc : isWordPart c = false) (hpoint : c ≠ '.') : EndsWord (gap ++ c :: rest) := by
  cases gap with
  | nil => exact endsWord_cons hc hpoint
  | cons d gap =>
      have hd := (List.forall_mem_cons.1 hgap).1
      refine endsWord_cons ?_ ?_
      · cases hpart : isWordPart d with
        | false => rfl
        | true => exact absurd hd (by simp [(isBlank_of_isWordPart hpart).1])
      · rintro rfl
        exact absurd hd (by decide)

/-- A text in braces. -/
theorem Yields.braces {Q : List Token → Prop} {gap' : List Char} (h : Yields Q cs)
    (hgap : ∀ c ∈ gap, isBlank c = true) (hgap' : ∀ c ∈ gap', isBlank c = true) :
    Yields (fun ts => ∃ o ws c, ts = o :: (ws ++ [c]) ∧ o.IsSymbol .lbrace ∧ c.IsSymbol .rbrace ∧
      Q ws) ('\x7b' :: (gap ++ (cs ++ (gap' ++ ['\x7d'])))) := by
  intro p rest _
  obtain ⟨ts, hts, hq⟩ := h ((p.after ['\x7b']).after gap) (gap' ++ ['\x7d'] ++ rest)
    (by rw [List.append_assoc]; exact endsWord_of_blanks hgap' (by decide) (by decide))
  have hclose : Lexes (((p.after ['\x7b']).after gap).after cs) (gap' ++ ['\x7d']) rest _ :=
    .gap (isFiller_of_blanks hgap' _) (.closing .rbrace rfl) (by simp)
  have hinside := Lexes.gap (isFiller_of_blanks hgap _) (hts.append hclose) (by simp)
  exact ⟨_, .behind_closed .lbrace rfl hinside, _, ts, _, rfl, ⟨rfl, rfl⟩, ⟨rfl, rfl⟩, hq⟩

end

/-! ### Lines -/

section

variable {l : String} {ls ls' : List String}

/-- A line in front of others. -/
theorem joined_cons (hls : ls ≠ []) :
    (Text.joined "\n" (l :: ls)).toList = l.toList ++ '\n' :: (Text.joined "\n" ls).toList := by
  obtain ⟨m, ms, rfl⟩ := List.exists_cons_of_ne_nil hls
  rw [Text.joined, String.toList_append, String.toList_append, List.append_assoc]
  rfl

/-- Lines in front of others. -/
theorem joined_append (hls : ls ≠ []) (hls' : ls' ≠ []) :
    (Text.joined "\n" (ls ++ ls')).toList =
      (Text.joined "\n" ls).toList ++ '\n' :: (Text.joined "\n" ls').toList := by
  induction ls with
  | nil => exact absurd rfl hls
  | cons l ls ih =>
      rcases ls with _ | ⟨m, ms⟩
      · exact joined_cons hls'
      · have hne : m :: ms ≠ [] := by simp
        rw [List.cons_append, joined_cons (by simp), ih hne, joined_cons hne, List.append_assoc]
        rfl

/-- The lines of a text in front of those of another one, if there are any. -/
theorem Yields.lines {Q Q' : List Token → Prop} (h : Yields Q (Text.joined "\n" ls).toList)
    (hs : Yields Q' (Text.joined "\n" ls').toList) (hls : ls ≠ []) (hnil : ls' = [] → Q' [])
    (hne : ls' ≠ [] → ∀ ts, Q' ts → ts ≠ []) :
    Yields (fun ts => ∃ vs ws, ts = vs ++ ws ∧ Q vs ∧ Q' ws)
      (Text.joined "\n" (ls ++ ls')).toList := by
  by_cases hls' : ls' = []
  · subst hls'
    rw [List.append_nil]
    exact h.mono fun vs hvs => ⟨vs, [], (List.append_nil vs).symm, hvs, hnil rfl⟩
  · rw [joined_append hls hls']
    exact h.line hs (hne hls')

end

/-- A line with the blanks that are due at a depth. -/
def indented (width : Int) (depth : Nat) (text : String) : String :=
  String.ofList (List.replicate (width * depth).toNat ' ') ++ text

/-- Outside of all blocks there is no margin. -/
theorem indented_zero (width : Int) (text : String) : indented width 0 text = text := by
  simp [indented]

/-- A line is added with the margin of its depth. -/
theorem line_eq (width : Int) (text : String) (lines : List String) (depth : Nat) :
    line width text ⟨lines, depth⟩ = .ok () ⟨lines ++ [indented width depth text], depth⟩ := rfl

/-- To change the sheet never fails. -/
theorem modify_eq (f : Sheet → Sheet) (s : Sheet) :
    (modify f : Writing Unit) s = .ok () (f s) := rfl

/-! ### Lines of statements -/

/-- A statement is printed as lines behind those of the sheet. -/
def Lays (width : Int) (depth : Nat) (t : Node) (ls : List String) : Prop :=
  ∀ lines, statement width t ⟨lines, depth⟩ = .ok () ⟨lines ++ ls, depth⟩

/-- Statements are printed as lines behind those of the sheet. -/
def LaysAll (width : Int) (depth : Nat) (ts : List Node) (ls : List String) : Prop :=
  ∀ lines, statements width ts ⟨lines, depth⟩ = .ok () ⟨lines ++ ls, depth⟩

/-- The lines of a block around those of its statements. -/
def blockLines (width : Int) (depth : Nat) (ls : List String) : List String :=
  if ls = [] then [indented width depth "\x7b\x7d"]
  else indented width depth "\x7b" :: (ls ++ [indented width depth "\x7d"])

section

variable {width : Int} {depth : Nat} {t : Node} {ts : List Node} {ls ls' : List String}
  {text : String} {value : Value Node} {mark : Extent} {Q : List Token → Prop}

/-- A statement that is neither a block nor a dataflow definition is printed as an expression. -/
theorem statement_of_bare (h : IsBare t.shape) :
    statement width t = written (expression t Level.conditional) >>= line width := by
  rw [IsBare, Tree.kind_shape] at h
  obtain ⟨kind, value, ts, mark⟩ := t
  cases kind <;> first
    | exact absurd rfl h.1
    | exact absurd rfl h.2
    | rfl

/-- An expression takes one line. -/
theorem Lays.bare (hbare : IsBare t.shape) (h : expression t Level.conditional = .ok text) :
    Lays width depth t [indented width depth text] := by
  intro lines
  rw [statement_of_bare hbare, h]
  rfl

/-- So does an expression with the name that it defines. -/
theorem Lays.dataflow (h : expression t Level.conditional = .ok text) (name : Node) :
    Lays width depth ⟨.dataflow, .node t, name :: ts, mark⟩
      [indented width depth (text ++ " => " ++ name.value.shown)] := by
  intro lines
  rw [statement, valueExpression, h]
  rfl

/-- A block takes the lines of its statements, one level further in, and those of its braces. -/
theorem Lays.block (h : LaysAll width (depth + 1) ts ls) (hnil : ls = [] ↔ ts = []) :
    Lays width depth ⟨.block, value, ts, mark⟩ (blockLines width depth ls) := by
  intro lines
  by_cases hls : ls = []
  · obtain rfl := hnil.1 hls
    rw [blockLines, if_pos hls]
    rfl
  · have hts : ts.isEmpty = false := by
      rw [List.isEmpty_eq_false_iff]
      exact fun heq => hls (hnil.2 heq)
    have hinside := h (lines ++ [indented width depth "\x7b"])
    rw [blockLines, if_neg hls]
    simp only [statement, hts, Bool.false_eq_true, if_false, bind, EStateM.bind, line_eq, modify_eq,
      hinside]
    simp

/-- No statements take no lines. -/
theorem LaysAll.nil : LaysAll width depth [] [] := by
  intro lines
  rw [List.append_nil]
  rfl

/-- The lines of a statement stand in front of those of the others. -/
theorem LaysAll.cons (h : Lays width depth t ls) (hs : LaysAll width depth ts ls') :
    LaysAll width depth (t :: ts) (ls ++ ls') := by
  intro lines
  simp only [statements, bind, EStateM.bind, h lines, hs (lines ++ ls), List.append_assoc]

/-- A block takes a line at least. -/
theorem blockLines_ne_nil : blockLines width depth ls ≠ [] := by
  rw [blockLines]
  split
  · simp
  · simp

/-- A margin is blank. -/
theorem blank_of_mem_replicate {k : Nat} : ∀ c ∈ List.replicate k ' ', isBlank c = true := by
  intro c hc
  rw [List.eq_of_mem_replicate hc]
  decide

/-- The blanks of a line are filler in front of its text. -/
theorem Yields.indented (h : Yields Q text.toList) (hne : ∀ ts, Q ts → ts ≠ []) :
    Yields Q (Text.joined "\n" [Sigil.indented width depth text]).toList := by
  rw [Text.joined, Sigil.indented, String.toList_append, String.toList_ofList]
  exact h.behind_blanks blank_of_mem_replicate hne

/-- The lines of a block are cut into what its statements are cut into, in braces. -/
theorem Yields.blockLines (h : Yields Q (Text.joined "\n" ls).toList) :
    Yields (fun ts => ∃ o ws c, ts = o :: (ws ++ [c]) ∧ o.IsSymbol .lbrace ∧ c.IsSymbol .rbrace ∧
      Q ws) (Text.joined "\n" (Sigil.blockLines width depth ls)).toList := by
  have hnone : ∀ c ∈ ([] : List Char), isBlank c = true := by simp
  have hopen : ∀ c ∈ ['\n'], isBlank c = true := by simp [isBlank]
  have hclose : ∀ c ∈ '\n' :: List.replicate (width * depth).toNat ' ', isBlank c = true :=
    List.forall_mem_cons.2 ⟨by decide, blank_of_mem_replicate⟩
  by_cases hls : ls = []
  · subst hls
    rw [Sigil.blockLines, if_pos rfl]
    refine (h.braces hnone hnone).indented ?_
    rintro ts ⟨o, ws, c, rfl, -⟩
    simp
  · have hline := (h.braces hopen hclose).behind_blanks
      (blank_of_mem_replicate (k := (width * depth).toNat))
      (by rintro ts ⟨o, ws, c, rfl, -⟩; simp)
    rw [Sigil.blockLines, if_neg hls, joined_cons (by simp), joined_append hls (by simp)]
    simpa [Sigil.indented, Text.joined] using hline

end

/-! ### Printing statements -/

/-- Statements of the shape are printed as lines behind those of the sheet, whatever the width, and
the lines are read as the statement. -/
def PrintsStatement (r : Room) (clear : Prop) (σ : Shape) : Prop :=
  ∀ (width : Int) (depth : Nat), ∃ ls, ls ≠ [] ∧
    (∀ t : Node, t.shape = σ → ∀ lines,
      statement width t ⟨lines, depth⟩ = .ok () ⟨lines ++ ls, depth⟩) ∧
    Yields (StatementOf r clear σ) (Text.joined "\n" ls).toList

/-- Statements of the shapes are printed one after the other, and read back. -/
def PrintsStatements (r : Room) (clear : Prop) (σs : List Shape) : Prop :=
  ∀ (width : Int) (depth : Nat), ∃ ls, (ls = [] ↔ σs = []) ∧
    (∀ ts : List Node, ts.map Tree.shape = σs → ∀ lines,
      statements width ts ⟨lines, depth⟩ = .ok () ⟨lines ++ ls, depth⟩) ∧
    Yields (StatementsOf r clear σs) (Text.joined "\n" ls).toList

section

variable {r : Room} {σ : Shape} {σs : List Shape} {cs : List Char} {clear clear' : Prop}

/-- What has a level is an expression. -/
theorem isBare_of_level? (h : σ.kind.level?.isSome) : IsBare σ := by
  constructor <;> intro hkind <;> simp [hkind, NodeKind.level?] at h

/-- An expression that is printed so that it can be read is a statement that is. -/
theorem PrintsStatement.bare (h : Fits r Level.conditional clear σ) :
    PrintsStatement r clear σ := by
  intro width depth
  obtain ⟨hlevel, text, hprint, hclear, hwritten⟩ := h
  have hbare := isBare_of_level? hlevel
  exact ⟨[indented width depth text], by simp, fun t ht => Lays.bare (ht ▸ hbare) (hprint t ht),
    (bare_reads hwritten hclear hbare).indented fun _ => StatementOf.ne_nil⟩

/-- So is a definition, if its name is one. -/
theorem PrintsStatement.dataflow (h : Fits r Level.conditional clear σ)
    (hname : IsLexeme .identifier cs) :
    PrintsStatement r clear
      ⟨.dataflow, .node σ, [⟨.identifier, .text (String.ofList cs), [], ()⟩], ()⟩ := by
  intro width depth
  obtain ⟨-, text, hprint, hclear, hwritten⟩ := h
  refine ⟨[indented width depth (text ++ " => " ++ String.ofList cs)], by simp,
    fun t ht => ?_, Yields.indented ?_ fun _ => StatementOf.ne_nil⟩
  · obtain ⟨u, ts, mark, rfl, hu, hts⟩ := Tree.of_shape_node ht
    obtain ⟨name, rfl, hname⟩ := Tree.of_shapes_one hts
    obtain ⟨us, mark', rfl, -⟩ := Tree.of_shape_text hname
    exact Lays.dataflow (hprint u hu) _
  · simp only [String.toList_append, String.toList_ofList, List.append_assoc]
    exact dataflow_reads hwritten hclear hname

/-- The statements of a block are printed between braces. -/
theorem PrintsStatement.block (hr : 0 < r.expression)
    (h : PrintsStatements (.plain (r.expression - 2)) clear σs) :
    PrintsStatement r clear' ⟨.block, .none, σs, ()⟩ := by
  intro width depth
  obtain ⟨ls, hnil, hprint, hreads⟩ := h width (depth + 1)
  refine ⟨blockLines width depth ls, blockLines_ne_nil, fun t ht => ?_, ?_⟩
  · obtain ⟨ts, mark, rfl, rfl⟩ := Tree.of_shape_none ht
    rw [List.map_eq_nil_iff] at hnil
    exact Lays.block (hprint ts rfl) hnil
  · refine hreads.blockLines.mono ?_
    rintro _ ⟨o, ws, c, rfl, ho, hc, hw⟩
    exact .block hr ho.1 hc.1 hw

/-- No statements are printed as nothing. -/
theorem PrintsStatements.nil : PrintsStatements r clear [] := by
  intro width depth
  refine ⟨[], by simp, fun ts hts => ?_, Yields.nil .nil⟩
  obtain rfl := List.map_eq_nil_iff.1 hts
  exact LaysAll.nil

/-- A bare expression must not be in front of a line that would carry it on. -/
theorem PrintsStatements.cons (h : PrintsStatement r clear σ) (hs : PrintsStatements r clear' σs)
    (hbare : IsBare σ → clear') : PrintsStatements r clear (σ :: σs) := by
  intro width depth
  obtain ⟨ls, hls, hprint, hreads⟩ := h width depth
  obtain ⟨ls', hnil, hprints, hreads'⟩ := hs width depth
  refine ⟨ls ++ ls', by simp [hls], fun ts hts => ?_, ?_⟩
  · obtain ⟨t, us, rfl, ht, hus⟩ := List.map_eq_cons_iff.1 hts
    exact LaysAll.cons (hprint t ht) (hprints us hus)
  · refine (hreads.lines hreads' hls (fun hls' => ?_) fun hls' ws => ?_).mono ?_
    · rw [hnil.1 hls']
      exact .nil
    · exact fun hws => hws.ne_nil fun heq => hls' (hnil.2 heq)
    · rintro w ⟨vs, ws, rfl, hvs, hws⟩
      exact hvs.cons hws hbare

end

end Sigil
