import Sigil.Proofs.Grammar.Language
import Sigil.Proofs.Parser.Follow
import Sigil.Proofs.Parser.Rules

/-!
# The languages that the routines follow

Each routine of the parser follows the language of its phrases. Where a routine goes on from an
operand that is parsed already, it follows the language of what carries such operands on. No routine
looks at what stands behind its phrase: statements that stop short of a token that could have
carried them on would still be statements, since the language of statements is closed under putting
them together.

## Main definitions

* `Routine.language`: the tokens that a routine may consume.

## Main results

* `Parser.run_follows`: the routines follow their languages with any number of frames.
* `Parser.program_follows`: the parser of programs follows the language of statements.
-/

namespace Sigil

open Parse

/-! ### Languages of routines -/

/-- What makes a slice out of an opening bracket and a bound in front of it. -/
def IsSliceEnd (w : List Token) : Prop :=
  ∀ o v, o.kind = .symbol .lbracket → IsBound v →
    CarriesOn Level.suffixed Level.suffixed (o :: (v ++ w))

/-- The tokens that a routine may consume: those of its phrase, or those that carry on the operand
that it goes on from. No binary operator is tighter than the operators in front of an operand. -/
def Routine.language : Routine → List Token → Prop
  | statement | block => IsStatement
  | expression none => IsExpression Level.conditional
  | expression (some _) => CarriesOn Level.suffixed Level.conditional
  | binary least none => IsExpression (min least Level.unary)
  | binary least (some _) => CarriesOn (min least Level.unary) (min least Level.unary)
  | unary | operand => IsExpression Level.unary
  | suffixed none => IsExpression Level.suffixed
  | suffixed (some _) => CarriesOn Level.suffixed Level.suffixed
  | subscript _ => fun w => w ≠ [] ∧ CarriesOn Level.suffixed Level.suffixed w
  | slice _ _ => IsSliceEnd
  | sliceBound => IsBound
  | primary | array | map => IsExpression Level.primary

/-- A routine without a frame stands for its language as well, since the language has a list. -/
theorem Routine.exists_language (routine : Routine) : ∃ w, routine.language w := by
  have hname {l : Int} (hl : l ≤ Level.primary) : IsExpression l [⟨.identifier, "", .start⟩] :=
    IsExpression.looser (.literal rfl) hl
  have hunary {l : Int} : min l Level.unary ≤ Level.primary :=
    Int.le_trans (Int.min_le_right _ _) (by decide)
  have hmark {s : Symbol} : (⟨.symbol s, "", .start⟩ : Token).kind = .symbol s := rfl
  rcases routine with _ | _ | (_ | a) | ⟨least, _ | a⟩ | _ | _ | (_ | a) | _ | _ | _ | _ | _ | _
  case statement | block => exact ⟨_, (hname (by decide)).bare⟩
  case expression.some | suffixed.some => exact ⟨[], .nil (by decide)⟩
  case binary.some => exact ⟨[], .nil (Int.le_refl _)⟩
  case binary.none => exact ⟨_, hname hunary⟩
  case subscript =>
    exact ⟨_, by simp, .index (hmark (s := .lbracket)) (hname (by decide))
      (hmark (s := .rbracket))⟩
  case slice =>
    refine ⟨[⟨.symbol .colon, "", .start⟩, ⟨.symbol .rbracket, "", .start⟩], fun o v ho hv => ?_⟩
    have hall := CarriesOn.slice ho (.two hv (hmark (s := .colon)) .leftOut)
      (hmark (s := .rbracket))
    simpa using hall
  case sliceBound => exact ⟨[], .leftOut⟩
  all_goals exact ⟨_, hname (by decide)⟩

namespace Parser

/-- The routines follow their languages. -/
def CallsFollow (call : Routine → Parse Node) : Prop :=
  ∀ routine, (call routine).Follows routine.language

variable {call : Routine → Parse Node} {s : State}

namespace CallsFollow

/-- A statement is called for. -/
theorem statement (h : CallsFollow call) : (call .statement).Follows IsStatement :=
  h .statement

/-- A whole expression is called for. -/
theorem expression (h : CallsFollow call) :
    (call (.expression none)).Follows (IsExpression Level.conditional) :=
  h (.expression none)

/-- A least level up to that of prefix operators is the level of the expression. -/
theorem binary (h : CallsFollow call) {least : Int} (hleast : least ≤ Level.unary) :
    (call (.binary least none)).Follows (IsExpression least) := by
  have hbinary : (call (.binary least none)).Follows (IsExpression (min least Level.unary)) :=
    h (.binary least none)
  rwa [Int.min_eq_left hleast] at hbinary

/-- Behind an operand that is parsed already, all binary operators are called for. -/
theorem resumed (h : CallsFollow call) (t : Node) :
    (call (.binary Level.logicalOr (some t))).Follows
      (CarriesOn Level.logicalOr Level.logicalOr) :=
  h (.binary Level.logicalOr (some t))

/-- An expression with prefix operators is called for. -/
theorem unary (h : CallsFollow call) : (call .unary).Follows (IsExpression Level.unary) :=
  h .unary

/-- An operand is called for. It may be an iteration, which is as loose as a prefix operator. -/
theorem operand (h : CallsFollow call) : (call .operand).Follows (IsExpression Level.unary) :=
  h .operand

/-- An expression with suffixes is called for. -/
theorem suffixed (h : CallsFollow call) :
    (call (.suffixed none)).Follows (IsExpression Level.suffixed) :=
  h (.suffixed none)

/-- The rest of a slice is called for. -/
theorem slice (h : CallsFollow call) (object start : Node) :
    (call (.slice object start)).Follows IsSliceEnd :=
  h (.slice object start)

/-- A bound is called for. -/
theorem sliceBound (h : CallsFollow call) : (call .sliceBound).Follows IsBound :=
  h .sliceBound

/-- A primary is called for. -/
theorem primary (h : CallsFollow call) : (call .primary).Follows (IsExpression Level.primary) :=
  h .primary

end CallsFollow

/-! ### Series -/

/-- What makes a series out of an item in front of it. -/
def IsTail (kind : Series) (w : List Token) : Prop :=
  ∀ v, IsItem kind v → IsSeries kind (v ++ w)

/-- One item makes a series. -/
theorem IsTail.nil {kind : Series} : IsTail kind [] := by
  intro v hv
  rw [List.append_nil]
  exact hv.series

/-- A comma and an item in front of what makes a series. -/
theorem IsTail.cons {kind : Series} {o : Token} {v w : List Token} (ho : o.kind = .symbol .comma)
    (hv : IsItem kind v) (hw : IsTail kind w) : IsTail kind (o :: (v ++ w)) :=
  fun _ hu => .cons hu ho (hw v hv) fun _ => by simp [hv.ne_nil]

/-- The items in brackets, where a comma may stand behind the last one. -/
theorem items_follows {kind : Series} {item : Parse Node} (close : Symbol)
    (h : item.Follows (IsItem kind)) (hkind : kind ≠ .arguments) :
    (items close item).Follows (IsSeries kind) := by
  intro s
  refine .check_bind (fun _ => .pure .nil) fun _ => (h s).bind fun first v m hv => ?_
  refine (FollowsAt.collect (L := IsTail kind) (fun s => ?_) .nil m).bind fun others w m hw =>
    .pure (by simpa using hw v hv)
  refine .accept_bind (by decide) (fun m => .pure .nil) fun o m ho => ?_
  refine .check_bind (fun _ => .pure ?_) fun _ => .map ((h m).mono fun _ v hv => ?_)
  · exact fun u hu => .cons hu ho .nil fun heq => absurd heq hkind
  · exact ⟨by simp, fun w hw => .cons ho hv hw⟩

/-- The arguments of a call. Behind a comma there has to be another one. -/
theorem arguments_follows (h : CallsFollow call) :
    (arguments call).Follows (IsSeries .arguments) := by
  intro s
  refine .check_bind (fun _ => .pure .nil) fun _ => (h.expression s).bind fun first v m hv => ?_
  refine (FollowsAt.collect (L := IsTail .arguments) (fun s => ?_) .nil m).bind
    fun others w m hw => .pure (by simpa using hw v (hv.item (by decide)))
  refine .accept_bind (by decide) (fun m => .pure .nil) fun o m ho => ?_
  refine .map ((h.expression m).mono fun _ v hv => ⟨by simp, fun w hw => ?_⟩)
  exact .cons ho (hv.item (by decide)) hw

/-! ### Primaries -/

/-- The items of an array between its marks. -/
theorem array_follows (h : CallsFollow call) :
    (array call).Follows (IsExpression Level.primary) := by
  intro s
  have hitem : (call (.expression none)).Follows (IsItem .elements) :=
    fun s => (h.expression s).mono fun _ _ hw => hw.item (by decide)
  refine .expect_bind (by decide) fun o m ho => ?_
  refine (items_follows .rbracket hitem (by decide) m).bind fun ts w m hw => ?_
  exact .expect_bind (by decide) fun c m hc => .finish fun _ => .array ho hw hc

/-- A key, which is a name or a string, a colon and a value. -/
theorem mapEntry_follows (h : CallsFollow call) : (mapEntry call).Follows (IsItem .entries) := by
  intro s
  refine (FollowsAt.expect (by decide) (by decide)).bind ?_
  rintro key w m ⟨hkey, rfl⟩
  refine .finish_bind fun name => .expect_bind (by decide) fun o m ho => ?_
  refine (h.expression m).bind fun t w m hw => .finish fun _ => ?_
  simpa using hw.entry (by simpa using hkey) ho

/-- The entries of a map between its marks. -/
theorem map_follows (h : CallsFollow call) : (map call).Follows (IsExpression Level.primary) := by
  intro s
  refine .expect_bind (by decide) fun o m ho => ?_
  refine (items_follows .rbrace (mapEntry_follows h) (by decide) m).bind fun ts w m hw => ?_
  exact .expect_bind (by decide) fun c m hc => .finish fun _ => .map ho hw hc

/-- A primary that is missing could be a name: that is a phrase with any of the tokens that are
expected. -/
theorem primary_follows (h : CallsFollow call) :
    (primary call).Follows (IsExpression Level.primary) := by
  intro s
  refine .current_bind ?_
  cases ho : literal? s.current.kind with
  | some kind =>
      have hkind : s.current.kind ≠ .endOfInput := by
        intro hend
        rw [hend] at ho
        cases ho
      exact .advance_bind hkind fun m => .finish fun _ => .literal ho
  | none =>
      dsimp only
      split
      · exact h .array s
      · exact h .map s
      · next hopen =>
          refine .advance_bind (by simp [hopen]) fun m => (h.expression m).bind fun t w m hw => ?_
          exact .expect_bind (by decide) fun c m hc => .pure (.group hopen hw hc)
      · refine .fail ⟨default, [⟨.identifier, "", .start⟩], .literal rfl⟩ fun x hx t ht => ?_
        rw [List.mem_singleton.1 hx] at ht
        have ht : t.kind = .identifier := ht
        exact ⟨default, [], .literal (by rw [ht]; rfl)⟩

/-! ### Subscripts -/

/-- A bound may always be left out. -/
theorem sliceBound_follows (h : CallsFollow call) : (sliceBound call).Follows IsBound :=
  fun s => .check_bind (fun _ => (h.primary s).mono fun _ _ hw => hw.bound) fun _ =>
    .absent fun _ => .leftOut

/-- Behind bounds that make a slice with any first one the bracket is expected. -/
theorem slice_close_follows {object start stop step : Node} {w : List Token}
    (hw : ∀ u, IsBound u → IsBounds (u ++ w)) :
    (slice.close object start stop step).Follows fun x => IsSliceEnd (w ++ x) := by
  intro s
  refine .expect_bind (by decide) fun c m hc => .finish fun _ o u ho hu => ?_
  have hall := CarriesOn.slice ho (hw u hu) hc
  simpa using hall

/-- Behind the first bound: a double colon with a step, or a colon with a stop and perhaps a
step. -/
theorem slice_follows (h : CallsFollow call) (object start : Node) :
    (slice call object start).Follows IsSliceEnd := by
  intro s
  refine .check_bind (fun halt => ?_) fun _ => .expect_bind (by decide) fun o m ho => ?_
  · have halt := List.mem_singleton.1 halt
    refine .absent_bind fun stop => .advance_bind (by simp [halt]) fun m => ?_
    refine (h.sliceBound m).bind fun step w m hw => ?_
    exact slice_close_follows (w := s.current :: w) (fun u hu => .outer hu halt hw) m
  · refine (h.sliceBound m).bind fun stop v m hv => .accept_bind (by decide) (fun m => ?_)
      fun colon m hcolon => ?_
    · refine .absent_bind fun step => ?_
      exact slice_close_follows (w := o :: v) (fun u hu => .two hu ho hv) m
    · refine (h.sliceBound m).bind fun step w m hw => ?_
      have hclose : FollowsAt _ (slice.close object start stop step) m :=
        slice_close_follows (fun u hu => .three hu ho hv hcolon hw) m
      simpa using hclose

/-- Behind an index the bracket is expected. -/
theorem subscript_close_follows {object index : Node} {o : Token} {w : List Token}
    (ho : o.kind = .symbol .lbracket) (hw : IsExpression Level.conditional w) :
    (subscript.close object index).Follows fun x =>
      CarriesOn Level.suffixed Level.suffixed (o :: (w ++ x)) :=
  fun s => .expect_bind (by decide) fun c m hc => .finish fun _ => .index ho hw hc

/-- A primary behind the bracket may be the start of a slice or of an index, and the tokens are in
the language either way. -/
theorem subscript_follows (h : CallsFollow call) (object : Node) :
    (subscript call object).Follows fun w =>
      w ≠ [] ∧ CarriesOn Level.suffixed Level.suffixed w := by
  intro s
  refine .expect_bind (by decide) fun o m ho => ?_
  refine FollowsAt.mono (S := fun _ w => CarriesOn Level.suffixed Level.suffixed (o :: w)) ?_
    fun _ w hw => ⟨by simp, hw⟩
  refine .check_bind (fun _ => ?_) fun _ => .check_bind (fun _ => ?_) fun _ => ?_
  · refine .absent_bind fun start => (h.slice object start m).mono fun _ w hw => ?_
    exact hw o [] ho .leftOut
  · refine (h.primary m).bind fun first v m hv => .check_bind (fun _ => ?_) fun _ => ?_
    · exact (h.slice object first m).mono fun _ w hw => hw o v ho hv.bound
    · have hsuffixes : (call (.suffixed (some first))).Follows
          (CarriesOn Level.suffixed Level.suffixed) := h (.suffixed (some first))
      refine (hsuffixes m).bind fun operand w m hw => ?_
      have hresumed : (call (.expression (some operand))).Follows
          (CarriesOn Level.suffixed Level.conditional) := h (.expression (some operand))
      refine (hresumed m).bind fun index x m hx => ?_
      have hindex := hx _ (hw v (hv.looser (by decide)))
      have hclose : FollowsAt _ (subscript.close object index) m :=
        subscript_close_follows ho hindex m
      simpa using hclose
  · exact (h.expression m).bind fun index w m hw => subscript_close_follows ho hw m

/-! ### Suffixes -/

/-- A step of a repetition that makes expressions of a level out of others of the same level. -/
theorem repeats_some {α : Type} {a : α} {level : Int} {w : List Token}
    (hw : CarriesOn level level w) (hne : w ≠ []) :
    Repeats (CarriesOn level level) (some a) w :=
  ⟨hne, fun _ hv => hw.append hv⟩

/-- Every suffix makes another suffixed expression. -/
theorem suffix?_follows (h : CallsFollow call) (object : Node) (s : State) :
    FollowsAt (Repeats (CarriesOn Level.suffixed Level.suffixed)) (suffix? call object) s := by
  refine .current_bind ?_
  split
  · next ho =>
      refine .advance_bind (by simp [ho]) fun m => (arguments_follows h m).bind fun ts w m hw => ?_
      refine .expect_bind (by decide) fun c m hc => .map (.finish fun _ => ?_)
      exact repeats_some (.call ho hw hc) (by simp)
  · have hsubscript : (call (.subscript object)).Follows fun w =>
        w ≠ [] ∧ CarriesOn Level.suffixed Level.suffixed w := h (.subscript object)
    exact .map ((hsubscript s).mono fun _ w hw => repeats_some hw.2 hw.1)
  · next ho =>
      refine .advance_bind (by simp [ho]) fun m => .expect_bind (by decide) fun name m hname => ?_
      exact .map (.finish fun _ => repeats_some (.member ho hname) (by simp))
  · exact .pure (CarriesOn.nil (Int.le_refl _))

/-- Suffixes behind a primary. -/
theorem suffixed_follows (h : CallsFollow call) :
    (suffixed call none).Follows (IsExpression Level.suffixed) := by
  intro s
  refine (h.primary s).bind fun first v m hv => ?_
  refine (FollowsAt.iterate (suffix?_follows h) (.nil (Int.le_refl _)) first m).mono
    fun _ w hw => hw v (hv.looser (by decide))

/-! ### Operators -/

/-- An iteration or an expression with suffixes. -/
theorem operand_follows (h : CallsFollow call) :
    (operand call).Follows (IsExpression Level.unary) := by
  intro s
  refine .current_bind ?_
  split
  · next ho =>
      refine .advance_bind (by simp [ho]) fun m => (h.suffixed m).bind fun a v m hv => ?_
      refine .expect_bind (by decide) fun o m hm => (h.unary m).bind fun b w m hw => ?_
      refine .finish fun _ => ?_
      simpa using hv.iteration ho hm hw
  · exact (h.suffixed s).mono fun _ w hw => hw.looser (by decide)

/-- What makes an operand out of an operand behind it. -/
def IsPrefix (w : List Token) : Prop :=
  ∀ v, IsExpression Level.unary v → IsExpression Level.unary (w ++ v)

/-- A prefix operator makes an operand of one behind it. -/
theorem prefixOperator_follows (s : State) :
    FollowsAt (Repeats IsPrefix) prefixOperator s := by
  refine .current_bind ?_
  split
  · next kind ho =>
      have hkind : s.current.kind ≠ .endOfInput := by
        intro hend
        rw [hend] at ho
        cases ho
      refine .advance_bind hkind fun m => .pure ⟨by simp, fun w hw v hv => ?_⟩
      exact (hw v hv).prefixed ho
  · exact .pure fun v hv => hv

/-- The operators in front of an operand are applied without looking ahead. -/
theorem applied_follows {T : Node → List Token → Prop} (h : ∀ t, T t [])
    (operators : List (Token × NodeKind)) (first : Node) (s : State) :
    FollowsAt T (operators.foldrM (fun (t, kind) node =>
      finish kind t.position (.text t.text) [node]) first) s := by
  induction operators generalizing T with
  | nil => exact .pure (h first)
  | cons operator operators ih =>
      rw [List.foldrM_cons]
      refine (ih (T := fun _ w => w = []) fun _ => rfl).bind ?_
      rintro node w m rfl
      exact .finish h

/-- Prefix operators, from the last one back, in front of an operand. -/
theorem unary_follows (h : CallsFollow call) : (unary call).Follows (IsExpression Level.unary) := by
  intro s
  refine (FollowsAt.collect prefixOperator_follows (fun _ hv => hv) s).bind
    fun operators v m hv => (h.operand m).bind fun first w m hw => ?_
  exact applied_follows (fun _ => by simpa using hv w hw) operators first m

/-- An operator with its right operand makes another expression of each level that is loose
enough. -/
theorem operation?_follows (h : CallsFollow call) {least l : Int} (hl : l ≤ least) (left : Node)
    (s : State) : FollowsAt (Repeats (CarriesOn l l)) (operation? call least left) s := by
  refine .current_bind ?_
  split
  · exact .pure (CarriesOn.nil (Int.le_refl _))
  · next level kind ho =>
      split
      · next hle =>
          have hkind : s.current.kind ≠ .endOfInput := by
            intro hend
            rw [hend] at ho
            cases ho
          have hright := h.binary (Int.add_one_le_of_lt (level_lt_unary ho))
          refine .advance_bind hkind fun m => (hright m).bind
            fun right w m hw => .map (.finish fun _ => ?_)
          refine repeats_some (fun v hv => ?_) (by simp)
          simpa using hv.operated ho hw (Int.le_trans hl hle)
      · exact .pure (CarriesOn.nil (Int.le_refl _))

/-- Operations carry on operands of any level that is no tighter than theirs. -/
theorem operations_follow (h : CallsFollow call) {least l : Int} (hl : l ≤ least) (t : Node) :
    (iterate (operation? call least) t).Follows (CarriesOn l l) :=
  fun s => .iterate (operation?_follows h hl) (.nil (Int.le_refl _)) t s

/-- Operators behind an operand. -/
theorem binary_follows (h : CallsFollow call) (least : Int) :
    (binary call least none).Follows (IsExpression (min least Level.unary)) := by
  intro s
  refine (h.unary s).bind fun first v m hv => ?_
  exact (operations_follow h (Int.min_le_left _ _) first m).mono fun _ w hw =>
    hw v (hv.looser (Int.min_le_right _ _))

/-- The two branches of a conditional carry its condition on, and so does nothing. -/
theorem branches_follows (h : CallsFollow call) (condition : Node) :
    (branches call condition).Follows (CarriesOn Level.logicalOr Level.conditional) := by
  intro s
  refine .accept_bind (by decide) (fun m => .pure (.nil (by decide))) fun o m ho => ?_
  refine (h.expression m).bind fun b v m hv => .expect_bind (by decide) fun colons m hcolons => ?_
  refine (h.expression m).bind fun c w m hw => .finish fun _ => ?_
  simpa using CarriesOn.conditional ho hv hcolons hw

/-- A condition and perhaps branches. -/
theorem expression_follows (h : CallsFollow call) :
    (expression call none).Follows (IsExpression Level.conditional) := by
  intro s
  refine (h.binary (by decide) s).bind fun condition v m hv => ?_
  exact (branches_follows h condition m).mono fun _ w hw => hw v hv

/-- The operators and branches behind an operand that is parsed already. -/
theorem resumed_follows (h : CallsFollow call) (t : Node) :
    (expression call (some t)).Follows (CarriesOn Level.suffixed Level.conditional) := by
  intro s
  refine (h.resumed t s).bind fun condition v m hv => ?_
  refine (branches_follows h condition m).mono fun _ w hw => ?_
  exact (CarriesOn.nil (by decide)).append (hv.append hw)

/-! ### Statements -/

/-- Statements behind each other, up to a token that may end them. -/
theorem statements_follows {stop : List TokenKind} {statement : Parse Node}
    (h : statement.Follows IsStatement) :
    (collect do
      if ← check stop then return none else some <$> statement).Follows IsStatements := by
  intro s
  refine .collect (fun s => .check_bind (fun _ => .pure .nil) fun _ => .map ?_) .nil s
  exact (h s).mono fun _ w hw => ⟨hw.ne_nil, fun _ hv => .cons hw hv⟩

/-- Statements in braces. -/
theorem block_follows (h : CallsFollow call) : (block call).Follows IsStatement := by
  intro s
  refine .expect_bind (by decide) fun o m ho => ?_
  refine (statements_follows h.statement m).bind fun ts w m hw => ?_
  exact .expect_bind (by decide) fun c m hc => .finish fun _ => hw.block ho hc

/-- A block, an expression, or an expression and the name that it defines. -/
theorem statement_follows (h : CallsFollow call) : (statement call).Follows IsStatement := by
  intro s
  refine .check_bind (fun _ => h .block s) fun _ => ?_
  refine (h.expression s).bind fun t w m hw => .accept_bind (by decide) (fun m => ?_)
    fun o m ho => ?_
  · exact .pure (by simpa using hw.bare)
  · refine .expect_bind (by decide) fun name m hname => .finish_bind fun _ => .finish fun _ => ?_
    exact hw.dataflow ho hname

/-- Statements up to the end of the input. -/
theorem programWith_follows (h : CallsFollow call) : (programWith call).Follows IsStatements := by
  intro s
  refine (statements_follows h.statement s).bind fun ts w m hw => .current_bind ?_
  exact .pure (by simpa using hw)

/-! ### All routines -/

/-- Of each routine: if the routines that it calls follow their languages, so does it. -/
theorem body_follows (h : CallsFollow call) (routine : Routine) :
    (routine.body call).Follows routine.language := by
  rcases routine with _ | _ | (_ | a) | ⟨least, _ | a⟩ | _ | _ | (_ | a) | object |
    ⟨object, start⟩ | _ | _ | _ | _
  case statement => exact statement_follows h
  case block => exact block_follows h
  case expression.none => exact expression_follows h
  case expression.some => exact resumed_follows h a
  case binary.none => exact binary_follows h least
  case binary.some => exact operations_follow h (Int.min_le_left _ _) a
  case unary => exact unary_follows h
  case operand => exact operand_follows h
  case suffixed.none => exact suffixed_follows h
  case suffixed.some => exact fun s => .iterate (suffix?_follows h) (.nil (Int.le_refl _)) a s
  case subscript => exact subscript_follows h object
  case slice => exact slice_follows h object start
  case sliceBound => exact sliceBound_follows h
  case primary => exact primary_follows h
  case array => exact array_follows h
  case map => exact map_follows h

/-- The routines follow their languages with any number of frames. -/
theorem run_follows (n : Nat) : CallsFollow (run n) := by
  induction n with
  | zero =>
      intro routine
      obtain ⟨w, hw⟩ := routine.exists_language
      exact Follows.overflow hw
  | succ n ih => exact body_follows ih

/-- The parser of programs follows the language of statements. -/
theorem program_follows (room : Nat) : (program room).Follows IsStatements := by
  rw [program_eq]
  exact fun s => (programWith_follows (run_follows room) s).reportingOverflow

/-- A stack that runs out is reported, so the parser of programs does not overflow. -/
theorem program_ne_overflow (room : Nat) (s s' : State) : program room s ≠ .error .overflow s' := by
  rw [program_eq]
  exact reportingOverflow_ne_overflow _ s s'

end Parser

end Sigil
