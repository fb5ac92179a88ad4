import Sigil.Print.Source

/-!
# The printer as equations

The text of each kind of expression by the texts of its parts. The equations hold by computation, so
nothing that uses them unfolds the printer as a whole.

## Main results

* `Source.expression_operation`, `Source.expression_slice` and so on: one kind of expression each.
* `Source.commaSeparated_eq`, `Source.entries_eq`: the items of a series are printed one by one.
-/

namespace Sigil

namespace Source

variable (a b c d t : Node) (ts : List Node) (mark : Extent) (least : Int)

/-! ### Children -/

/-- The printed children wait for the level of the place that they are put at. -/
theorem expressions_eq : expressions ts = ts.map expression := by
  induction ts with
  | nil => rfl
  | cons t ts ih => exact congrArg (expression t :: ·) ih

/-- The text of the first child. -/
theorem child_zero : child (expressions (t :: ts)) 0 least = expression t least := rfl

/-- The text of a child is found behind the first one. -/
theorem child_succ (i : Nat) :
    child (expressions (t :: ts)) (i + 1) least = child (expressions ts) i least := rfl

/-- The items of a call or an array are printed one by one. -/
theorem commaSeparated_eq :
    commaSeparated (expressions ts) =
      Text.joined ", " <$> ts.mapM fun t => expression t Level.conditional := by
  rw [commaSeparated, expressions_eq, List.mapM_map]
  rfl

/-- The text of an entry of a map. -/
def entry (t : Node) : Printed := do
  let key ←
    if (t.kind.slot? Field.key.word).isSome then
      child (expressions t.children) 0 Level.conditional
    else .error (.access (.noField t.kind Field.key.word))
  let value ← valueExpression t.value
  return key ++ ": " ++ value

/-- An entry is printed when its key and its value are. -/
theorem entry_of_expressions {key value : String} (ha : expression a Level.conditional = .ok key)
    (hb : expression b Level.conditional = .ok value) :
    entry ⟨.mapEntry, .node b, a :: ts, mark⟩ = .ok (key ++ ": " ++ value) := by
  have hslot : (NodeKind.mapEntry.slot? Field.key.word).isSome = true := by decide
  simp only [entry, hslot, if_true, child_zero, ha, valueExpression, hb]
  rfl

/-- The entries of a map are printed one by one. -/
theorem entries_eq : entries ts = ts.mapM entry := by
  induction ts with
  | nil => rfl
  | cons t ts ih =>
      obtain ⟨kind, value, children, mark⟩ := t
      rw [List.mapM_cons, ← ih, entry]
      by_cases hslot : (kind.slot? Field.key.word).isSome = true
      · rw [if_pos hslot]
        cases value <;>
          (rw [entries, if_pos hslot]; simp only [bind_assoc, pure_bind, valueExpression])
      · rw [entries, if_neg hslot, if_neg hslot]
        rfl

/-- The text of a bound of a slice. -/
def bound (t : Node) : Printed :=
  if t.kind = .absent then .ok "" else expression t Level.primary

/-- A step that is left out leaves no colon. -/
def step (t : Node) : Printed :=
  if t.kind = .absent then .ok "" else (":" ++ ·) <$> expression t Level.primary

/-! ### Kinds of expressions -/

/-- A string is printed in quotes. -/
theorem expression_string (text : String) :
    expression ⟨.string, .text text, ts, mark⟩ least =
      atLevel least Level.primary <$> stringLiteral text := rfl

/-- An array is printed with its items. -/
theorem expression_array :
    expression ⟨.array, .none, ts, mark⟩ least = do
      let elements ← commaSeparated (expressions ts)
      return atLevel least Level.primary ("#[" ++ elements ++ "]") := rfl

/-- A map is printed with its entries. -/
theorem expression_map :
    expression ⟨.map, .none, ts, mark⟩ least = do
      let entries ← entries ts
      return atLevel least Level.primary ("#\x7b" ++ Text.joined ", " entries ++ "\x7d") := rfl

/-- A call is printed with the expression that is called and its arguments. -/
theorem expression_call :
    expression ⟨.call, .node t, ts, mark⟩ least = do
      let callee ← expression t Level.suffixed
      let arguments ← commaSeparated (expressions ts)
      return atLevel least Level.suffixed (callee ++ "(" ++ arguments ++ ")") := rfl

/-- An index may be as loose as its brackets allow. -/
theorem expression_index :
    expression ⟨.index, .none, [a, b], mark⟩ least = do
      let object ← expression a Level.suffixed
      let index ← expression b Level.conditional
      return atLevel least Level.suffixed (object ++ "[" ++ index ++ "]") := rfl

/-- A slice is printed with its bounds one by one. -/
theorem expression_slice :
    expression ⟨.slice, .none, [a, b, c, d], mark⟩ least = do
      let object ← expression a Level.suffixed
      let start ← bound b
      let stop ← bound c
      let step ← step d
      return atLevel least Level.suffixed
        (object ++ "[" ++ start ++ ":" ++ stop ++ step ++ "]") := by
  have hall : expression ⟨.slice, .none, [a, b, c, d], mark⟩ least = (do
      let object ← expression a Level.suffixed
      let start ← bound b
      let stop ← bound c
      let close (text : String) : Printed :=
        .ok (atLevel least Level.suffixed (object ++ "[" ++ start ++ ":" ++ stop ++ text ++ "]"))
      if d.kind = NodeKind.absent then .ok "" >>= close
      else ((":" ++ ·) <$> bound d) >>= close) := rfl
  by_cases hd : d.kind = .absent
  · rw [hall, step, if_pos hd]
    simp only [if_pos hd]
    rfl
  · have hbound : bound d = expression d Level.primary := if_neg hd
    rw [hall, step, if_neg hd]
    simp only [if_neg hd, hbound]
    rfl

/-- A member is printed with its name. -/
theorem expression_member (name : String) :
    expression ⟨.member, .text name, [a], mark⟩ least = do
      let object ← expression a Level.suffixed
      return atLevel least Level.suffixed (object ++ "." ++ name) := rfl

/-- A prefix operator is printed in front of its operand, without a blank. -/
theorem expression_prefixed {s : Symbol} {kind : NodeKind} (hs : s.prefixed? = some kind)
    (text : String) :
    expression ⟨kind, .text text, [a], mark⟩ least = do
      let operand ← expression a Level.unary
      return atLevel least Level.unary (text ++ operand) := by
  cases s <;> cases hs <;> rfl

/-- An iteration is printed with a blank behind each of its marks. -/
theorem expression_iteration :
    expression ⟨.iteration, .none, [a, b], mark⟩ least = do
      let collection ← expression a Level.suffixed
      let transform ← expression b Level.unary
      return atLevel least Level.unary ("@@ " ++ collection ++ " >> " ++ transform) := rfl

/-- The kinds of binary operators are printed alike. -/
theorem expression_operation {s : Symbol} {level : Int} {kind : NodeKind}
    (hs : s.binary? = some (level, kind)) (text : String) :
    expression ⟨kind, .text text, [a, b], mark⟩ least = do
      let left ← expression a level
      let right ← expression b (level + 1)
      return atLevel least level (left ++ " " ++ text ++ " " ++ right) := by
  have hall : expression ⟨kind, .text text, [a, b], mark⟩ least =
      atLevel least level <$> binaryOperation (expressions [a, b]) level text := by
    cases s <;> cases hs <;> rfl
  rw [hall, binaryOperation, child_zero, child_succ, child_zero]
  simp only [map_bind, map_pure]

/-- A conditional is printed with blanks around its marks. Only its condition has to be tighter. -/
theorem expression_conditional :
    expression ⟨.conditional, .none, [a, b, c], mark⟩ least = do
      let condition ← expression a Level.logicalOr
      let consequence ← expression b Level.conditional
      let alternative ← expression c Level.conditional
      return atLevel least Level.conditional
        (condition ++ " ?? " ++ consequence ++ " :: " ++ alternative) := rfl

end Source

end Sigil
