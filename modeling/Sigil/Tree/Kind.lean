import Sigil.Symbol

/-!
# Kinds of nodes

What a node of a syntax tree stands for. Kinds also have names, under which trees are shown and made
by hand; a name that belongs to no kind of the language is kept as it is.

## Main results

* `NodeKind.name_ofName`: the kind found for a name has that name, so no name is lost.
* `NodeKind.level?`: how tightly each kind of expression binds.
-/

namespace Sigil

/-- The kinds of nodes. -/
inductive NodeKind where
  | program
  | block
  | dataflow
  | conditional
  | logicalOr
  | logicalAnd
  | comparison
  | additive
  | multiplicative
  /-- Two operands under an operator of no particular family. The parser makes no such node. -/
  | binary
  | unary
  | strategy
  | iteration
  | call
  | index
  | slice
  | member
  | identifier
  | number
  | string
  | boolean
  | array
  | map
  | mapEntry
  /-- The mark of a slice bound that is left out. -/
  | absent
  /-- A kind that the language does not have, under the name it came with. -/
  | other (name : String)
  deriving DecidableEq, Repr

namespace NodeKind

/-- The name of a kind. -/
def name : NodeKind → String
  | program => "program"
  | block => "block"
  | dataflow => "dataflow"
  | conditional => "conditional"
  | logicalOr => "logical_or"
  | logicalAnd => "logical_and"
  | comparison => "comparison"
  | additive => "additive"
  | multiplicative => "multiplicative"
  | binary => "binary"
  | unary => "unary"
  | strategy => "strategy"
  | iteration => "iteration"
  | call => "call"
  | index => "index"
  | slice => "slice"
  | member => "member"
  | identifier => "identifier"
  | number => "number"
  | string => "string"
  | boolean => "boolean"
  | array => "array"
  | map => "map"
  | mapEntry => "map_entry"
  | absent => "absent"
  | other name => name

/-- The kinds that the language has. -/
def known : List NodeKind :=
  [program, block, dataflow, conditional, logicalOr, logicalAnd, comparison, additive,
    multiplicative, binary, unary, strategy, iteration, call, index, slice, member, identifier,
    number, string, boolean, array, map, mapEntry, absent]

/-- The kind with a name. -/
def ofName (name : String) : NodeKind :=
  (known.find? fun k => k.name = name).getD (other name)

/-- No name is lost: the kind found for a name has that name. -/
@[simp] theorem name_ofName (n : String) : (ofName n).name = n := by
  unfold ofName
  cases h : known.find? fun k => k.name = n with
  | none => rfl
  | some k => simpa using List.find?_some h

/-- The node-valued text of these kinds stands before their children in the source. -/
def valueFirst (k : NodeKind) : Bool :=
  k = call || k = dataflow

end NodeKind

/-! ### Levels

How tightly an expression binds is a number from 1, the loosest, to 9. The numbers are integers
because a reader or a printer may be asked for any bound. -/

namespace Level

abbrev conditional : Int := 1
abbrev logicalOr : Int := 2
abbrev logicalAnd : Int := 3
abbrev comparison : Int := 4
abbrev additive : Int := 5
abbrev multiplicative : Int := 6
abbrev unary : Int := 7
abbrev suffixed : Int := 8
abbrev primary : Int := 9

end Level

/-- The level of each kind of expression. Statements, map entries, the mark of an absent bound and
operators of no particular family have none. -/
def NodeKind.level? : NodeKind → Option Int
  | conditional => some Level.conditional
  | logicalOr => some Level.logicalOr
  | logicalAnd => some Level.logicalAnd
  | comparison => some Level.comparison
  | additive => some Level.additive
  | multiplicative => some Level.multiplicative
  | unary | strategy | iteration => some Level.unary
  | call | index | slice | member => some Level.suffixed
  | identifier | number | string | boolean | array | map => some Level.primary
  | program | block | dataflow | binary | mapEntry | absent | other _ => none

/-! ### Operators -/

namespace Symbol

/-- The level and the kind of node that a binary operator makes. All of them group to the left. -/
def binary? : Symbol → Option (Int × NodeKind)
  | or => some (Level.logicalOr, .logicalOr)
  | and => some (Level.logicalAnd, .logicalAnd)
  | eq | ne | lt | gt | le | ge => some (Level.comparison, .comparison)
  | plus | minus => some (Level.additive, .additive)
  | times | divide | modulo => some (Level.multiplicative, .multiplicative)
  | _ => none

/-- The kind of node that an operator in front of its operand makes. -/
def prefixed? : Symbol → Option NodeKind
  | not | minus => some .unary
  | lazy | greedy | random => some .strategy
  | _ => none

/-- A binary operator makes nodes of its own level, which lies between the logical operators and the
multiplicative ones. -/
theorem level_of_binary? {s : Symbol} {level : Int} {kind : NodeKind}
    (h : s.binary? = some (level, kind)) :
    kind.level? = some level ∧ Level.logicalOr ≤ level ∧ level ≤ Level.multiplicative := by
  cases s <;> simp [binary?] at h <;> obtain ⟨rfl, rfl⟩ := h <;> decide

end Symbol

end Sigil
