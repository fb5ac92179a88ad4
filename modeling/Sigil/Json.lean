import Sigil.Text.Hex
import Sigil.Text.Joined

/-!
# JSON documents

Documents of null, integers, texts, arrays and objects whose members keep their order, and their
written form, which is ASCII: every other character is escaped by its UTF-16 units. A document is
written on one line, or with each element and member on a line of its own.

## Main definitions

* `Json.write`: the written form of a document.
-/

namespace Sigil

/-- A JSON document without fractions and truth values. -/
inductive Json where
  | null
  | number (n : Int)
  | text (s : String)
  | array (elements : List Json)
  | object (members : List (String × Json))

namespace Json

/-! ### Texts -/

/-- A UTF-16 unit as an escape. -/
def escapedUnit (unit : Nat) : List Char :=
  '\\' :: 'u' :: Text.hex 4 unit

/-- A character inside a written text. -/
def escapedChar (c : Char) : List Char :=
  let n := c.toNat
  if c = '"' then ['\\', '"']
  else if c = '\\' then ['\\', '\\']
  else if c = '\n' then ['\\', 'n']
  else if c = '\r' then ['\\', 'r']
  else if c = '\t' then ['\\', 't']
  else if n = 8 then ['\\', 'b']
  else if n = 12 then ['\\', 'f']
  else if 32 ≤ n ∧ n < 127 then [c]
  else if n < 0x10000 then escapedUnit n
  else escapedUnit (0xD800 + (n - 0x10000) / 0x400) ++ escapedUnit (0xDC00 + (n - 0x10000) % 0x400)

/-- A text in double quotes. -/
def quoted (s : String) : String :=
  String.ofList ('"' :: s.toList.flatMap escapedChar ++ ['"'])

/-! ### Documents -/

/-- How a document is laid out: on one line, or a line for each element and member, indented by a
width for every level. -/
inductive Layout where
  | line
  | lines (width : Nat)
  deriving DecidableEq, Repr

namespace Layout

/-- The layout with an indentation: none at all for one line, and no blanks for a negative one. -/
def ofIndentation : Option Int → Layout
  | none => line
  | some width => lines width.toNat

/-- What stands in front of the first element at a depth, and behind the last one at the depth
around it. -/
def margin : Layout → Nat → String
  | line, _ => ""
  | lines width, depth => "\n" ++ String.ofList (List.replicate (width * depth) ' ')

/-- What stands between two elements at a depth. -/
def between : Layout → Nat → String
  | line, _ => ", "
  | lines width, depth => "," ++ (lines width).margin depth

end Layout

/-- Written elements between brackets at a depth. Empty brackets hold nothing at all. -/
def enclosed (layout : Layout) (depth : Nat) (opening closing : String) :
    List String → String
  | [] => opening ++ closing
  | elements =>
    opening ++ layout.margin (depth + 1) ++ Text.joined (layout.between (depth + 1)) elements ++
      layout.margin depth ++ closing

mutual

/-- The written form of a document at a depth. -/
def writeAt (layout : Layout) : Nat → Json → String
  | _, null => "null"
  | _, number n => toString n
  | _, text s => quoted s
  | depth, array elements =>
    enclosed layout depth "[" "]" (writeElements layout (depth + 1) elements)
  | depth, object members =>
    enclosed layout depth "\x7b" "\x7d" (writeMembers layout (depth + 1) members)

/-- The written forms of the elements of an array. -/
def writeElements (layout : Layout) : Nat → List Json → List String
  | _, [] => []
  | depth, e :: es => writeAt layout depth e :: writeElements layout depth es

/-- The written forms of the members of an object. -/
def writeMembers (layout : Layout) : Nat → List (String × Json) → List String
  | _, [] => []
  | depth, (name, value) :: ms =>
    (quoted name ++ ": " ++ writeAt layout depth value) :: writeMembers layout depth ms

end

/-- The written form of a document. -/
def write (layout : Layout) (j : Json) : String :=
  writeAt layout 0 j

end Json

end Sigil
