import Sigil.Text.Hex
import Sigil.Text.Unprintable

/-!
# Quoted texts

Messages show a text between quotation marks, so that its ends and its invisible characters can be
seen. The mark is the apostrophe unless the text holds apostrophes and no double quotes.
-/

namespace Sigil.Text

/-- The quotation mark for a text: a double quote if the text holds an apostrophe and no double
quote, and an apostrophe otherwise. -/
def quoteMark (cs : List Char) : Char :=
  if '\'' ∈ cs ∧ '"' ∉ cs then '"' else '\''

/-- A character inside a quoted text: the mark and the backslash follow a backslash, the tab and the
line ends have letters of their own, and any other character without a visible form is written by
its code point with two, four or eight digits. -/
def quotedChar (mark c : Char) : List Char :=
  if c = mark ∨ c = '\\' then ['\\', c]
  else if c = '\t' then ['\\', 't']
  else if c = '\n' then ['\\', 'n']
  else if c = '\r' then ['\\', 'r']
  else if isPrintable c then [c]
  else if c.toNat < 0x100 then '\\' :: 'x' :: hex 2 c.toNat
  else if c.toNat < 0x10000 then '\\' :: 'u' :: hex 4 c.toNat
  else '\\' :: 'U' :: hex 8 c.toNat

/-- The text between quotation marks. -/
def quoted (s : String) : String :=
  let mark := quoteMark s.toList
  String.ofList (mark :: s.toList.flatMap (quotedChar mark) ++ [mark])

end Sigil.Text
