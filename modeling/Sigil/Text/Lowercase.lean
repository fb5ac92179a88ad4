import Sigil.Text.CaseTable

/-!
# Lower case

Full lower-casing of a text. Two letters need more than a table: the capital I with a dot becomes
two characters, and the capital sigma has a form of its own at the end of a word.
-/

namespace Sigil.Text

/-- The characters that are passed over in search of a cased neighbour. -/
def isCaseIgnorable (c : Char) : Bool :=
  inRanges caseIgnorableRanges c

/-- The characters that are letters with case, as far as a sigma beside them is concerned. -/
def isCased (c : Char) : Bool :=
  inRanges casedRanges c

/-- The small letter of a character, or the character itself if it has none. -/
def lowerChar (c : Char) : Char :=
  match caseRuns.find? fun r => r.holds c.toNat with
  | some r => Char.ofNat (c.toNat + r.shift).toNat
  | none => c

/-- Lower-cases the rest of a text; `inWord` says that a cased character stands before it, with only
ignorable ones between. A capital sigma is final if it is in a word that does not go on. -/
def lowerFrom (inWord : Bool) : List Char → List Char
  | [] => []
  | c :: cs =>
    let small :=
      if c = 'İ' then ['i', '\u0307']
      else if c = 'Σ' then
        let goesOn := (cs.dropWhile isCaseIgnorable).head?.any isCased
        [if inWord && !goesOn then 'ς' else 'σ']
      else [lowerChar c]
    small ++ lowerFrom (if isCaseIgnorable c then inWord else isCased c) cs

/-- The text in lower case. -/
def lowercase (s : String) : String :=
  String.ofList (lowerFrom false s.toList)

end Sigil.Text
