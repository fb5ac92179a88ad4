import Sigil.Position
import Sigil.Symbol
import Sigil.Text.Quoted

/-!
# Tokens

A token is a word of the language: its kind, the text it was written with and the place where it
starts. Kinds are also known by names, which messages and hand-made token lists use; a name that
belongs to no kind of the language is kept as it is.

## Main results

* `TokenKind.name_ofName`: the kind found for a name has that name, so no name is lost.
-/

namespace Sigil

/-- The kinds of tokens. -/
inductive TokenKind where
  | identifier
  | number
  | string
  | boolean
  | symbol (s : Symbol)
  | endOfInput
  /-- A kind that the language does not have, under the name it came with. -/
  | other (name : String)
  deriving DecidableEq, Repr

namespace TokenKind

/-- The name of a kind in messages and token lists. -/
def name : TokenKind → String
  | identifier => "IDENT"
  | number => "NUMBER"
  | string => "STRING"
  | boolean => "BOOLEAN"
  | symbol s => s.name
  | endOfInput => "EOF"
  | other name => name

/-- The kind with a name. -/
def ofName (name : String) : TokenKind :=
  if name = "IDENT" then identifier
  else if name = "NUMBER" then number
  else if name = "STRING" then string
  else if name = "BOOLEAN" then boolean
  else if name = "EOF" then endOfInput
  else match Symbol.ofName? name with
    | some s => symbol s
    | none => other name

/-- No name is lost: the kind found for a name has that name. -/
@[simp] theorem name_ofName (n : String) : (ofName n).name = n := by
  unfold ofName
  split
  · next h => exact h.symm
  split
  · next h => exact h.symm
  split
  · next h => exact h.symm
  split
  · next h => exact h.symm
  split
  · next h => exact h.symm
  split
  · next s h =>
      have found : Symbol.all.find? (fun t => t.name = n) = some s := h
      have hs : s.name = n := by simpa using List.find?_some found
      exact hs
  · rfl

/-- A symbol is found by its name. -/
@[simp] theorem ofName_name_symbol (s : Symbol) : ofName (symbol s).name = symbol s := by
  cases s <;> decide

/-- The description of a kind in a list of what was expected: a symbol shows its spelling. -/
def description : TokenKind → String
  | identifier => "identifier"
  | number => "number"
  | string => "string"
  | boolean => "boolean"
  | symbol s => Text.quoted s.spelling
  | endOfInput => "end of input"
  | other name => name

end TokenKind

/-- A word of a text: its kind, its exact text and the place where it starts. -/
structure Token where
  kind : TokenKind
  text : String
  position : Position
  deriving DecidableEq, Repr

namespace Token

/-- The offset behind the last character of a token. -/
def stop (t : Token) : Int :=
  t.position.offset + t.text.length

/-- The place behind a token. -/
def finish (t : Token) : Position :=
  t.position.after t.text.toList

/-- The end of input at a place. -/
def endAt (p : Position) : Token :=
  ⟨.endOfInput, "", p⟩

/-- The end of input behind the last token read, which is the start of the text if there is none. -/
def endAfter : Option Token → Token
  | some t => endAt t.finish
  | none => endAt .start

/-- The description of a token that was found in place of an expected one. -/
def description (t : Token) : String :=
  if t.kind = .endOfInput then "end of input"
  else t.kind.name ++ " " ++ Text.quoted t.text

/-- A token for display: the name of its kind and its bare text. -/
def display (t : Token) : String :=
  "Token(" ++ t.kind.name ++ ", " ++ t.text ++ ")"

end Token

end Sigil
