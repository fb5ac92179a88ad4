import Sigil.Text.Joined
import Sigil.Token.Stream

/-!
# Failures of parsing

A text fails to parse because it cannot be cut into tokens, or because a token does not fit. In the
second case the failure holds what was expected in place of the token. A routine of the parser may
also fail because the stack has no room for another call, which says nothing about the text; whoever
asks for a whole program never sees this, since it is reported there as a token that does not fit.
-/

namespace Sigil

/-- What a parser expected. -/
inductive Expectation where
  /-- A token of a kind. -/
  | token (kind : TokenKind)
  /-- The start of an expression. -/
  | expression
  deriving DecidableEq, Repr

/-- The description of an expectation in messages. -/
def Expectation.description : Expectation → String
  | token kind => kind.description
  | expression => "expression"

/-- Why a token does not fit. -/
inductive ParseFault where
  /-- Something else was expected. -/
  | unexpected (expected : List Expectation)
  /-- The stack ran out on the way to the token. -/
  | nestedTooDeeply
  deriving DecidableEq, Repr

/-- A token that does not fit, and the reason. -/
structure ParseError where
  fault : ParseFault
  found : Token
  deriving DecidableEq, Repr

namespace ParseError

/-- The descriptions of what was expected. -/
def expected (e : ParseError) : List String :=
  match e.fault with
  | .unexpected expected => expected.map Expectation.description
  | .nestedTooDeeply => [Expectation.expression.description]

/-- The wording of the fault. -/
def reason (e : ParseError) : String :=
  match e.fault with
  | .unexpected _ =>
    "expected " ++ Text.joined " or " e.expected ++ ", got " ++ e.found.description
  | .nestedTooDeeply => "expression nested too deeply"

end ParseError

/-- Why a text cannot be parsed. -/
inductive ParseFailure where
  /-- It cannot be cut into tokens. -/
  | lexical (error : LexError)
  /-- A token does not fit. -/
  | grammatical (error : ParseError)
  /-- The stack has no room for another call. -/
  | overflow
  deriving DecidableEq, Repr

/-- The wording of a fault at a place of the source. -/
def located (reason : String) (p : Position) : String :=
  reason ++ " at line " ++ toString p.line ++ ", col " ++ toString p.col

end Sigil
