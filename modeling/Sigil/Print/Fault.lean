import Sigil.Parser.Failure
import Sigil.Tree.Field

/-!
# Failures of printing

A tree that was made by hand may have no written form. Printers stop at the first node that cannot
be written.
-/

namespace Sigil

/-- Why a tree has no written form. -/
inductive PrintFault where
  /-- A part of a node is not there. -/
  | access (fault : AccessFault)
  /-- Nodes of the kind have no form as source text. -/
  | noSourceForm (kind : NodeKind) (position : Position)
  /-- Nodes of the kind have no form as s-expressions. -/
  | noSExprForm (kind : NodeKind) (position : Position)
  /-- Expressions of the kind have no level, so it is not known where they need parentheses. -/
  | noLevel (kind : NodeKind)
  /-- What is called is not a node. -/
  | calleeNotNode
  /-- A node stands where only a text or nothing can be written. -/
  | nodeForText
  /-- The string holds both quotation marks, so neither can delimit it. -/
  | bothQuotes (text : String)
  /-- The tree is not a program. -/
  | notProgram
  deriving DecidableEq, Repr

/-- The wording of a fault. -/
def PrintFault.message : PrintFault → String
  | access fault => fault.message
  | noSourceForm kind p => unknownKind "source emitter" kind p
  | noSExprForm kind p => unknownKind "s-expression rule" kind p
  | noLevel kind => Text.quoted kind.name
  | calleeNotNode => "Expected ASTNode for call function"
  | nodeForText => "Object of type ASTNode is not JSON serializable"
  | bothQuotes text =>
    "String literal cannot contain both quote characters: " ++ Text.quoted text
  | notProgram => "Renderer expects the program node returned by the parser."
where
  /-- The wording for a kind of node that something is missing for. -/
  unknownKind (missing : String) (kind : NodeKind) (p : Position) : String :=
    "No " ++ missing ++ " for node kind '" ++ kind.name ++ "' (line " ++ toString p.line ++
      ", col " ++ toString p.col ++ ")"

/-- A printed text, or the reason why there is none. -/
abbrev Printed := Except PrintFault String

end Sigil
