import Sigil.Print.Document
import Sigil.Print.SExpr
import Sigil.Print.Source
import Sigil.Text.Lowercase

/-!
# Rendering

A renderer turns programs into text in the notation of its target. Source text and s-expressions
pile up over the programs rendered by one renderer; a JSON document replaces the one before it. A
failure leaves what was written before it.

## Main definitions

* `Renderer.render`: renders a program after others.
* `render`: renders one program for a target with a name.
-/

namespace Sigil

/-- What programs can be rendered as. -/
inductive Target where
  | source
  | sexpr
  | json
  deriving DecidableEq, Repr

/-- The target with a name in lower case. -/
def Target.ofName? : String → Option Target
  | "source" => some .source
  | "emojilang" => some .source
  | "sexpr" => some .sexpr
  | "json" => some .json
  | _ => none

/-- What a renderer has written so far. -/
inductive Output where
  | source (sheet : Sheet)
  | sexpr (lines : List String)
  | json (text : String)
  deriving DecidableEq, Repr

namespace Output

/-- Nothing written yet, for a target. -/
def empty : Target → Output
  | .source => source .empty
  | .sexpr => sexpr []
  | .json => json ""

/-- The text written so far. -/
def text : Output → String
  | source sheet => sheet.text
  | sexpr lines => Text.joined "\n" lines
  | json text => text

/-- Appends texts to lines, up to the first one that does not exist. -/
def append : List Printed → EStateM PrintFault (List String) Unit
  | [] => return
  | .error fault :: _ => throw fault
  | .ok line :: more => do
    modify (· ++ [line])
    append more

/-- The layout of the documents of a renderer: two blanks for each level. -/
def layout : Json.Layout := .lines 2

/-- Writes a program to an output. -/
def write (program : Node) : EStateM PrintFault Output Unit
  | source sheet =>
    match Source.statements Source.indentWidth program.children sheet with
    | .ok _ sheet => .ok () (source sheet)
    | .error fault sheet => .error fault (source sheet)
  | sexpr lines =>
    match append (SExpr.lines program) lines with
    | .ok _ lines => .ok () (sexpr lines)
    | .error fault lines => .error fault (sexpr lines)
  | json _ => .ok () (json (program.toJson.write layout))

end Output

/-- Why a program is not rendered. -/
inductive RenderFault where
  /-- No target has the name, which is in lower case. -/
  | unknownTarget (name : String)
  /-- The program cannot be printed. -/
  | print (fault : PrintFault)
  deriving DecidableEq, Repr

/-- The wording of a fault. -/
def RenderFault.message : RenderFault → String
  | unknownTarget name => "Unknown render target: " ++ Text.quoted name
  | print fault => fault.message

/-- A renderer: the name of its target in lower case, and what it has written. -/
structure Renderer where
  name : String
  output : Output
  deriving DecidableEq, Repr

namespace Renderer

/-- A renderer for the target with a name, in which case does not matter. -/
def ofName (name : String) : Except RenderFault Renderer :=
  let name := Text.lowercase name
  match Target.ofName? name with
  | some target => .ok ⟨name, .empty target⟩
  | none => .error (.unknownTarget name)

/-- Renders a program and gives all the text written so far. A tree that is no program is refused
before anything is written. -/
def render (program : Node) : EStateM PrintFault Renderer String := fun r =>
  if program.kind = .program then
    match Output.write program r.output with
    | .ok _ output => .ok output.text { r with output := output }
    | .error fault output => .error fault { r with output := output }
  else .error .notProgram r

end Renderer

/-- The text of a program for the target with a name. -/
def render (program : Node) (target : String) : Except RenderFault String := do
  let renderer ← Renderer.ofName target
  match Renderer.render program renderer with
  | .ok text _ => return text
  | .error fault _ => throw (.print fault)

end Sigil
