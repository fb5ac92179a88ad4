import Sigil.Parser.Expression

/-!
# Statements and programs

The routines for statements and whole programs, and all routines together. Each call of a routine
takes a frame of the stack, and the stack has room for only so many at a time. Where it runs out, an
overflow ends all the calls that are open; only the parser of whole programs reports it as a fault.

How much room there is no text says and no rule of the language: it depends on the limit that the
interpreter sets and on what is on the stack already, so the number of frames that are left is a
parameter everywhere. Calls that look at a single token or take it are not counted. They call no
routine and end before the next one is called, so the room is what a stack has above them.

## Main definitions

* `Parser.run`: a routine on a stack with room for some calls.
* `parse`, `parseText`: the program that a stream of tokens or a text is.
-/

namespace Sigil

namespace Parser

open Parse

/-- A block: statements in braces. -/
def block (call : Routine → Parse Node) : Parse Node := do
  let start ← expect [.symbol .lbrace]
  let statements ← collect do
    if ← check [.symbol .rbrace, .endOfInput] then return none else some <$> call .statement
  let _ ← expect [.symbol .rbrace]
  finish .block start.position .none statements

/-- A block, a dataflow definition `expression => name`, or an expression. -/
def statement (call : Routine → Parse Node) : Parse Node := do
  if ← check [.symbol .lbrace] then call .block
  else
    let defined ← call (.expression none)
    match ← accept [.symbol .flow] with
    | none => return defined
    | some _ =>
      let word ← expect [.identifier]
      let name ← finish .identifier word.position (.text word.text) []
      finish .dataflow defined.mark.start (.node defined) [name]

end Parser

/-! ### Calls -/

/-- What a routine does, given how it calls others. -/
def Routine.body (call : Routine → Parse Node) : Routine → Parse Node
  | statement => Parser.statement call
  | block => Parser.block call
  | expression left => Parser.expression call left
  | binary least left => Parser.binary call least left
  | unary => Parser.unary call
  | operand => Parser.operand call
  | suffixed base => Parser.suffixed call base
  | subscript object => Parser.subscript call object
  | slice object start => Parser.slice call object start
  | sliceBound => Parser.sliceBound call
  | primary => Parser.primary call
  | array => Parser.array call
  | map => Parser.map call

namespace Parser

open Parse

/-- A routine on a stack with room for `room` calls within each other, its own included. -/
def run : Nat → Routine → Parse Node
  | 0, _ => overflow
  | room + 1, routine => routine.body (run room)

/-- A whole program: statements up to the end of input. A stack that runs out is a fault here. -/
def program (room : Nat) : Parse Node := do
  let statements ← reportingOverflow <| collect do
    if ← check [.endOfInput] then return none else some <$> run room .statement
  let last ← current
  return ⟨.program, .none, statements, ⟨.start, last.position.offset⟩⟩

end Parser

/-- The program that a stream of tokens is, on a stack with room for `room` calls. -/
def parse (room : Nat) (tokens : TokenStream) : Except ParseFailure Node :=
  match Parser.State.start tokens with
  | .error e => .error (.lexical e)
  | .ok s =>
    match Parser.program room s with
    | .ok program _ => .ok program
    | .error e _ => .error e

/-- The program that a text is, on a stack with room for `room` calls. -/
def parseText (room : Nat) (text : String) : Except ParseFailure Node :=
  parse room (.ofText text)

end Sigil
