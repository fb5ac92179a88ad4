/-!
# Symbols

The operators and punctuation marks of the language: one or two characters each. A symbol has a
spelling in the source and a name in messages. Both tables are one-to-one, so a symbol can be found
from either.

## Main results

* `Symbol.ofChars?_chars`, `Symbol.ofName?_name`: each symbol is found by its spelling and its name.
-/

namespace Sigil

/-- The operators and punctuation marks, the two-character ones first. -/
inductive Symbol where
  | flow | cond | alt | or | and | eq | ne | le | ge
  | lazy | greedy | random | iter | pipe | arrayOpen | mapOpen
  | lt | gt | not | plus | minus | times | divide | modulo
  | lparen | rparen | lbracket | rbracket | lbrace | rbrace
  | comma | colon | dot
  deriving DecidableEq, Repr

namespace Symbol

/-- All symbols, in the order in which messages list alternatives. -/
def all : List Symbol :=
  [flow, cond, alt, or, and, eq, ne, le, ge, lazy, greedy, random, iter, pipe, arrayOpen, mapOpen,
    lt, gt, not, plus, minus, times, divide, modulo, lparen, rparen, lbracket, rbracket, lbrace,
    rbrace, comma, colon, dot]

/-- The characters that a symbol is written with. -/
def chars : Symbol → List Char
  | flow => ['=', '>']
  | cond => ['?', '?']
  | alt => [':', ':']
  | or => ['|', '|']
  | and => ['&', '&']
  | eq => ['=', '=']
  | ne => ['!', '=']
  | le => ['<', '=']
  | ge => ['>', '=']
  | lazy => ['~', '~']
  | greedy => ['$', '$']
  | random => ['#', '#']
  | iter => ['@', '@']
  | pipe => ['>', '>']
  | arrayOpen => ['#', '[']
  | mapOpen => ['#', '{']
  | lt => ['<']
  | gt => ['>']
  | not => ['!']
  | plus => ['+']
  | minus => ['-']
  | times => ['*']
  | divide => ['/']
  | modulo => ['%']
  | lparen => ['(']
  | rparen => [')']
  | lbracket => ['[']
  | rbracket => [']']
  | lbrace => ['{']
  | rbrace => ['}']
  | comma => [',']
  | colon => [':']
  | dot => ['.']

/-- The spelling of a symbol as a text. -/
def spelling (s : Symbol) : String :=
  String.ofList s.chars

/-- The name of a symbol in messages and token lists. -/
def name : Symbol → String
  | flow => "FLOW"
  | cond => "COND"
  | alt => "ALT"
  | or => "OR"
  | and => "AND"
  | eq => "EQ"
  | ne => "NE"
  | le => "LE"
  | ge => "GE"
  | lazy => "LAZY"
  | greedy => "GREEDY"
  | random => "RANDOM"
  | iter => "ITER"
  | pipe => "PIPE"
  | arrayOpen => "ARRAY_OPEN"
  | mapOpen => "MAP_OPEN"
  | lt => "LT"
  | gt => "GT"
  | not => "NOT"
  | plus => "PLUS"
  | minus => "SUB"
  | times => "MULT"
  | divide => "DIV"
  | modulo => "MOD"
  | lparen => "LPAREN"
  | rparen => "RPAREN"
  | lbracket => "LBRACK"
  | rbracket => "RBRACK"
  | lbrace => "LBRACE"
  | rbrace => "RBRACE"
  | comma => "COMMA"
  | colon => "COLON"
  | dot => "DOT"

/-- The symbol with these characters. -/
def ofChars? (cs : List Char) : Option Symbol :=
  all.find? fun s => s.chars = cs

/-- The symbol with this name. -/
def ofName? (name : String) : Option Symbol :=
  all.find? fun s => s.name = name

@[simp] theorem ofChars?_chars (s : Symbol) : ofChars? s.chars = some s := by
  cases s <;> decide

@[simp] theorem ofName?_name (s : Symbol) : ofName? s.name = some s := by
  cases s <;> decide

/-- The longest symbol at the front of a text. Symbols have at most two characters. -/
def atFront? : List Char → Option Symbol
  | [] => none
  | [c] => ofChars? [c]
  | c :: d :: _ => ofChars? [c, d] <|> ofChars? [c]

/-- The character is not a symbol by itself but starts one. -/
def isLoneStart (c : Char) : Bool :=
  (ofChars? [c]).isNone && all.any fun s => s.chars.head? = some c

/-- The two-character symbols that start with a character. -/
def startingWith (c : Char) : List Symbol :=
  all.filter fun s => s.chars.length = 2 && s.chars.head? = some c

end Symbol

end Sigil
