/-!
# Positions

A position is a place in a text, counted in characters from its start and also as a line and a
column. Reading a character moves a position, and a newline starts the next line.

## Main results

* `Position.after_append`: reading two stretches of text is reading one after the other.
* `Position.offset_after`: reading moves the offset by the number of characters read.
-/

namespace Sigil

/-- A place in a text. Offsets count from 0, lines and columns from 1. The numbers are integers
because positions also come from outside, with tokens and trees made by hand. -/
structure Position where
  offset : Int
  line : Int
  col : Int
  deriving DecidableEq, Repr, Inhabited

namespace Position

/-- The first place of a text. -/
def start : Position := ⟨0, 1, 1⟩

/-- The place behind a character. -/
def next (p : Position) (c : Char) : Position :=
  if c = '\n' then ⟨p.offset + 1, p.line + 1, 1⟩ else ⟨p.offset + 1, p.line, p.col + 1⟩

/-- The place behind a stretch of text. -/
def after (p : Position) (cs : List Char) : Position :=
  cs.foldl next p

@[simp] theorem after_nil (p : Position) : p.after [] = p := rfl

@[simp] theorem after_cons (p : Position) (c : Char) (cs : List Char) :
    p.after (c :: cs) = (p.next c).after cs := rfl

@[simp] theorem after_append (p : Position) (cs ds : List Char) :
    p.after (cs ++ ds) = (p.after cs).after ds :=
  List.foldl_append

@[simp] theorem offset_next (p : Position) (c : Char) : (p.next c).offset = p.offset + 1 := by
  unfold next
  split <;> rfl

/-- Reading moves the offset by the number of characters read. -/
theorem offset_after (p : Position) (cs : List Char) :
    (p.after cs).offset = p.offset + cs.length := by
  induction cs generalizing p with
  | nil => simp
  | cons c cs ih =>
      rw [after_cons, ih, offset_next, List.length_cons]
      omega

end Position

end Sigil
