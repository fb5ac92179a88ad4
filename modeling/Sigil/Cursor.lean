import Sigil.Cursor.LeadIn
import Sigil.Token.Stream

/-!
# Cursors

A cursor is a place in a text that can be moved by hand: a character at a time, or by any of the
steps of the token reader. It may be set anywhere, also behind the end of the text or before its
start, and with a line and a column that do not belong to the offset. A step that fails leaves the
cursor where it got to, and later steps go on from there.

Before the start of the text a cursor has a lead-in ahead of it, the last characters of the text,
which can be read but not seen. It is as long as the way to the start, so a cursor that stands
further away than the text is long has nothing it could read.

## Main results

* `Cursor.filler_of_nonneg`, `Cursor.token_of_nonneg`: from the start of the text on, the steps of
  a cursor are those of the token reader.
-/

namespace Sigil

/-- A place in a text. -/
structure Cursor where
  text : List Char
  position : Position
  deriving DecidableEq, Repr

/-- Why a step of a cursor fails. -/
inductive CursorFault where
  /-- There is no character left to read. -/
  | endOfText (position : Position)
  /-- The place is too far before the start of the text for a character to read. -/
  | outOfReach
  /-- No token can be read. -/
  | lexical (error : LexError)
  deriving DecidableEq, Repr

/-- The wording of a failure to read a character at the end of a text. -/
def CursorFault.endMessage (p : Position) : String :=
  "Attempted to read past end of source at position=<" ++ toString p.offset ++ ">, line=<" ++
    toString p.line ++ ">"

/-- The wording of a failure to read a character out of reach. -/
def CursorFault.reachMessage : String :=
  "string index out of range"

/-- A step of a cursor. -/
abbrev CursorStep := EStateM CursorFault Cursor

namespace Cursor

/-- A cursor at the start of a text. -/
def ofText (text : String) : Cursor :=
  ⟨text.toList, .start⟩

/-! ### Looking -/

/-- The cursor stands before the start of the text. -/
def isBefore (c : Cursor) : Bool :=
  c.position.offset < 0

/-- The cursor is not further before the start of the text than the text is long. -/
def inReach (c : Cursor) : Bool :=
  -c.text.length ≤ c.position.offset

/-- What leads from a cursor before the start of the text to the start: as many of the last
characters as the cursor is away from it, or all of them if it is out of reach. -/
def leadIn (c : Cursor) : List Char :=
  if c.isBefore then c.text.drop (c.text.length + c.position.offset).toNat else []

/-- What follows the cursor of the text itself. -/
def onward (c : Cursor) : List Char :=
  c.text.drop c.position.offset.toNat

/-- What follows the cursor. -/
def ahead (c : Cursor) : List Char :=
  c.leadIn ++ c.onward

/-- What remains to be read behind the cursor's place. -/
def remaining (c : Cursor) : Remaining :=
  ⟨c.position, c.ahead⟩

/-- No character follows the cursor. -/
def atEnd (c : Cursor) : Bool :=
  c.text.length ≤ c.position.offset

/-- The character at a distance from the cursor, if the text has one there. -/
def peek (c : Cursor) (distance : Int) : Option Char :=
  let index := c.position.offset + distance
  if index < 0 then none else c.text[index.toNat]?

/-- The text goes on like this at the cursor, or the lead-in does if there is one. Behind the end of
a text it does not go on at all. -/
def startsWith (c : Cursor) (front : String) : Bool :=
  let view := if c.isBefore then c.leadIn else c.onward
  c.position.offset ≤ c.text.length && front.toList.isPrefixOf view

/-! ### Moving -/

/-- Moves over a stretch ahead of the cursor. -/
def past (taken : List Char) (c : Cursor) : Cursor :=
  { c with position := c.position.after taken }

/-- A step that reads, and so fails out of reach. -/
def reading {α : Type} (step : CursorStep α) : CursorStep α := fun c =>
  if c.inReach then step c else .error .outOfReach c

/-- A step of the token reader as a step of a cursor. -/
def scan {α : Type} (step : Scan α) : CursorStep α := fun c =>
  match step c.remaining with
  | .ok a r => .ok a { c with position := r.position }
  | .error e r => .error (.lexical e) { c with position := r.position }

/-- Reads a character. -/
def next : CursorStep Char := reading fun c =>
  match c.ahead with
  | [] => .error (.endOfText c.position) c
  | ch :: _ => .ok ch { c with position := c.position.next ch }

/-- Skips filler. A lead-in is only read if it starts with a comment. -/
def filler : CursorStep Unit := fun c =>
  if c.isBefore && !c.startsWith "//" && !c.startsWith "/*" then .ok () c
  else reading (scan (Scan.pass (LeadIn.skipFiller c.onward c.leadIn))) c

/-- Reads the next token, and the filler in front of it. No token starts in a lead-in. -/
def token : CursorStep Token := do
  filler
  let c ← get
  if c.isBefore then throw (.lexical ⟨.unseen, c.position⟩)
  scan Scan.word

/-- Reads the symbol at the cursor, if there is one. No symbol starts in a lead-in. -/
def symbol? : CursorStep (Option Token) := fun c =>
  if c.isBefore then .ok none c
  else
    match symbolLexeme? c.onward with
    | some l => .ok (some ⟨l.kind, String.ofList l.taken, c.position⟩) (c.past l.taken)
    | none => .ok none c

/-- Reads a backslash and the end of its line, without looking whether it is a backslash. -/
def continuation : CursorStep Unit := fun c =>
  if c.peek 1 = some '\n' then .ok () (c.past (c.ahead.take 2))
  else if c.peek 1 = some '\r' ∧ c.peek 2 = some '\n' then .ok () (c.past (c.ahead.take 3))
  else .error (.lexical ⟨.filler .strayBackslash, c.position⟩) c

/-- Reads a comment to the end of the line, without looking whether one starts here. -/
def toLineEnd : CursorStep Unit := reading fun c =>
  .ok () (c.past (LeadIn.lineComment c.onward c.leadIn).taken)

/-- Reads two characters and then a comment up to its closing mark, without looking whether one
starts here. -/
def toCommentEnd : CursorStep Unit := do
  let start ← get
  let _ ← next
  let _ ← next
  fun c =>
    match LeadIn.closeComment c.onward c.leadIn with
    | some s => .ok () (c.past s.taken)
    | none => .error (.lexical ⟨.filler .openComment, start.position⟩) (c.past c.ahead)

/-! ### From the start of the text on -/

theorem isBefore_of_nonneg {c : Cursor} (h : 0 ≤ c.position.offset) : c.isBefore = false := by
  simp [isBefore, h]

theorem leadIn_of_nonneg {c : Cursor} (h : 0 ≤ c.position.offset) : c.leadIn = [] := by
  simp [leadIn, isBefore_of_nonneg h]

theorem ahead_of_nonneg {c : Cursor} (h : 0 ≤ c.position.offset) : c.ahead = c.onward := by
  simp [ahead, leadIn_of_nonneg h]

theorem inReach_of_nonneg {c : Cursor} (h : 0 ≤ c.position.offset) : c.inReach = true := by
  simp only [inReach, decide_eq_true_eq]
  omega

/-- From the start of the text on, a cursor skips what the token reader skips. -/
theorem filler_of_nonneg {c : Cursor} (h : 0 ≤ c.position.offset) :
    filler c = scan Scan.filler c := by
  simp [filler, reading, scan, Scan.filler, remaining, isBefore_of_nonneg h, inReach_of_nonneg h,
    leadIn_of_nonneg h, ahead_of_nonneg h]

/-- Behind a stretch of the text the cursor has the rest of the text ahead of it. -/
theorem onward_past {c : Cursor} {s : Split} (h : 0 ≤ c.position.offset)
    (hs : s.whole = c.onward) : (c.past s.taken).onward = s.rest := by
  have hoffset : (c.past s.taken).position.offset.toNat =
      c.position.offset.toNat + s.taken.length := by
    simp only [past, Position.offset_after]
    omega
  rw [onward, hoffset, ← List.drop_drop]
  change (c.onward.drop s.taken.length) = s.rest
  rw [← hs, Split.whole, List.drop_left]

/-- From the start of the text on, a cursor reads the tokens that the token reader reads. -/
theorem token_of_nonneg {c : Cursor} (h : 0 ≤ c.position.offset) :
    token c = scan Scan.token c := by
  let f := skipFiller c.onward
  have hpast : 0 ≤ (c.past f.taken).position.offset := by
    simp only [past, Position.offset_after]
    omega
  have hremaining : (c.past f.taken).remaining = .behind c.position f.toSplit := by
    rw [remaining, ahead_of_nonneg hpast, onward_past h (whole_skipFiller c.onward)]
    rfl
  have hscan : Scan.filler c.remaining = Scan.pass f c.remaining := by
    rw [Scan.filler, remaining, ahead_of_nonneg h]
  simp only [token, bind, EStateM.bind, filler_of_nonneg h, scan, Scan.token, hscan]
  cases hfault : f.fault with
  | none =>
      have hpass : Scan.pass f c.remaining = .ok () (c.past f.taken).remaining := by
        rw [Scan.pass, hfault, hremaining]
        rfl
      have hword : (⟨c.text, (c.past f.taken).remaining.position⟩ : Cursor) = c.past f.taken := rfl
      have hget : (get : CursorStep Cursor) (c.past f.taken) =
          .ok (c.past f.taken) (c.past f.taken) := rfl
      simp only [hpass, hword, hget, isBefore_of_nonneg hpast, Bool.false_eq_true, ↓reduceIte]
      rfl
  | some fault => cases fault <;> simp [Scan.pass, hfault]

end Cursor

end Sigil
