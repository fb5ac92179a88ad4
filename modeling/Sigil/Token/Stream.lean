import Sigil.Text.Joined
import Sigil.Token.Lexeme

/-!
# The tokens of a text

`scan` reads the first token of what remains of a text; `TokenStream.ofText` reads them all, up to
the end of the input or the first place where no token can be read.

## Main results

* `length_rest_of_token`: reading a token other than the end of input leaves a shorter text.
* `TokenStream.ofRemaining_of_token`, `TokenStream.ofRemaining_of_end`,
  `TokenStream.ofRemaining_of_error`: the tokens of a text by its first one.
-/

namespace Sigil

/-- What remains of a text, with the place of its first character. -/
structure Remaining where
  position : Position
  chars : List Char
  deriving DecidableEq, Repr

namespace Remaining

/-- A whole text, before anything is read. -/
def ofText (text : String) : Remaining :=
  ⟨.start, text.toList⟩

/-- What remains behind a stretch at the front of a text that starts at `p`. -/
def behind (p : Position) (s : Split) : Remaining :=
  ⟨p.after s.taken, s.rest⟩

/-- The end of the text. -/
def toEnd (r : Remaining) : Remaining :=
  ⟨r.position.after r.chars, []⟩

end Remaining

/-! ### Failures -/

/-- A place where no token can be read, and the reason. -/
structure LexError where
  fault : LexFault
  position : Position
  deriving DecidableEq, Repr

/-- The wording of a lexical fault. -/
def LexFault.reason : LexFault → String
  | filler .strayBackslash => "stray backslash"
  | filler .openComment => "unterminated block comment"
  | openString => "unterminated string"
  | lonePart c =>
    Text.quoted (String.singleton c) ++ " must be part of " ++
      Text.joined " or " ((Symbol.startingWith c).map fun s => Text.quoted s.spelling)
  | unrecognized c => "unrecognized character " ++ Text.quoted (String.singleton c)
  | unseen => "unrecognized character " ++ Text.quoted ""

/-! ### Reading -/

/-- Reading from the front of what remains of a text. A failure also says how much was read. -/
abbrev Scan := EStateM LexError Remaining

/-- Moves behind the filler in front. An open comment is read to the end of the text, and its fault
is placed where it starts; a stray backslash is left in front. -/
def Scan.pass (filler : Filler) : Scan Unit := fun r =>
  let left := Remaining.behind r.position filler.toSplit
  match filler.fault with
  | none => .ok () left
  | some .strayBackslash => .error ⟨.filler .strayBackslash, left.position⟩ left
  | some .openComment => .error ⟨.filler .openComment, left.position⟩ left.toEnd

/-- Skips filler. -/
def Scan.filler : Scan Unit := fun r =>
  Scan.pass (skipFiller r.chars) r

/-- Reads a lexeme, or the end of input. An open string is read to the end of the text, and its
fault is placed where it starts; any other faulty text is left in front. -/
def Scan.word : Scan Token := fun r =>
  match r.chars with
  | [] => .ok (.endAt r.position) r
  | c :: cs =>
    match lexeme c cs with
    | .ok l => .ok ⟨l.kind, String.ofList l.taken, r.position⟩ (.behind r.position l.toSplit)
    | .error .openString => .error ⟨.openString, r.position⟩ r.toEnd
    | .error fault => .error ⟨fault, r.position⟩ r

/-- Reads the next token, and the filler in front of it. -/
def Scan.token : Scan Token := do
  Scan.filler
  Scan.word

theorem length_rest_of_filler {r r' : Remaining} {u : Unit} (h : Scan.filler r = .ok u r') :
    r'.chars.length ≤ r.chars.length := by
  simp only [Scan.filler, Scan.pass] at h
  split at h
  · cases h; exact length_rest_skipFiller r.chars
  · cases h
  · cases h

theorem length_rest_of_word {r r' : Remaining} {t : Token} (h : Scan.word r = .ok t r')
    (ht : t.kind ≠ .endOfInput) : r'.chars.length < r.chars.length := by
  unfold Scan.word at h
  split at h
  · cases h; exact absurd rfl ht
  · next c cs hr =>
      split at h
      · next l hl =>
          cases h
          have hlen := congrArg List.length (whole_lexeme hl)
          have hne := List.length_pos_iff.2 (taken_lexeme_ne_nil hl)
          simp only [Split.whole, List.length_append] at hlen
          simp only [Remaining.behind, hr]
          omega
      · cases h
      · cases h

/-- Reading a token other than the end of input leaves a shorter text. -/
theorem length_rest_of_token {r r' : Remaining} {t : Token} (h : Scan.token r = .ok t r')
    (ht : t.kind ≠ .endOfInput) : r'.chars.length < r.chars.length := by
  simp only [Scan.token, bind, EStateM.bind] at h
  split at h
  · next u left hfiller =>
      exact Nat.lt_of_lt_of_le (length_rest_of_word h ht) (length_rest_of_filler hfiller)
  · cases h

/-- The tokens of a text, in order, and the failure that ended the reading if there was one.
Without a failure the last token is the end of input. -/
structure TokenStream where
  tokens : List Token
  failure : Option LexError
  deriving DecidableEq, Repr

namespace TokenStream

/-- The tokens of what remains of a text. -/
def ofRemaining (r : Remaining) : TokenStream :=
  match _h : Scan.token r with
  | .ok t r' =>
    if _ht : t.kind = .endOfInput then ⟨[t], none⟩
    else
      let more := ofRemaining r'
      ⟨t :: more.tokens, more.failure⟩
  | .error e _ => ⟨[], some e⟩
termination_by r.chars.length
decreasing_by exact length_rest_of_token ‹_› ‹_›

theorem ofRemaining_of_token {r r' : Remaining} {t : Token} (h : Scan.token r = .ok t r')
    (ht : t.kind ≠ .endOfInput) :
    ofRemaining r = ⟨t :: (ofRemaining r').tokens, (ofRemaining r').failure⟩ := by
  rw [ofRemaining.eq_def]
  split <;> simp_all

theorem ofRemaining_of_end {r r' : Remaining} {t : Token} (h : Scan.token r = .ok t r')
    (ht : t.kind = .endOfInput) : ofRemaining r = ⟨[t], none⟩ := by
  rw [ofRemaining.eq_def]
  split <;> simp_all

theorem ofRemaining_of_error {r r' : Remaining} {e : LexError} (h : Scan.token r = .error e r') :
    ofRemaining r = ⟨[], some e⟩ := by
  rw [ofRemaining.eq_def]
  split <;> simp_all

/-- The tokens of a text. -/
def ofText (text : String) : TokenStream :=
  ofRemaining (.ofText text)

end TokenStream

end Sigil
