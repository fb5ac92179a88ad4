import Sigil.Json

/-!
# Reading JSON documents

A reader of documents. It takes any well-formed text of a document without fractions and truth
values: blanks may stand around every part, texts may use every escape in either case of the
hexadecimal digits, and characters that need no escape may stand for themselves. It refuses control
characters inside texts, leading zeros, trailing commas and halves of surrogate pairs.

What a reader gives depends on the text from where it starts, and it leaves the rest of the text. So
a part that is written is read back in front of any rest, except that a number must not go on in it.
Here this is shown for numbers and texts.

## Main definitions

* `Json.Reader`: readers of the front of a text.
* `Json.read`: the document that a text is.

## Main results

* `Json.Reader.collect_flatMap`: a repetition reads back what its step reads back.
* `Json.Reader.integer_toString`: a number is read back in front of what is no digit.
* `Json.Reader.text_quoted`: a text in double quotes is read back in front of anything.
* `Json.printable_quoted`: a text in double quotes has visible ASCII characters and blanks only.
-/

namespace Sigil.Json

/-- A reader of the front of a text. It gives what the front stands for and what is left behind it,
unless the front is not well formed. -/
abbrev Reader (α : Type) := List Char → Option (α × List Char)

namespace Reader

variable {α : Type}

/-! ### The reader -/

/-- A blank between the parts of a document. -/
def isBlank (c : Char) : Bool :=
  c = ' ' || c = '\t' || c = '\n' || c = '\r'

/-- The text behind the blanks in front. -/
def skip (cs : List Char) : List Char :=
  cs.dropWhile isBlank

/-- Repeats a step that gives something or ends the repetition. A step that gives something must
leave less of the text. -/
def collect (step : Reader (Option α)) : Reader (List α) := fun cs =>
  match step cs with
  | none => none
  | some (none, rest) => some ([], rest)
  | some (some a, rest) =>
    if rest.length < cs.length then (collect step rest).map fun (as, rest) => (a :: as, rest)
    else none
termination_by cs => cs.length

/-- A natural number in decimal digits without leading zeros. -/
def natural : Reader Nat
  | '0' :: cs => some (0, cs)
  | cs =>
    match cs.takeWhile Char.isDigit with
    | [] => none
    | digits => some (Nat.ofDigitChars 10 digits 0, cs.dropWhile Char.isDigit)

/-- A number without a fraction, with or without a sign. -/
def integer : Reader Int
  | '-' :: cs => (natural cs).map fun (n, rest) => (-(n : Int), rest)
  | cs => (natural cs).map fun (n, rest) => ((n : Int), rest)

/-- The value of a hexadecimal digit in either case. -/
def hexValue? (c : Char) : Option Nat :=
  if '0' ≤ c ∧ c ≤ '9' then some (c.toNat - 48)
  else if 'a' ≤ c ∧ c ≤ 'f' then some (c.toNat - 87)
  else if 'A' ≤ c ∧ c ≤ 'F' then some (c.toNat - 55)
  else none

/-- A UTF-16 unit in four hexadecimal digits. -/
def unit : Reader Nat
  | a :: b :: c :: d :: cs => do
    let a ← hexValue? a
    let b ← hexValue? b
    let c ← hexValue? c
    let d ← hexValue? d
    return (((a * 16 + b) * 16 + c) * 16 + d, cs)
  | _ => none

/-- The second unit of a character outside the basic plane, as a further escape. -/
def lowSurrogate : Reader Nat
  | '\\' :: 'u' :: cs => do
    let (low, rest) ← unit cs
    if 0xDC00 ≤ low ∧ low < 0xE000 then return (low, rest) else none
  | _ => none

/-- The character that an escape stands for, behind the backslash. -/
def escape : Reader Char
  | '"' :: cs => some ('"', cs)
  | '\\' :: cs => some ('\\', cs)
  | '/' :: cs => some ('/', cs)
  | 'b' :: cs => some (Char.ofNat 8, cs)
  | 'f' :: cs => some (Char.ofNat 12, cs)
  | 'n' :: cs => some ('\n', cs)
  | 'r' :: cs => some ('\r', cs)
  | 't' :: cs => some ('\t', cs)
  | 'u' :: cs => do
    let (n, rest) ← unit cs
    if n < 0xD800 ∨ 0xE000 ≤ n then return (Char.ofNat n, rest)
    else if n < 0xDC00 then
      let (low, rest) ← lowSurrogate rest
      return (Char.ofNat (0x10000 + (n - 0xD800) * 0x400 + (low - 0xDC00)), rest)
    else none
  | _ => none

/-- A character of a text, unless it is the closing quotation mark. -/
def character : Reader (Option Char)
  | [] => none
  | c :: cs =>
    if c = '"' then some (none, cs)
    else if c = '\\' then (escape cs).map fun (c, rest) => (some c, rest)
    else if c.toNat < 32 then none
    else some (some c, cs)

/-- A text in quotes. -/
def text : Reader String
  | '"' :: cs => (collect character cs).map fun (s, rest) => (String.ofList s, rest)
  | _ => none

/-- An item behind a comma, unless the closing mark follows. -/
def another (close : Char) (item : Reader α) : Reader (Option α) := fun cs =>
  match skip cs with
  | [] => none
  | c :: rest =>
    if c = close then some (none, rest)
    else if c = ',' then (item rest).map fun (a, rest) => (some a, rest)
    else none

/-- Items with commas between them up to a closing mark, behind the opening one. -/
def series (close : Char) (item : Reader α) : Reader (List α) := fun cs =>
  match skip cs with
  | [] => none
  | c :: rest =>
    if c = close then some ([], rest)
    else do
      let (first, rest) ← item (c :: rest)
      let (others, rest) ← collect (another close item) rest
      return (first :: others, rest)

/-- A member of an object: its name, a colon, and its value. -/
def member (value : Reader Json) : Reader (String × Json) := fun cs => do
  let (name, rest) ← text (skip cs)
  match skip rest with
  | ':' :: rest =>
    let (j, rest) ← value rest
    return ((name, j), rest)
  | _ => none

/-- A document that nests at most so many levels, behind any blanks. -/
def valueWithin : Nat → Reader Json
  | 0 => fun _ => none
  | n + 1 => fun cs =>
    match skip cs with
    | 'n' :: 'u' :: 'l' :: 'l' :: rest => some (null, rest)
    | '"' :: rest => (text ('"' :: rest)).map fun (s, rest) => (.text s, rest)
    | '[' :: rest => (series ']' (valueWithin n) rest).map fun (es, rest) => (array es, rest)
    | '\x7b' :: rest =>
      (series '\x7d' (member (valueWithin n)) rest).map fun (ms, rest) => (object ms, rest)
    | cs => (integer cs).map fun (n, rest) => (number n, rest)

end Reader

/-- The document that a text is. A text holds a mark for every level of its document, so its length
bounds the levels. -/
def read (s : String) : Option Json :=
  match Reader.valueWithin s.length s.toList with
  | some (j, rest) => if Reader.skip rest = [] then some j else none
  | none => none

namespace Reader

variable {α : Type} {cs v r : List Char}

/-! ### Blanks and repetitions -/

/-- Blanks are skipped up to what follows. -/
theorem skip_append (h : ∀ c ∈ v, isBlank c = true) : skip (v ++ cs) = skip cs :=
  List.dropWhile_append_of_pos h

/-- Nothing else is skipped. -/
theorem skip_cons {c : Char} (h : isBlank c = false) : skip (c :: cs) = c :: cs := by
  simp [skip, h]

/-- A repetition gives all of a list if its step gives the items one by one, in front of rests of
some kind, and ends behind them. -/
theorem collect_flatMap {step : Reader (Option α)} {P : List Char → Prop}
    {spell : α → List Char} {tail rest : List Char} (as : List α)
    (hstep : ∀ a ∈ as, spell a ≠ [] ∧ ∀ r, P r → step (spell a ++ r) = some (some a, r))
    (hbehind : ∀ a ∈ as, ∀ r, P (spell a ++ r)) (htail : P tail)
    (hend : step tail = some (none, rest)) :
    collect step (as.flatMap spell ++ tail) = some (as, rest) := by
  induction as with
  | nil => rw [List.flatMap_nil, List.nil_append, collect, hend]
  | cons a as ih =>
      obtain ⟨⟨hne, ha⟩, hstep⟩ := List.forall_mem_cons.1 hstep
      obtain ⟨-, hbehind⟩ := List.forall_mem_cons.1 hbehind
      have hP : P (as.flatMap spell ++ tail) := by
        cases as with
        | nil => exact htail
        | cons b bs =>
            rw [List.flatMap_cons, List.append_assoc]
            exact hbehind b (by simp) _
      have hlt : (as.flatMap spell ++ tail).length <
          (spell a ++ (as.flatMap spell ++ tail)).length := by
        have hpos := List.length_pos_iff.2 hne
        simp only [List.length_append]
        omega
      rw [List.flatMap_cons, List.append_assoc, collect, ha _ hP]
      simp only [hlt, if_true, ih hstep hbehind, Option.map_some]

/-! ### Numbers -/

/-- The text does not go on with a digit. -/
def Stops (cs : List Char) : Prop :=
  ∀ c ∈ cs.head?, c.isDigit = false

/-- The first digit of a positive number is not zero. -/
theorem head_toDigits {n : Nat} (hn : 0 < n) : ∀ c ∈ (Nat.toDigits 10 n).head?, c ≠ '0' := by
  induction n using Nat.strongRecOn with
  | ind n ih =>
      rw [Nat.toDigits_eq_if (by decide)]
      split
      · next hlt =>
          have hdigit : ∀ d < 10, 0 < d → Nat.digitChar d ≠ '0' := by decide
          simpa using hdigit n hlt hn
      · next hge =>
          rw [List.head?_append, List.head?_eq_some_head Nat.toDigits_ne_nil, Option.some_or,
            ← List.head?_eq_some_head Nat.toDigits_ne_nil]
          exact ih (n / 10) (by omega) (by omega)

/-- Digits are read back up to what stops them. -/
theorem natural_toDigits (n : Nat) (h : Stops r) :
    natural (Nat.toDigits 10 n ++ r) = some (n, r) := by
  rcases Nat.eq_zero_or_pos n with rfl | hn
  · simp [natural]
  · have hdigits : ∀ c ∈ Nat.toDigits 10 n, c.isDigit = true := fun c =>
      Nat.isDigit_of_mem_toDigits (by decide) (by decide)
    have hrest : r.takeWhile Char.isDigit = [] ∧ r.dropWhile Char.isDigit = r := by
      cases r with
      | nil => exact ⟨rfl, rfl⟩
      | cons c r => simp [h c rfl]
    have htake : (Nat.toDigits 10 n ++ r).takeWhile Char.isDigit = Nat.toDigits 10 n := by
      rw [List.takeWhile_append_of_pos hdigits, hrest.1, List.append_nil]
    have hdrop : (Nat.toDigits 10 n ++ r).dropWhile Char.isDigit = r := by
      rw [List.dropWhile_append_of_pos hdigits, hrest.2]
    have hhead := head_toDigits hn
    have hvalue := Nat.ofDigitChars_ten_toDigits (n := n)
    cases hcs : Nat.toDigits 10 n with
    | nil => exact absurd hcs Nat.toDigits_ne_nil
    | cons c cs =>
        rw [hcs] at htake hdrop hhead hvalue
        have hzero : c ≠ '0' := hhead c rfl
        simp only [natural]
        split
        · next heq => exact absurd (List.cons.inj heq).1 hzero
        · rw [htake, hdrop]
          simp only [hvalue]

/-- A natural number is written by its digits. -/
theorem toString_ofNat (n : Nat) : (toString (Int.ofNat n)).toList = Nat.toDigits 10 n := by
  change (toString n).toList = _
  rw [Nat.toString_eq_ofList_toDigits, String.toList_ofList]

/-- A negative number is written with a sign in front of its digits. -/
theorem toString_negSucc (n : Nat) :
    (toString (Int.negSucc n)).toList = '-' :: Nat.toDigits 10 (n + 1) := by
  change ("-" ++ toString (n + 1)).toList = _
  simp only [String.toList_append, Nat.toString_eq_ofList_toDigits, String.toList_ofList]
  rfl

/-- A number is read back in front of what does not go on with a digit. -/
theorem integer_toString (n : Int) (h : Stops r) :
    integer ((toString n).toList ++ r) = some (n, r) := by
  cases n with
  | ofNat n =>
      have hnatural := natural_toDigits n h
      have hdigit : ∀ c ∈ Nat.toDigits 10 n, c ≠ '-' := by
        rintro c hc rfl
        exact absurd (Nat.isDigit_of_mem_toDigits (by decide) (by decide) hc) (by decide)
      rw [toString_ofNat]
      cases hcs : Nat.toDigits 10 n with
      | nil => exact absurd hcs Nat.toDigits_ne_nil
      | cons c cs =>
          rw [hcs] at hnatural hdigit
          simp only [integer]
          split
          · next heq => exact absurd (List.cons.inj heq).1 (hdigit c (by simp))
          · simp only [hnatural, Option.map_some]
            rfl
  | negSucc n =>
      rw [toString_negSucc, List.cons_append, integer, natural_toDigits _ h]
      rfl

/-! ### Texts -/

/-- A hexadecimal digit stands for a number below sixteen. -/
theorem hexDigit_mod (n : Nat) : Text.hexDigit n = Text.hexDigit (n % 16) := by
  simp only [Text.hexDigit, Nat.mod_mod]

/-- A written digit is read back. -/
theorem hexValue?_hexDigit (n : Nat) : hexValue? (Text.hexDigit n) = some (n % 16) := by
  have hsmall : ∀ d < 16, hexValue? (Text.hexDigit d) = some d := by decide
  rw [hexDigit_mod, hsmall _ (Nat.mod_lt _ (by decide))]

/-- Four written digits are read back. -/
theorem unit_hex {n : Nat} (h : n < 0x10000) : unit (Text.hex 4 n ++ r) = some (n, r) := by
  have hvalue : ((n / 16 / 16 / 16 % 16 * 16 + n / 16 / 16 % 16) * 16 + n / 16 % 16) * 16 +
      n % 16 = n := by omega
  simp only [Text.hex, List.nil_append, List.cons_append, unit, hexValue?_hexDigit,
    Option.bind_eq_bind, Option.bind_some, hvalue]
  rfl

/-- No character is a surrogate. -/
theorem toNat_valid (c : Char) : c.toNat < 0xD800 ∨ 0xE000 ≤ c.toNat ∧ c.toNat < 0x110000 := by
  obtain h | ⟨h, h'⟩ := c.valid
  · exact .inl h
  · exact .inr ⟨h, h'⟩

/-- A unit that is no surrogate is a character by itself. -/
theorem character_escapedUnit {n : Nat} (h : n < 0xD800 ∨ 0xE000 ≤ n) (hn : n < 0x10000) :
    character (escapedUnit n ++ r) = some (some (Char.ofNat n), r) := by
  have hunit : escape ('u' :: (Text.hex 4 n ++ r)) = some (Char.ofNat n, r) := by
    simp only [escape, unit_hex hn, Option.bind_eq_bind, Option.bind_some, h, if_true]
    rfl
  simp [escapedUnit, character, hunit]

/-- Two surrogates are a character together. -/
theorem character_surrogates {high low : Nat} (hhigh : 0xD800 ≤ high ∧ high < 0xDC00)
    (hlow : 0xDC00 ≤ low ∧ low < 0xE000) :
    character (escapedUnit high ++ (escapedUnit low ++ r)) =
      some (some (Char.ofNat (0x10000 + (high - 0xD800) * 0x400 + (low - 0xDC00))), r) := by
  have hsecond : lowSurrogate (escapedUnit low ++ r) = some (low, r) := by
    simp only [escapedUnit, List.cons_append, lowSurrogate, unit_hex (n := low) (by omega),
      Option.bind_eq_bind, Option.bind_some, hlow, and_self, if_true]
    rfl
  have hunit : escape ('u' :: (Text.hex 4 high ++ (escapedUnit low ++ r))) =
      some (Char.ofNat (0x10000 + (high - 0xD800) * 0x400 + (low - 0xDC00)), r) := by
    have hsurrogate : ¬ (high < 0xD800 ∨ 0xE000 ≤ high) := by omega
    simp only [escape, unit_hex (n := high) (by omega), Option.bind_eq_bind, Option.bind_some,
      hsurrogate, hhigh.2, hsecond, if_true, if_false]
    rfl
  have hchars : escapedUnit high ++ (escapedUnit low ++ r) =
      '\\' :: 'u' :: (Text.hex 4 high ++ (escapedUnit low ++ r)) := rfl
  rw [hchars]
  simp [character, hunit]

/-- Every character is read back from the way that it is written, as a pair of surrogates if need
be. -/
theorem character_escapedChar (c : Char) (r : List Char) :
    character (escapedChar c ++ r) = some (some c, r) := by
  have hvalid := toNat_valid c
  have hc := Char.ofNat_toNat c
  simp only [escapedChar]
  split
  · next h => subst h; rfl
  split
  · next h => subst h; rfl
  split
  · next h => subst h; rfl
  split
  · next h => subst h; rfl
  split
  · next h => subst h; rfl
  split
  · next h => rw [← hc, h]; rfl
  split
  · next h => rw [← hc, h]; rfl
  split
  · next hquote hslash _ _ _ _ _ h =>
      have hcontrol : ¬ c.toNat < 32 := by omega
      simp only [List.singleton_append, character, hquote, hslash, hcontrol, if_false]
  split
  · next h =>
      rw [character_escapedUnit (by omega) h, hc]
  · next h =>
      rw [List.append_assoc, character_surrogates (by omega) (by omega)]
      have hsum : 0x10000 + (0xD800 + (c.toNat - 0x10000) / 0x400 - 0xD800) * 0x400 +
          (0xDC00 + (c.toNat - 0x10000) % 0x400 - 0xDC00) = c.toNat := by omega
      rw [hsum, hc]

/-- A text in double quotes is read back in front of anything. -/
theorem text_quoted (s : String) (r : List Char) :
    text ((quoted s).toList ++ r) = some (s, r) := by
  have hcollect : collect character (s.toList.flatMap escapedChar ++ '"' :: r) =
      some (s.toList, r) := by
    refine collect_flatMap (P := fun _ => True) s.toList
      (fun c _ => ⟨?_, fun r _ => character_escapedChar c r⟩) (fun _ _ _ => trivial) trivial rfl
    intro hnil
    have hread := character_escapedChar c []
    rw [hnil] at hread
    cases hread
  simp [quoted, text, hcollect]

end Reader

/-! ### Visible characters -/

/-- Hexadecimal digits are printable. -/
theorem printable_hexDigit (n : Nat) :
    32 ≤ (Text.hexDigit n).toNat ∧ (Text.hexDigit n).toNat < 127 := by
  have hsmall : ∀ d < 16, 32 ≤ (Text.hexDigit d).toNat ∧ (Text.hexDigit d).toNat < 127 := by
    decide
  rw [Reader.hexDigit_mod]
  exact hsmall _ (Nat.mod_lt _ (by decide))

/-- Escapes are printable. -/
theorem printable_escapedUnit (n : Nat) :
    ∀ c ∈ escapedUnit n, 32 ≤ c.toNat ∧ c.toNat < 127 := by
  have hhex : ∀ width n, ∀ c ∈ Text.hex width n, 32 ≤ c.toNat ∧ c.toNat < 127 := by
    intro width
    induction width with
    | zero => simp [Text.hex]
    | succ width ih =>
        intro n
        rw [Text.hex]
        exact List.forall_mem_append.2
          ⟨ih (n / 16), List.forall_mem_singleton.2 (printable_hexDigit n)⟩
  exact List.forall_mem_cons.2 ⟨by decide, List.forall_mem_cons.2 ⟨by decide, hhex 4 n⟩⟩

/-- Inside a written text there are visible ASCII characters and blanks only. -/
theorem printable_escapedChar (c : Char) :
    ∀ d ∈ escapedChar c, 32 ≤ d.toNat ∧ d.toNat < 127 := by
  have hpair {a b : Char} (ha : 32 ≤ a.toNat ∧ a.toNat < 127) (hb : 32 ≤ b.toNat ∧ b.toNat < 127) :
      ∀ d ∈ [a, b], 32 ≤ d.toNat ∧ d.toNat < 127 :=
    List.forall_mem_cons.2 ⟨ha, List.forall_mem_singleton.2 hb⟩
  simp only [escapedChar]
  repeat' split
  any_goals exact hpair (by decide) (by decide)
  · next h => exact List.forall_mem_singleton.2 h
  · exact printable_escapedUnit _
  · exact List.forall_mem_append.2 ⟨printable_escapedUnit _, printable_escapedUnit _⟩

/-- A text in quotes is printable ASCII, whatever it is. -/
theorem printable_quoted (s : String) :
    ∀ c ∈ (quoted s).toList, 32 ≤ c.toNat ∧ c.toNat < 127 := by
  rw [quoted, String.toList_ofList]
  refine List.forall_mem_append.2
    ⟨List.forall_mem_cons.2 ⟨by decide, ?_⟩, List.forall_mem_singleton.2 (by decide)⟩
  intro d hd
  obtain ⟨c, -, hd⟩ := List.mem_flatMap.1 hd
  exact printable_escapedChar c d hd

end Sigil.Json
