import Sigil.Proofs.Json.Read

/-!
# Written documents are read back

In every layout the text of a document is ASCII, and the reader gives the document back. Between the
brackets of arrays and objects the layout puts blanks and commas, and what stands behind an item is
never a digit, so every item is read back where it stands.

## Main results

* `Json.Reader.series_inside`: items between brackets are read back one by one.
* `Json.valueWithin_writeAt`: a document is read back in front of what is no digit.
* `Json.read_write`: a written document is read back, in every layout.
* `Json.write_ascii`: a written document is ASCII.
-/

namespace Sigil.Json

namespace Reader

variable {α : Type} {cs v r : List Char}

/-! ### Items between brackets -/

/-- A number stops in front of another character. -/
theorem Stops.cons {c : Char} (h : c.isDigit = false) : Stops (c :: cs) := by
  intro c' hc
  obtain rfl : c = c' := Option.some.inj hc
  exact h

/-- A blank is no digit. -/
theorem isDigit_of_isBlank {c : Char} (h : isBlank c = true) : c.isDigit = false := by
  simp only [isBlank, Bool.or_eq_true, decide_eq_true_eq] at h
  rcases h with ((rfl | rfl) | rfl) | rfl <;> rfl

/-- Blanks stop a number. -/
theorem Stops.append (hv : ∀ c ∈ v, isBlank c = true) (h : Stops cs) : Stops (v ++ cs) := by
  cases v with
  | nil => exact h
  | cons c v => exact .cons (isDigit_of_isBlank (hv c (by simp)))

/-- The margin of a line is blank. -/
theorem isBlank_margin (layout : Layout) (depth : Nat) :
    ∀ c ∈ (layout.margin depth).toList, isBlank c = true := by
  intro c hc
  cases layout with
  | line => simp [Layout.margin] at hc
  | lines width =>
      simp only [Layout.margin, String.toList_append, String.toList_ofList, List.mem_append,
        List.mem_replicate] at hc
      rcases hc with hc | ⟨-, rfl⟩
      · obtain rfl : c = '\n' := by simpa using hc
        rfl
      · rfl

/-- Between two items there are a comma and blanks. -/
theorem toList_between (layout : Layout) (depth : Nat) :
    ∃ gap, (layout.between depth).toList = ',' :: gap ∧ ∀ c ∈ gap, isBlank c = true := by
  cases layout with
  | line => exact ⟨[' '], by simp [Layout.between], List.forall_mem_singleton.2 rfl⟩
  | lines width =>
      refine ⟨_, ?_, isBlank_margin (.lines width) depth⟩
      simp [Layout.between]

/-- The part of items between brackets that stands behind the opening bracket. -/
def inside (layout : Layout) (depth : Nat) (close : Char) : List String → List Char
  | [] => [close]
  | s :: ss =>
    (layout.margin (depth + 1)).toList ++ (s.toList ++
      (ss.flatMap (fun r => (layout.between (depth + 1)).toList ++ r.toList) ++
        ((layout.margin depth).toList ++ [close])))

/-- Items between brackets start with the opening one. -/
theorem toList_enclosed {layout : Layout} {depth : Nat} {opening closing : String}
    (mark close : Char) (hopening : opening.toList = [mark]) (hclosing : closing.toList = [close])
    (ss : List String) : (enclosed layout depth opening closing ss).toList =
      mark :: inside layout depth close ss := by
  cases ss with
  | nil => simp [enclosed, inside, hopening, hclosing]
  | cons s ss => simp [enclosed, inside, hopening, hclosing, Text.toList_joined]

/-- A text that may stand behind an opening bracket: it starts with neither a blank nor the closing
mark. -/
def Opens (close : Char) (cs : List Char) : Prop :=
  ∃ c rest, cs = c :: rest ∧ isBlank c = false ∧ c ≠ close

/-- Written items are read back one by one up to the closing mark. -/
theorem series_inside (layout : Layout) (depth : Nat) {close : Char} {item : Reader α}
    (spell : α → String) (as : List α) (hclose : close ∈ [']', '\x7d'])
    (hskip : ∀ v cs, (∀ c ∈ v, isBlank c = true) → item (v ++ cs) = item cs)
    (hopens : ∀ a ∈ as, Opens close (spell a).toList)
    (hitem : ∀ a ∈ as, ∀ r, Stops r → item ((spell a).toList ++ r) = some (a, r))
    (r : List Char) :
    series close item (inside layout depth close (as.map spell) ++ r) = some (as, r) := by
  obtain ⟨hblank, hdigit, hcomma⟩ :
      isBlank close = false ∧ close.isDigit = false ∧ close ≠ ',' := by
    simp only [List.mem_cons, List.not_mem_nil, or_false] at hclose
    rcases hclose with rfl | rfl <;> decide
  cases as with
  | nil =>
      have hend : skip (close :: r) = close :: r := skip_cons hblank
      simp only [List.map_nil, inside, List.singleton_append, series, hend, if_true]
  | cons a as =>
      obtain ⟨gap, hbetween, hgap⟩ := toList_between layout (depth + 1)
      obtain ⟨hopen, -⟩ := List.forall_mem_cons.1 hopens
      obtain ⟨ha, hitem⟩ := List.forall_mem_cons.1 hitem
      have hmargin := isBlank_margin layout
      have hend : another close item ((layout.margin depth).toList ++ close :: r) =
          some (none, r) := by
        simp only [another, skip_append (hmargin depth), skip_cons hblank, if_true]
      have hstops : Stops ((layout.margin depth).toList ++ close :: r) :=
        .append (hmargin depth) (.cons hdigit)
      have hothers : collect (another close item) (as.flatMap (fun a =>
          (layout.between (depth + 1)).toList ++ (spell a).toList) ++
            ((layout.margin depth).toList ++ close :: r)) = some (as, r) := by
        refine collect_flatMap as (fun a ha => ⟨by simp [hbetween], fun r hr => ?_⟩)
          (fun a ha r => ?_) hstops hend
        · have hcons : skip (',' :: (gap ++ ((spell a).toList ++ r))) =
              ',' :: (gap ++ ((spell a).toList ++ r)) := skip_cons rfl
          simp only [hbetween, List.cons_append, List.append_assoc, another, hcons, hcomma.symm,
            if_false, if_true, hskip _ _ hgap, hitem a ha r hr, Option.map_some]
        · rw [hbetween]
          exact .cons rfl
      have hbehind : Stops (as.flatMap (fun a =>
          (layout.between (depth + 1)).toList ++ (spell a).toList) ++
            ((layout.margin depth).toList ++ close :: r)) := by
        cases as with
        | nil => exact hstops
        | cons b bs =>
            rw [List.flatMap_cons, hbetween]
            exact .cons rfl
      have hfirst := ha _ hbehind
      obtain ⟨c, rest, hc, hcblank, hcclose⟩ := hopen
      simp only [hc, List.cons_append] at hfirst
      simp only [List.map_cons, inside, hc, List.append_assoc, List.cons_append, List.nil_append,
        List.flatMap_map, series, skip_append (hmargin (depth + 1)), skip_cons hcblank, hcclose,
        if_false, hfirst, Option.bind_eq_bind, Option.bind_some, hothers]
      rfl

/-! ### Documents -/

/-- Blanks in front of a value are skipped. -/
theorem valueWithin_skip (n : Nat) (v cs : List Char) (hv : ∀ c ∈ v, isBlank c = true) :
    valueWithin n (v ++ cs) = valueWithin n cs := by
  cases n with
  | zero => rfl
  | succ n => simp only [valueWithin, skip_append hv]

/-- Blanks in front of a member are skipped. -/
theorem member_skip (value : Reader Json) (v cs : List Char) (hv : ∀ c ∈ v, isBlank c = true) :
    member value (v ++ cs) = member value cs := by
  simp only [member, skip_append hv]

/-- A character that a written number may start with. -/
def StartsNumber (c : Char) : Prop :=
  c = '-' ∨ c.isDigit = true

/-- A number is written with a sign or a digit in front. -/
theorem toString_cons (n : Int) : ∃ c cs, (toString n).toList = c :: cs ∧ StartsNumber c := by
  cases n with
  | ofNat n =>
      rw [toString_ofNat]
      cases hcs : Nat.toDigits 10 n with
      | nil => exact absurd hcs Nat.toDigits_ne_nil
      | cons c cs =>
          exact ⟨c, cs, rfl, .inr (Nat.isDigit_of_mem_toDigits (b := 10) (n := n) (by decide)
            (by decide) (by simp [hcs]))⟩
  | negSucc n => exact ⟨'-', _, toString_negSucc n, .inl rfl⟩

/-- No blank is the start of a number. -/
theorem StartsNumber.isBlank {c : Char} (h : StartsNumber c) : isBlank c = false := by
  rcases h with rfl | h
  · rfl
  · exact Bool.eq_false_iff.2 fun hblank => by simp [isDigit_of_isBlank hblank] at h

/-- Neither is a mark that starts something else. -/
theorem StartsNumber.ne {c : Char} (h : StartsNumber c) (d : Char)
    (hd : d ≠ '-' ∧ d.isDigit = false) : c ≠ d := by
  rintro rfl
  rcases h with h | h
  · exact hd.1 h
  · simp [hd.2] at h

/-- Where a number starts a number is read. -/
theorem valueWithin_number {c : Char} (n : Nat) (h : StartsNumber c) :
    valueWithin (n + 1) (c :: cs) = (integer (c :: cs)).map fun (k, rest) => (number k, rest) := by
  simp only [valueWithin, skip_cons h.isBlank]
  split
  · next heq => exact absurd (List.cons.inj heq).1 (h.ne 'n' (by decide))
  · next heq => exact absurd (List.cons.inj heq).1 (h.ne '"' (by decide))
  · next heq => exact absurd (List.cons.inj heq).1 (h.ne '[' (by decide))
  · next heq => exact absurd (List.cons.inj heq).1 (h.ne '\x7b' (by decide))
  · rfl

/-- A text is written in quotes. -/
theorem quoted_cons (s : String) : ∃ cs, (quoted s).toList = '"' :: cs :=
  ⟨_, String.toList_ofList⟩

/-- A written member is read back if its value is. -/
theorem member_written {value : Reader Json} {name s : String} {j : Json}
    (hskip : ∀ v cs, (∀ c ∈ v, isBlank c = true) → value (v ++ cs) = value cs)
    (h : value (s.toList ++ r) = some (j, r)) :
    member value ((quoted name ++ ": " ++ s).toList ++ r) = some ((name, j), r) := by
  have hvalue : value (' ' :: (s.toList ++ r)) = some (j, r) :=
    (hskip [' '] (s.toList ++ r) (List.forall_mem_singleton.2 rfl)).trans h
  have hname : text (skip ((quoted name).toList ++ ':' :: ' ' :: (s.toList ++ r))) =
      some (name, ':' :: ' ' :: (s.toList ++ r)) := by
    obtain ⟨cs, hcs⟩ := quoted_cons name
    have hread := text_quoted name (':' :: ' ' :: (s.toList ++ r))
    rw [hcs, List.cons_append] at hread ⊢
    rw [skip_cons rfl, hread]
  have hcolon : skip (':' :: ' ' :: (s.toList ++ r)) = ':' :: ' ' :: (s.toList ++ r) :=
    skip_cons rfl
  have htext : (quoted name ++ ": " ++ s).toList ++ r =
      (quoted name).toList ++ ':' :: ' ' :: (s.toList ++ r) := by
    simp
  rw [htext]
  simp only [member, hname, Option.bind_eq_bind, Option.bind_some, hcolon, hvalue]
  rfl

/-- The first character of a written document is neither a blank nor a closing mark. -/
theorem opens_writeAt (layout : Layout) (depth : Nat) (j : Json) :
    Opens ']' (writeAt layout depth j).toList := by
  cases j with
  | null => exact ⟨'n', ['u', 'l', 'l'], by simp [writeAt], rfl, by decide⟩
  | number n =>
      obtain ⟨c, cs, hcs, hc⟩ := toString_cons n
      exact ⟨c, cs, hcs, hc.isBlank, hc.ne ']' (by decide)⟩
  | text s =>
      obtain ⟨cs, hcs⟩ := quoted_cons s
      exact ⟨'"', cs, hcs, rfl, by decide⟩
  | array es => exact ⟨'[', _, toList_enclosed _ _ rfl rfl _, rfl, by decide⟩
  | object ms => exact ⟨'\x7b', _, toList_enclosed _ _ rfl rfl _, rfl, by decide⟩

/-- The first character of a written member is the quote of its name. -/
theorem opens_member (name s : String) : Opens '\x7d' (quoted name ++ ": " ++ s).toList := by
  obtain ⟨cs, hcs⟩ := quoted_cons name
  refine ⟨'"', cs ++ ':' :: ' ' :: s.toList, ?_, rfl, by decide⟩
  simp [hcs]

end Reader

/-- The elements are written one by one. -/
theorem writeElements_eq (layout : Layout) (depth : Nat) (es : List Json) :
    writeElements layout depth es = es.map (writeAt layout depth) := by
  induction es with
  | nil => rfl
  | cons e es ih => rw [writeElements, ih, List.map_cons]

/-- The members are written one by one, with a colon behind the name. -/
theorem writeMembers_eq (layout : Layout) (depth : Nat) (ms : List (String × Json)) :
    writeMembers layout depth ms =
      ms.map fun m => quoted m.1 ++ ": " ++ writeAt layout depth m.2 := by
  induction ms with
  | nil => rfl
  | cons m ms ih => rw [writeMembers, ih, List.map_cons]

/-- Induction over documents, their elements and the values of their members. -/
theorem induct {P : Json → Prop} (null : P null) (number : ∀ n, P (number n))
    (text : ∀ s, P (text s)) (array : ∀ es, (∀ e ∈ es, P e) → P (array es))
    (object : ∀ ms, (∀ m ∈ ms, P m.2) → P (object ms)) (j : Json) : P j := by
  refine @Json.rec P (fun es => ∀ e ∈ es, P e) (fun ms => ∀ m ∈ ms, P m.2) (fun m => P m.2)
    null number text array object ?_ ?_ ?_ ?_ ?_ j
  · exact List.forall_mem_nil _
  · exact fun e es he hes => List.forall_mem_cons.2 ⟨he, hes⟩
  · exact List.forall_mem_nil _
  · exact fun m ms hm hms => List.forall_mem_cons.2 ⟨hm, hms⟩
  · exact fun _ _ h => h

/-- What is joined is no longer than the whole. -/
theorem length_le_joined (sep : String) {s : String} {ss : List String} (h : s ∈ ss) :
    s.length ≤ (Text.joined sep ss).length := by
  induction ss with
  | nil => simp at h
  | cons r ss ih =>
      cases ss with
      | nil =>
          obtain rfl := List.mem_singleton.1 h
          exact Nat.le_refl _
      | cons r' ss =>
          rw [Text.joined, String.length_append, String.length_append]
          rcases List.mem_cons.1 h with rfl | h
          · omega
          · have hle := ih h
            omega

/-- What stands between brackets is shorter than the whole, so it has fewer levels. -/
theorem length_lt_enclosed {layout : Layout} {depth : Nat} {opening closing s : String}
    {ss : List String} (hopening : 0 < opening.length) (h : s ∈ ss) :
    s.length < (enclosed layout depth opening closing ss).length := by
  cases ss with
  | nil => simp at h
  | cons r ss =>
      have hle := length_le_joined (layout.between (depth + 1)) h
      simp only [enclosed, String.length_append]
      omega

/-- A document has at least one level, and its text is not empty. -/
theorem exists_succ {layout : Layout} {depth n : Nat} {j : Json}
    (h : (writeAt layout depth j).length ≤ n) : ∃ k, n = k + 1 := by
  obtain ⟨c, cs, hcs, -⟩ := Reader.opens_writeAt layout depth j
  have hlength := congrArg List.length hcs
  rw [String.length_toList, List.length_cons] at hlength
  exact Nat.exists_eq_succ_of_ne_zero (by omega)

/-- The levels that are left are enough for the items between brackets. -/
theorem length_le_of_enclosed {layout : Layout} {depth n : Nat} {opening closing s : String}
    {ss : List String} (hopening : 0 < opening.length)
    (h : (enclosed layout depth opening closing ss).length ≤ n + 1) (hs : s ∈ ss) :
    s.length ≤ n :=
  Nat.le_of_lt_succ (Nat.lt_of_lt_of_le (length_lt_enclosed hopening hs) h)

/-- A written document is read back in front of what does not go on with a digit. -/
theorem valueWithin_writeAt (layout : Layout) (j : Json) (depth n : Nat)
    (hn : (writeAt layout depth j).length ≤ n) (r : List Char) (hr : Reader.Stops r) :
    Reader.valueWithin n ((writeAt layout depth j).toList ++ r) = some (j, r) := by
  induction j using induct generalizing depth n r with
  | null =>
      obtain ⟨n, rfl⟩ := exists_succ hn
      simp [writeAt, Reader.valueWithin, Reader.skip, Reader.isBlank]
  | number k =>
      obtain ⟨n, rfl⟩ := exists_succ hn
      obtain ⟨c, cs, hcs, hc⟩ := Reader.toString_cons k
      have hread := Reader.integer_toString k hr
      rw [hcs, List.cons_append] at hread
      rw [writeAt, hcs, List.cons_append, Reader.valueWithin_number n hc, hread]
      rfl
  | text s =>
      obtain ⟨n, rfl⟩ := exists_succ hn
      obtain ⟨cs, hcs⟩ := Reader.quoted_cons s
      have hread := Reader.text_quoted s r
      rw [hcs, List.cons_append] at hread
      have hskip : Reader.skip ('"' :: (cs ++ r)) = '"' :: (cs ++ r) := Reader.skip_cons rfl
      rw [writeAt, hcs, List.cons_append]
      simp only [Reader.valueWithin, hskip, hread]
      rfl
  | array es ih =>
      obtain ⟨n, rfl⟩ := exists_succ hn
      rw [writeAt, writeElements_eq] at hn ⊢
      have hseries := Reader.series_inside layout depth _ es (by simp)
        (Reader.valueWithin_skip n) (fun e _ => Reader.opens_writeAt layout (depth + 1) e)
        (fun e he => ih e he (depth + 1) n
          (length_le_of_enclosed (by decide) hn (List.mem_map_of_mem he))) r
      rw [Reader.toList_enclosed '[' ']' rfl rfl, List.cons_append]
      have hskip (cs : List Char) : Reader.skip ('[' :: cs) = '[' :: cs := Reader.skip_cons rfl
      simp only [Reader.valueWithin, hskip, hseries]
      rfl
  | object ms ih =>
      obtain ⟨n, rfl⟩ := exists_succ hn
      rw [writeAt, writeMembers_eq] at hn ⊢
      have hvalue : ∀ m ∈ ms, (writeAt layout (depth + 1) m.2).length ≤ n := fun m hm => by
        have hle := length_le_of_enclosed (by decide) hn (List.mem_map_of_mem hm)
        rw [String.length_append] at hle
        omega
      have hseries := Reader.series_inside layout depth
        (fun m => quoted m.1 ++ ": " ++ writeAt layout (depth + 1) m.2) ms (by simp)
        (Reader.member_skip (Reader.valueWithin n))
        (fun m _ => Reader.opens_member m.1 (writeAt layout (depth + 1) m.2))
        (fun m hm r hr => Reader.member_written (Reader.valueWithin_skip n)
          (ih m hm (depth + 1) n (hvalue m hm) r hr)) r
      rw [Reader.toList_enclosed '\x7b' '\x7d' rfl rfl, List.cons_append]
      have hskip (cs : List Char) : Reader.skip ('\x7b' :: cs) = '\x7b' :: cs :=
        Reader.skip_cons rfl
      simp only [Reader.valueWithin, hskip, hseries]
      rfl

/-- A written document is read back, in every layout. -/
theorem read_write (layout : Layout) (j : Json) : read (j.write layout) = some j := by
  have hread := valueWithin_writeAt layout j 0 (j.write layout).length (Nat.le_refl _) []
    (fun _ h => nomatch h)
  rw [List.append_nil] at hread
  simp only [read, write] at hread ⊢
  rw [hread]
  rfl

/-! ### ASCII -/

/-- All characters of the text are ASCII. -/
def IsAscii (s : String) : Prop :=
  ∀ c ∈ s.toList, c.toNat < 128

instance (s : String) : Decidable (IsAscii s) :=
  decidable_of_iff ((s.toList.all fun c => c.toNat < 128) = true) (by simp [IsAscii])

namespace IsAscii

variable {s r sep : String} {ss : List String}

/-- A text behind another one is ASCII if both are. -/
theorem append (hs : IsAscii s) (hr : IsAscii r) : IsAscii (s ++ r) := by
  rw [IsAscii, String.toList_append]
  exact List.forall_mem_append.2 ⟨hs, hr⟩

/-- All characters beyond are escaped in quotes. -/
theorem quoted (s : String) : IsAscii (quoted s) := fun c hc =>
  Nat.lt_succ_of_lt (printable_quoted s c hc).2

/-- A number is a sign and digits. -/
theorem number (n : Int) : IsAscii (toString n) := by
  have hdigits : ∀ n, ∀ c ∈ Nat.toDigits 10 n, c.toNat < 128 := by
    intro n c hc
    have hdigit := Nat.isDigit_of_mem_toDigits (by decide) (by decide) hc
    exact Nat.lt_of_le_of_lt (Char.isDigit_iff_toNat.1 hdigit).2 (by decide)
  cases n with
  | ofNat n =>
      rw [IsAscii, Reader.toString_ofNat]
      exact hdigits n
  | negSucc n =>
      rw [IsAscii, Reader.toString_negSucc]
      exact List.forall_mem_cons.2 ⟨by decide, hdigits (n + 1)⟩

/-- What is joined is ASCII if its parts and the separator are. -/
theorem joined (hsep : IsAscii sep) (h : ∀ s ∈ ss, IsAscii s) : IsAscii (Text.joined sep ss) := by
  induction ss with
  | nil => exact fun c hc => nomatch hc
  | cons s ss ih =>
      obtain ⟨hs, hss⟩ := List.forall_mem_cons.1 h
      cases ss with
      | nil => exact hs
      | cons r ss => exact (hs.append hsep).append (ih hss)

/-- Blanks are ASCII. -/
theorem of_isBlank (h : ∀ c ∈ s.toList, Reader.isBlank c = true) : IsAscii s := by
  intro c hc
  have hblank := h c hc
  simp only [Reader.isBlank, Bool.or_eq_true, decide_eq_true_eq] at hblank
  rcases hblank with ((rfl | rfl) | rfl) | rfl <;> decide

/-- What is enclosed is ASCII if the items and the brackets are. -/
theorem enclosed {opening closing : String} (hopening : IsAscii opening)
    (hclosing : IsAscii closing) (layout : Layout) (depth : Nat) (h : ∀ s ∈ ss, IsAscii s) :
    IsAscii (enclosed layout depth opening closing ss) := by
  cases ss with
  | nil => exact hopening.append hclosing
  | cons s ss =>
      have hmargin := fun depth => of_isBlank (Reader.isBlank_margin layout depth)
      obtain ⟨gap, hbetween, hgap⟩ := Reader.toList_between layout (depth + 1)
      have hsep : IsAscii (layout.between (depth + 1)) := by
        have hblanks : IsAscii (String.ofList gap) := of_isBlank (by simpa using hgap)
        rw [IsAscii, hbetween]
        exact List.forall_mem_cons.2 ⟨by decide, by simpa [IsAscii] using hblanks⟩
      exact (((hopening.append (hmargin _)).append (hsep.joined h)).append (hmargin _)).append
        hclosing

end IsAscii

/-- A written document is ASCII. -/
theorem write_ascii (layout : Layout) (j : Json) : IsAscii (j.write layout) := by
  have hall : ∀ depth, IsAscii (writeAt layout depth j) := by
    induction j using induct with
    | null =>
        have hnull : IsAscii "null" := by decide
        exact fun _ => hnull
    | number n => exact fun _ => .number n
    | text s => exact fun _ => .quoted s
    | array es ih =>
        intro depth
        rw [writeAt, writeElements_eq]
        refine .enclosed (by decide) (by decide) layout depth (List.forall_mem_map.2 fun e he => ?_)
        exact ih e he (depth + 1)
    | object ms ih =>
        intro depth
        rw [writeAt, writeMembers_eq]
        refine .enclosed (by decide) (by decide) layout depth (List.forall_mem_map.2 fun m hm => ?_)
        exact (IsAscii.append (.quoted m.1) (by decide)).append (ih m hm (depth + 1))
  exact hall 0

end Sigil.Json
