import Sigil.Cursor
import Sigil.Proofs.Token.Stream

/-!
# Where a line comment ends

A comment that starts with `//` ends in front of a newline of the text, or at the end of the text.
Which newline it is depends on the backslashes in front of it, and the comment is read by skipping
what each backslash hides. Here the end is described by indices of the text alone: it is the first
newline behind the slashes that is not hidden by an odd run of backslashes, where a carriage return
may stand between the run and the newline.

A run may be longer than what is read of it at a time, and it is counted in the whole text and not
just in the comment. The two agree because the slashes in front end every run that starts before
them.

## Main definitions

* `IsCommentEnd`: the index where a comment ends.

## Main results

* `IsCommentEnd.unique`: a comment ends at one index.
* `isCommentEnd_of_behind`: the characters that are read lead to the end of the comment.
* `Cursor.toLineEnd_exact`: a cursor is moved to the end of the comment that starts there.
-/

namespace Sigil

/-! ### Ends of comments -/

/-- A comment from the index `p` on ends at `j`: all newlines before are hidden, and at `j` there is
one that is not, or the text ends. -/
structure IsCommentEnd (text : List Char) (p j : Nat) : Prop where
  le : p ≤ j
  le_length : j ≤ text.length
  hidden : ∀ i, p ≤ i → i < j → text[i]? = some '\n' → HidesNewline (text.take i)
  ends : j = text.length ∨ text[j]? = some '\n' ∧ ¬ HidesNewline (text.take j)

namespace IsCommentEnd

variable {text : List Char} {p j k i : Nat}

/-- No comment goes on behind a newline that is not hidden. -/
theorem le_of_not_hidden (h : IsCommentEnd text p j) (hi : p ≤ i) (hnewline : text[i]? = some '\n')
    (hfree : ¬ HidesNewline (text.take i)) : j ≤ i :=
  Nat.le_of_not_lt fun hlt => hfree (h.hidden i hi hlt hnewline)

/-- A comment ends at one index. -/
theorem unique (hj : IsCommentEnd text p j) (hk : IsCommentEnd text p k) : j = k := by
  have hle {j k : Nat} (hj : IsCommentEnd text p j) (hk : IsCommentEnd text p k) : j ≤ k := by
    rcases hk.ends with rfl | ⟨hnewline, hfree⟩
    · exact hj.le_length
    · exact hj.le_of_not_hidden hk.le hnewline hfree
  exact Nat.le_antisymm (hle hj hk) (hle hk hj)

/-- A comment ends at no newline that is hidden. -/
theorem ne_of_hidden (h : IsCommentEnd text p j) (hi : i < text.length)
    (hhidden : HidesNewline (text.take i)) : j ≠ i := by
  rintro rfl
  rcases h.ends with hend | ⟨-, hfree⟩
  · omega
  · exact hfree hhidden

/-- A comment ends in front of a newline or behind the whole text. -/
theorem ne_of_ne_newline {c : Char} (h : IsCommentEnd text p j) (hc : text[i]? = some c)
    (hne : c ≠ '\n') : j ≠ i := by
  rintro rfl
  rcases h.ends with hend | ⟨hnewline, -⟩
  · simp [hend] at hc
  · exact hne (Option.some.inj (hc.symm.trans hnewline))

end IsCommentEnd

/-! ### What is read of a comment -/

/-- The characters that are read lead to the end of the comment. -/
theorem isCommentEnd_of_behind {before body rest : List Char}
    (h : IsLineCommentBehind before body rest) :
    IsCommentEnd (before ++ (body ++ rest)) before.length (before.length + body.length) where
  le := Nat.le_add_right _ _
  le_length := by
    simp only [List.length_append]
    omega
  hidden i hi hlt hnewline := by
    obtain ⟨a, rfl⟩ := Nat.exists_eq_add_of_le hi
    have ha : a < body.length := by omega
    rw [List.getElem?_append_right hi, Nat.add_sub_cancel_left,
      List.getElem?_append_left ha] at hnewline
    have hsplit : body = body.take a ++ '\n' :: body.drop (a + 1) := by
      obtain ⟨_, hget⟩ := List.getElem?_eq_some_iff.1 hnewline
      rw [← hget, List.getElem_cons_drop, List.take_append_drop]
    rw [List.take_length_add_append, List.take_append_of_le_length (Nat.le_of_lt ha)]
    exact h.hidden _ _ hsplit
  ends := by
    by_cases hrest : rest = []
    · exact .inl (by simp [hrest])
    · obtain ⟨hhead, hfree⟩ := h.ends hrest
      rw [← List.append_assoc, ← List.length_append]
      refine .inr ⟨?_, by rwa [List.take_left]⟩
      rw [List.getElem?_append_right (Nat.le_refl _), Nat.sub_self, ← List.head?_eq_getElem?]
      exact hhead

/-- The slashes at the start of a comment end every run of backslashes in front of them. -/
theorem lineComment_sound_of_slashes (before cs : List Char) :
    IsLineCommentBehind before (lineComment ('/' :: '/' :: cs)).taken
      (lineComment ('/' :: '/' :: cs)).rest := by
  have hsettled : Settled (before ++ ['/'] ++ ['/']) cs := settled_of_other (by decide) (by decide)
  have hcomment : lineComment ('/' :: '/' :: cs) = (lineComment cs).prepend ['/', '/'] := by
    simp [lineComment, Split.prepend]
  have hbehind := lineComment_sound_behind hsettled
  rw [List.append_assoc] at hbehind
  rw [hcomment]
  refine .append (fun a b hab => ?_) hbehind
  have hmem : '\n' ∈ ['/', '/'] := by simp [show ['/', '/'] = a ++ '\n' :: b from hab]
  simp at hmem

namespace Cursor

variable {c : Cursor}

theorem exists_onward_of_startsWith (hnonneg : 0 ≤ c.position.offset)
    (h : c.startsWith "//" = true) : ∃ cs, c.onward = '/' :: '/' :: cs := by
  simp only [startsWith, isBefore_of_nonneg hnonneg, Bool.and_eq_true, Bool.false_eq_true,
    if_false] at h
  obtain ⟨cs, hcs⟩ := List.isPrefixOf_iff_prefix.1 h.2
  exact ⟨cs, hcs.symm⟩

/-- A cursor at the slashes of a comment is moved to the end of the comment, over all that stands
between, and this never fails. The end lies neither between a backslash that hides a line end of two
characters and that line end, nor within the line end, and it never lies behind a newline with an
even run of backslashes in front. -/
theorem toLineEnd_exact (c : Cursor) (p : Nat) (hp : c.position.offset = p)
    (h : c.startsWith "//" = true) :
    ∃ j, IsCommentEnd c.text p j ∧ (∀ k, IsCommentEnd c.text p k → k = j) ∧
      toLineEnd c = .ok () (c.past (between c.text p j)) ∧
      (c.past (between c.text p j)).position.offset = j ∧
      (∀ i, c.text[i]? = some '\\' → c.text[i + 1]? = some '\r' → c.text[i + 2]? = some '\n' →
        trailingBackslashes (c.text.take (i + 1)) % 2 = 1 → j ≤ i ∨ i + 3 ≤ j) ∧
      (∀ i, p ≤ i → c.text[i]? = some '\n' → trailingBackslashes (c.text.take i) % 2 = 0 →
        (∀ b, c.text.take i = b ++ ['\r'] → trailingBackslashes b % 2 = 0) → j ≤ i) := by
  have hnonneg : 0 ≤ c.position.offset := by omega
  obtain ⟨cs, honward⟩ := exists_onward_of_startsWith hnonneg h
  have honward' : c.onward = c.text.drop p := by rw [onward, hp, Int.toNat_natCast]
  have hbehind := lineComment_sound_of_slashes (c.text.take p) cs
  rw [← honward] at hbehind
  have htext : c.text =
      c.text.take p ++ ((lineComment c.onward).taken ++ (lineComment c.onward).rest) := by
    rw [← Split.whole, whole_lineComment, honward', List.take_append_drop]
  have hlength : (c.text.take p).length = p := by
    have hpos := congrArg List.length (honward'.symm.trans honward)
    simp only [List.length_drop, List.length_cons] at hpos
    rw [List.length_take]
    omega
  have hend := isCommentEnd_of_behind hbehind
  rw [← htext, hlength] at hend
  generalize hj : p + (lineComment c.onward).taken.length = j at hend
  have htaken : between c.text p j = (lineComment c.onward).taken := by
    rw [htext]
    exact between_append (by omega) (by omega)
  refine ⟨j, hend, fun k hk => hk.unique hend, ?_, ?_, fun i hslash hreturn hnewline hodd => ?_,
    fun i hi hnewline heven hreturn => ?_⟩
  · simp only [toLineEnd, reading, inReach_of_nonneg hnonneg, if_true, leadIn_of_nonneg hnonneg,
      LeadIn.lineComment_nil, htaken]
  · rw [past, Position.offset_after, hp, htaken]
    omega
  · have hlt := (List.getElem?_eq_some_iff.1 hnewline).1
    have htake : c.text.take (i + 2) = c.text.take (i + 1) ++ ['\r'] := by
      rw [List.take_add_one, hreturn, Option.toList_some]
    have hfirst := hend.ne_of_ne_newline hreturn (by decide)
    have hsecond := hend.ne_of_hidden hlt (.inr ⟨_, htake, hodd⟩)
    omega
  · refine hend.le_of_not_hidden hi hnewline fun hhidden => ?_
    rcases hhidden with hodd | ⟨b, hb, hodd⟩
    · omega
    · have hnone := hreturn b hb
      omega

/-- A comment goes on behind a backslash in front of the line end, and ends behind two of them. -/
theorem toLineEnd_exact_runs :
    ∃ c : Cursor, c = ⟨"x // a\\\r\nb\\\\\nc".toList, ⟨2, 1, 3⟩⟩ ∧ c.position.offset = (2 : Nat) ∧
      c.startsWith "//" = true ∧ toLineEnd c = .ok () { c with position := ⟨12, 2, 4⟩ } ∧
      IsCommentEnd c.text 2 12 := by
  refine ⟨_, rfl, rfl, by decide, by rfl, ?_⟩
  obtain ⟨j, hend, -, hrun, hoffset, -⟩ :=
    toLineEnd_exact ⟨"x // a\\\r\nb\\\\\nc".toList, ⟨2, 1, 3⟩⟩ 2 rfl (by decide)
  have hread : toLineEnd ⟨"x // a\\\r\nb\\\\\nc".toList, ⟨2, 1, 3⟩⟩ =
    .ok () ⟨"x // a\\\r\nb\\\\\nc".toList, ⟨12, 2, 4⟩⟩ := by rfl
  rw [hread] at hrun
  obtain ⟨-, hcursor⟩ := EStateM.Result.ok.inj hrun
  rw [← hcursor] at hoffset
  obtain rfl : 12 = j := Int.ofNat.inj hoffset
  exact hend

end Cursor

end Sigil
