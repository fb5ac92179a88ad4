import Sigil.Token.Filler

/-!
# What filler is

Filler as the language describes it, without a word on how it is skipped: sequences of blanks,
continued lines and comments, where a comment to the end of the line is described by the newlines
that are hidden in it and a comment between `/*` and `*/` by the place where `*/` first occurs. A
piece of filler is judged together with the text behind it, on which the end of a comment depends.

## Main definitions

* `HidesNewline`: what has to stand in front of a newline that does not end a comment.
* `IsFillerUnit`, `IsFiller`: the pieces of filler, and sequences of them.
* `IsFaultyFiller`: what cannot be skipped.

## Main results

* `IsFillerUnit.unique`: a text starts with at most one piece of filler.
* `skipFiller_sound`, `IsFiller.skipFiller_eq`: what is skipped is filler, and all of it.
-/

namespace Sigil

/-! ### Comments to the end of the line -/

/-- The number of backslashes at the end of a stretch. -/
def trailingBackslashes (cs : List Char) : Nat :=
  (cs.reverse.takeWhile (· == '\\')).length

@[simp] theorem trailingBackslashes_nil : trailingBackslashes [] = 0 := rfl

theorem trailingBackslashes_backslash (cs : List Char) :
    trailingBackslashes (cs ++ ['\\']) = trailingBackslashes cs + 1 := by
  simp [trailingBackslashes]

theorem trailingBackslashes_other {c : Char} (hc : c ≠ '\\') (cs : List Char) :
    trailingBackslashes (cs ++ [c]) = 0 := by
  simp [trailingBackslashes, hc]

/-- A newline behind `cs` does not end a comment: the backslash in front of it, or in front of the
carriage return in front of it, is not itself hidden by a backslash. -/
def HidesNewline (cs : List Char) : Prop :=
  trailingBackslashes cs % 2 = 1 ∨ ∃ b, cs = b ++ ['\r'] ∧ trailingBackslashes b % 2 = 1

/-- Behind two slashes, a comment goes up to the first newline that is not hidden, or to the end of
the text. -/
structure IsLineComment (body rest : List Char) : Prop where
  hidden : ∀ a b, body = a ++ '\n' :: b → HidesNewline a
  ends : rest ≠ [] → rest.head? = some '\n' ∧ ¬ HidesNewline body

/-- A text has at most one comment to the end of the line in front. -/
theorem IsLineComment.unique {a b c d : List Char} (h : IsLineComment a c)
    (h' : IsLineComment b d) (heq : a ++ c = b ++ d) : a = b := by
  -- The longer of two comments would hold the newline that ends the shorter one.
  have hlonger {a b c d u : List Char} (h : IsLineComment a c) (h' : IsLineComment b d)
      (hb : b = a ++ u) (hc : c = u ++ d) : a = b := by
    cases u with
    | nil => simp [hb]
    | cons x u =>
        obtain ⟨hhead, hfree⟩ := h.ends (by simp [hc])
        obtain rfl : x = '\n' := by simpa [hc] using hhead
        exact absurd (h'.hidden a u hb) hfree
  obtain ⟨u, hb, hc⟩ | ⟨u, ha, hd⟩ := List.append_eq_append_iff.1 heq
  · exact hlonger h h' hb hc
  · exact (hlonger h' h ha hd).symm

/-- What is known behind the first characters of a comment: no backslash is pending, and a newline
that is hidden by them has been taken with them. -/
def Settled (before cs : List Char) : Prop :=
  trailingBackslashes before % 2 = 0 ∧ (HidesNewline before → cs.head? ≠ some '\n')

/-- A backslash behind settled characters hides what comes next. -/
theorem Settled.odd {before cs : List Char} (h : Settled before cs) :
    trailingBackslashes (before ++ ['\\']) % 2 = 1 := by
  have heven := h.1
  rw [trailingBackslashes_backslash]
  omega

theorem settled_of_other {before cs : List Char} {c : Char} (hc : c ≠ '\\') (hreturn : c ≠ '\r') :
    Settled (before ++ [c]) cs := by
  refine ⟨by rw [trailingBackslashes_other hc], fun h => ?_⟩
  obtain h | ⟨b, hb, -⟩ := h
  · rw [trailingBackslashes_other hc] at h
    omega
  · obtain ⟨-, rfl⟩ := List.append_singleton_inj.1 hb
    exact absurd rfl hreturn

/-- A carriage return is settled if no backslash hides it, or no newline follows. -/
theorem settled_of_return {before cs : List Char}
    (h : trailingBackslashes before % 2 = 1 → cs.head? ≠ some '\n') :
    Settled (before ++ ['\r']) cs := by
  have hzero : trailingBackslashes (before ++ ['\r']) = 0 :=
    trailingBackslashes_other (by decide) before
  refine ⟨by rw [hzero], fun hhides => ?_⟩
  obtain hodd | ⟨b, hb, hodd⟩ := hhides
  · omega
  · obtain ⟨rfl, -⟩ := List.append_singleton_inj.1 hb
    exact h hodd

/-- A backslash hides the character behind it, and hides a newline behind that only with a carriage
return between them. -/
theorem settled_of_escape {before cs : List Char} {c : Char}
    (h : trailingBackslashes before % 2 = 0) (hreturn : c = '\r' → cs.head? ≠ some '\n') :
    Settled (before ++ ['\\', c]) cs := by
  rw [show before ++ ['\\', c] = before ++ ['\\'] ++ [c] by simp]
  by_cases hc : c = '\\'
  · subst hc
    refine ⟨by rw [trailingBackslashes_backslash, trailingBackslashes_backslash]; omega, ?_⟩
    intro hhides
    obtain hodd | ⟨b, hb, -⟩ := hhides
    · rw [trailingBackslashes_backslash, trailingBackslashes_backslash] at hodd
      omega
    · obtain ⟨-, hc⟩ := List.append_singleton_inj.1 hb
      exact absurd hc (by decide)
  · by_cases hc' : c = '\r'
    · subst hc'
      exact settled_of_return fun _ => hreturn rfl
    · exact settled_of_other hc hc'

/-- A rest of a comment whose first characters `before` are already read. -/
structure IsLineCommentBehind (before body rest : List Char) : Prop where
  hidden : ∀ a b, body = a ++ '\n' :: b → HidesNewline (before ++ a)
  ends : rest ≠ [] → rest.head? = some '\n' ∧ ¬ HidesNewline (before ++ body)

theorem IsLineCommentBehind.append {before u body rest : List Char}
    (hu : ∀ a b, u = a ++ '\n' :: b → HidesNewline (before ++ a))
    (h : IsLineCommentBehind (before ++ u) body rest) :
    IsLineCommentBehind before (u ++ body) rest where
  hidden a b hab := by
    obtain ⟨v, ha, hbody⟩ | ⟨v, huv, hv⟩ := List.append_eq_append_iff.1 hab
    · rw [ha, ← List.append_assoc]
      exact h.hidden v b hbody
    · cases v with
      | nil =>
          rw [List.append_nil] at huv
          rw [← huv]
          simpa using h.hidden [] b (by simpa using hv.symm)
      | cons x v =>
          obtain ⟨rfl, -⟩ := List.cons.inj hv
          exact hu a v huv
  ends hne := by
    rw [← List.append_assoc]
    exact h.ends hne

/-- Behind settled characters a comment is read as the language describes it. -/
theorem lineComment_sound_behind {before cs : List Char} (h : Settled before cs) :
    IsLineCommentBehind before (lineComment cs).taken (lineComment cs).rest := by
  fun_induction lineComment cs generalizing before with
  | case1 => exact ⟨by simp, by simp⟩
  | case2 cs => exact ⟨by simp, fun _ => ⟨rfl, fun hhides => h.2 (by simpa using hhides) rfl⟩⟩
  | case3 cs ih =>
      refine .append (fun a b hab => ?_) (ih ?_)
      · obtain rfl : a = ['\\', '\r'] := by
          rcases a with _ | ⟨x, _ | ⟨y, _ | ⟨z, a⟩⟩⟩ <;> simp_all [eq_comm]
        exact .inr ⟨before ++ ['\\'], by simp, h.odd⟩
      · rw [show before ++ ['\\', '\r', '\n'] = before ++ ['\\', '\r'] ++ ['\n'] by simp]
        exact settled_of_other (by decide) (by decide)
  | case4 c cs hreturn ih =>
      refine .append (fun a b hab => ?_) (ih ?_)
      · obtain rfl : a = ['\\'] := by
          rcases a with _ | ⟨x, _ | ⟨y, a⟩⟩ <;> simp_all [eq_comm]
        exact .inl h.odd
      · exact settled_of_escape h.1 fun hc hhead => by
          cases cs with
          | nil => simp at hhead
          | cons d cs => exact hreturn cs hc (by simpa using hhead)
  | case5 c cs hnewline hreturn hescape ih =>
      by_cases hc : c = '\\'
      · -- A backslash at the end of the text hides nothing.
        subst hc
        cases cs with
        | cons d cs => exact (hescape d cs rfl rfl).elim
        | nil =>
            refine ⟨fun a b hab => ?_, fun hne => absurd rfl hne⟩
            rcases a with _ | ⟨x, a⟩ <;> simp [lineComment, Split.prepend] at hab
      · refine .append (fun a b hab => ?_) (ih ?_)
        · rcases a with _ | ⟨x, a⟩
          · exact absurd (by simpa using hab) (fun hc : c = '\n' ∧ b = [] => hnewline hc.1)
          · simp at hab
        · by_cases hc' : c = '\r'
          · subst hc'
            have heven := h.1
            exact settled_of_return fun hodd => by omega
          · exact settled_of_other hc hc'

/-- The comment read is the one that the language describes. -/
theorem lineComment_sound (cs : List Char) :
    IsLineComment (lineComment cs).taken (lineComment cs).rest := by
  have hsettled : Settled [] cs := by
    refine ⟨rfl, fun h => ?_⟩
    obtain h | ⟨b, hb, -⟩ := h
    · simp at h
    · simp at hb
  obtain ⟨hhidden, hends⟩ := lineComment_sound_behind hsettled
  exact ⟨hhidden, hends⟩

/-! ### Comments between marks -/

/-- The mark that closes a comment does not occur in the text. -/
def NoClose (cs : List Char) : Prop :=
  ∀ a b, cs ≠ a ++ '*' :: '/' :: b

theorem noClose_cons {c : Char} {cs : List Char} (h : NoClose cs)
    (hfront : ∀ b, c :: cs ≠ '*' :: '/' :: b) : NoClose (c :: cs) := by
  intro a b heq
  cases a with
  | nil => exact hfront b heq
  | cons d a =>
      obtain ⟨-, heq⟩ := List.cons.inj heq
      exact h a b heq

/-- An open comment ends with the first closing mark, or is not closed at all. -/
theorem closeComment_sound (cs : List Char) :
    match closeComment cs with
    | some s => ∃ body, s.taken = body ++ ['*', '/'] ∧ NoClose (body ++ ['*'])
    | none => NoClose cs := by
  fun_induction closeComment cs with
  | case1 => exact fun a b heq => by simp at heq
  | case2 cs => exact ⟨[], rfl, noClose_cons (fun a b heq => by simp at heq) (by simp)⟩
  | case3 c cs hfront ih =>
      cases hclose : closeComment cs with
      | none =>
          rw [hclose] at ih
          exact noClose_cons ih fun b heq => by
            obtain ⟨hc, hcs⟩ := List.cons.inj heq
            exact hfront b hc hcs
      | some s =>
          rw [hclose] at ih
          obtain ⟨body, htaken, hbody⟩ := ih
          refine ⟨c :: body, by simp [Split.prepend, htaken], noClose_cons hbody fun b heq => ?_⟩
          -- The closing mark would have been found in front already.
          have hcs := eq_of_closeComment hclose
          simp only [Split.whole, htaken] at hcs
          cases body with
          | nil => simp at heq
          | cons d body =>
              simp only [List.cons.injEq] at heq
              obtain ⟨hc, rfl, -⟩ := heq
              exact hfront _ hc hcs.symm

/-- A closing mark is the first one for at most one body. -/
theorem NoClose.unique {a b c d : List Char} (ha : NoClose (a ++ ['*']))
    (hb : NoClose (b ++ ['*'])) (heq : a ++ ['*', '/'] ++ c = b ++ ['*', '/'] ++ d) : a = b := by
  have hlonger {a b c d u : List Char} (hb : NoClose (b ++ ['*'])) (hab : b = a ++ u)
      (hc : '*' :: '/' :: c = u ++ '*' :: '/' :: d) : a = b := by
    rcases u with _ | ⟨x, _ | ⟨y, u⟩⟩
    · simp [hab]
    · simp at hc
    · simp only [List.cons_append, List.cons.injEq] at hc
      obtain ⟨rfl, rfl, -⟩ := hc
      exact absurd (by simp [hab]) (hb a (u ++ ['*']))
  simp only [List.append_assoc, List.cons_append, List.nil_append] at heq
  obtain ⟨u, hu, hc⟩ | ⟨u, hu, hd⟩ := List.append_eq_append_iff.1 heq
  · exact hlonger hb hu hc
  · exact (hlonger ha hu hd).symm

/-! ### Pieces of filler -/

/-- The stretch is one piece of filler in front of `rest`. -/
inductive IsFillerUnit : List Char → List Char → Prop
  | blank {c : Char} {rest : List Char} (hc : isBlank c = true) : IsFillerUnit [c] rest
  | continuation {rest : List Char} : IsFillerUnit ['\\', '\n'] rest
  | returnContinuation {rest : List Char} : IsFillerUnit ['\\', '\r', '\n'] rest
  | lineComment {body rest : List Char} (h : IsLineComment body rest) :
      IsFillerUnit ('/' :: '/' :: body) rest
  | blockComment {body rest : List Char} (h : NoClose (body ++ ['*'])) :
      IsFillerUnit ('/' :: '*' :: (body ++ ['*', '/'])) rest

/-- The stretch is a sequence of pieces of filler in front of `rest`. -/
inductive IsFiller : List Char → List Char → Prop
  | empty {rest : List Char} : IsFiller [] rest
  | unit {u v rest : List Char} (hu : IsFillerUnit u (v ++ rest)) (hv : IsFiller v rest) :
      IsFiller (u ++ v) rest

/-- The text starts with filler that cannot be skipped, for a reason. -/
inductive IsFaultyFiller : FillerFault → List Char → Prop
  | strayBackslash {cs : List Char} (hnewline : ∀ r, cs ≠ '\n' :: r)
      (hreturn : ∀ r, cs ≠ '\r' :: '\n' :: r) : IsFaultyFiller .strayBackslash ('\\' :: cs)
  | openComment {cs : List Char} (h : NoClose cs) : IsFaultyFiller .openComment ('/' :: '*' :: cs)

/-- No piece of filler is in front of the text, and neither is a backslash or the start of a
comment. -/
def StartsNoFiller (cs : List Char) : Prop :=
  ∀ c r, cs = c :: r → isBlank c = false ∧ c ≠ '\\' ∧
    (c = '/' → r.head? ≠ some '/' ∧ r.head? ≠ some '*')

/-- A continuation that is found is a piece of filler. -/
theorem continuation?_sound {cs : List Char} {s : Split}
    (h : continuation? ('\\' :: cs) = some s) : IsFillerUnit s.taken s.rest := by
  unfold continuation? at h
  split at h
  · next heq =>
      cases h
      obtain ⟨rfl, -⟩ := List.cons.inj heq
      exact .continuation
  · next heq =>
      cases h
      obtain ⟨rfl, -⟩ := List.cons.inj heq
      exact .returnContinuation
  · cases h

/-- What the first piece of filler is found to be. -/
theorem fillerUnit_sound (cs : List Char) :
    match fillerUnit cs with
    | .ok (some s) => IsFillerUnit s.taken s.rest
    | .ok none => StartsNoFiller cs
    | .error fault => IsFaultyFiller fault cs := by
  fun_cases fillerUnit cs with
  | case1 cs => exact .lineComment (lineComment_sound cs)
  | case2 cs s hclose =>
      have hsound := closeComment_sound cs
      rw [hclose] at hsound
      obtain ⟨body, htaken, hbody⟩ := hsound
      simp only [Split.prepend, htaken]
      exact .blockComment hbody
  | case3 cs hclose =>
      have hsound := closeComment_sound cs
      rw [hclose] at hsound
      exact .openComment hsound
  | case4 cs s hcontinuation => exact continuation?_sound hcontinuation
  | case5 cs hcontinuation =>
      refine .strayBackslash (fun r hr => ?_) (fun r hr => ?_)
      · simp [hr, continuation?] at hcontinuation
      · simp [hr, continuation?] at hcontinuation
  | case6 c cs hline hblock hbackslash =>
      by_cases hblank : isBlank c = true
      · simp only [hblank, if_true]
        exact .blank hblank
      · simp only [hblank]
        intro d r heq
        obtain ⟨rfl, rfl⟩ := List.cons.inj heq
        refine ⟨by simpa using hblank, hbackslash, fun hc => ⟨fun hhead => ?_, fun hhead => ?_⟩⟩
        · obtain ⟨r, rfl⟩ := List.head?_eq_some_iff.1 hhead
          exact hline r hc rfl
        · obtain ⟨r, rfl⟩ := List.head?_eq_some_iff.1 hhead
          exact hblock r hc rfl
  | case7 => exact fun c r heq => by simp at heq

/-- Where filler starts, nothing else does. -/
theorem IsFillerUnit.not_startsNoFiller {u rest : List Char} (h : IsFillerUnit u rest) :
    ¬ StartsNoFiller (u ++ rest) := by
  intro hno
  cases h with
  | blank hc =>
      obtain ⟨hblank, -, -⟩ := hno _ _ rfl
      exact absurd hc (by simp [hblank])
  | continuation | returnContinuation => exact (hno _ _ rfl).2.1 rfl
  | lineComment => exact ((hno _ _ rfl).2.2 rfl).1 rfl
  | blockComment => exact ((hno _ _ rfl).2.2 rfl).2 rfl

/-- A piece of filler is not faulty. -/
theorem IsFillerUnit.not_faulty {u rest : List Char} {fault : FillerFault}
    (h : IsFillerUnit u rest) : ¬ IsFaultyFiller fault (u ++ rest) := by
  intro hfaulty
  generalize heq : u ++ rest = cs at hfaulty
  cases hfaulty with
  | strayBackslash hnewline hreturn =>
      cases h with
      | blank hc =>
          obtain ⟨rfl, -⟩ := List.cons.inj heq
          exact absurd hc (by decide)
      | continuation => exact hnewline rest (List.cons.inj heq).2.symm
      | returnContinuation => exact hreturn rest (List.cons.inj heq).2.symm
      | lineComment | blockComment => exact absurd (List.cons.inj heq).1 (by decide)
  | openComment hopen =>
      cases h with
      | blank hc =>
          obtain ⟨rfl, -⟩ := List.cons.inj heq
          exact absurd hc (by decide)
      | continuation | returnContinuation => exact absurd (List.cons.inj heq).1 (by decide)
      | lineComment => exact absurd (List.cons.inj (List.cons.inj heq).2).1 (by decide)
      | @blockComment body =>
          have heq := (List.cons.inj (List.cons.inj heq).2).2
          exact hopen body rest (by rw [← heq]; simp)

/-- A piece of filler that starts with a blank is the blank. -/
theorem IsFillerUnit.eq_blank {c : Char} {u rest cs : List Char} (h : IsFillerUnit u rest)
    (hc : isBlank c = true) (heq : u ++ rest = c :: cs) : u = [c] := by
  cases h with
  | blank => rw [(List.cons.inj heq).1]
  | _ =>
      obtain ⟨rfl, -⟩ := List.cons.inj heq
      exact absurd hc (by decide)

/-- A text starts with at most one piece of filler. -/
theorem IsFillerUnit.unique {u v r r' : List Char} (hu : IsFillerUnit u r)
    (hv : IsFillerUnit v r') (heq : u ++ r = v ++ r') : u = v := by
  have hfirst := hu
  cases hu with
  | blank hc => exact (hv.eq_blank hc heq.symm).symm
  | continuation =>
      cases hv with
      | blank hc => exact hfirst.eq_blank hc heq
      | continuation => rfl
      | _ => simp at heq
  | returnContinuation =>
      cases hv with
      | blank hc => exact hfirst.eq_blank hc heq
      | returnContinuation => rfl
      | _ => simp at heq
  | lineComment h =>
      cases hv with
      | blank hc => exact hfirst.eq_blank hc heq
      | lineComment h' => rw [h.unique h' (by simpa using heq)]
      | _ => simp at heq
  | blockComment h =>
      cases hv with
      | blank hc => exact hfirst.eq_blank hc heq
      | blockComment h' => rw [h.unique h' (by simpa using heq)]
      | _ => simp at heq

/-- A piece of filler in front of a text is found. -/
theorem IsFillerUnit.fillerUnit_eq {u rest : List Char} (h : IsFillerUnit u rest) :
    fillerUnit (u ++ rest) = .ok (some ⟨u, rest⟩) := by
  have hsound := fillerUnit_sound (u ++ rest)
  cases hunit : fillerUnit (u ++ rest) with
  | error fault =>
      rw [hunit] at hsound
      exact absurd hsound h.not_faulty
  | ok r =>
      rw [hunit] at hsound
      cases r with
      | none => exact absurd hsound h.not_startsNoFiller
      | some s =>
          obtain ⟨heq, -⟩ := eq_of_fillerUnit hunit
          obtain rfl : u = s.taken := h.unique hsound heq.symm
          rw [Split.whole, List.append_cancel_left_eq] at heq
          rw [← heq]

theorem IsFaultyFiller.not_startsNoFiller {fault : FillerFault} {cs : List Char}
    (h : IsFaultyFiller fault cs) : ¬ StartsNoFiller cs := by
  intro hno
  cases h with
  | strayBackslash => exact (hno _ _ rfl).2.1 rfl
  | openComment => exact ((hno _ _ rfl).2.2 rfl).2 rfl

/-- A fault in front of a text is found. -/
theorem IsFaultyFiller.fillerUnit_eq {fault : FillerFault} {cs : List Char}
    (h : IsFaultyFiller fault cs) : fillerUnit cs = .error fault := by
  have hsound := fillerUnit_sound cs
  cases hunit : fillerUnit cs with
  | error fault' =>
      rw [hunit] at hsound
      cases h <;> cases hsound <;> rfl
  | ok r =>
      rw [hunit] at hsound
      cases r with
      | none => exact absurd hsound h.not_startsNoFiller
      | some s =>
          obtain ⟨heq, -⟩ := eq_of_fillerUnit hunit
          rw [← heq] at h
          exact absurd h hsound.not_faulty

/-- Where no filler starts, none is found. -/
theorem StartsNoFiller.fillerUnit_eq {cs : List Char} (h : StartsNoFiller cs) :
    fillerUnit cs = .ok none := by
  have hsound := fillerUnit_sound cs
  cases hunit : fillerUnit cs with
  | error fault =>
      rw [hunit] at hsound
      exact absurd h hsound.not_startsNoFiller
  | ok r =>
      rw [hunit] at hsound
      cases r with
      | none => rfl
      | some s =>
          obtain ⟨heq, -⟩ := eq_of_fillerUnit hunit
          rw [← heq] at h
          exact absurd h hsound.not_startsNoFiller

/-! ### All the filler in front of a text -/

/-- The filler that is skipped is filler. Behind it, none starts, or a faulty piece. -/
theorem skipFiller_sound (cs : List Char) :
    IsFiller (skipFiller cs).taken (skipFiller cs).rest ∧
      match (skipFiller cs).fault with
      | none => StartsNoFiller (skipFiller cs).rest
      | some fault => IsFaultyFiller fault (skipFiller cs).rest := by
  fun_induction skipFiller cs with
  | case1 cs s hunit more ih =>
      have hsound := fillerUnit_sound cs
      rw [hunit] at hsound
      have hwhole : s.rest = more.taken ++ more.rest := (whole_skipFiller s.rest).symm
      exact ⟨.unit (hwhole ▸ hsound) ih.1, ih.2⟩
  | case2 cs hunit =>
      have hsound := fillerUnit_sound cs
      rw [hunit] at hsound
      exact ⟨.empty, hsound⟩
  | case3 cs fault hunit =>
      have hsound := fillerUnit_sound cs
      rw [hunit] at hsound
      exact ⟨.empty, hsound⟩

/-- Filler in front of a text is skipped, and then what more there is. -/
theorem IsFiller.skipFiller_eq {gap rest : List Char} (h : IsFiller gap rest) :
    skipFiller (gap ++ rest) =
      { skipFiller rest with taken := gap ++ (skipFiller rest).taken } := by
  induction h with
  | empty => rfl
  | unit hu _ ih =>
      rw [List.append_assoc, skipFiller_of_unit hu.fillerUnit_eq]
      simp only [ih, List.append_assoc]

end Sigil
