import Sigil.Proofs.Parser.Depth
import Sigil.Proofs.Parser.Languages

/-!
# A stack without a limit

Eight frames for each token that is left, and those for the way to the next token, are enough for
every routine, so there is such a thing as what a routine does on a stack without a limit: what it
does with that many frames. Routines without a limit call one another without a limit, and a routine
with any number of frames does the same as without a limit, unless it overflows.

What is true of the routines without a limit therefore describes the routines on every stack, and it
can be stated without a word on frames.

## Main definitions

* `Parser.unlimited`: a routine on a stack that is large enough.
* `Routine.Computes`: what a routine does on every stack, as far as it does not overflow.

## Main results

* `Parser.run_approximates_unlimited`: with any number of frames a routine does what it does without
  a limit, unless it overflows.
* `Parser.run_eq_or_overflows`: with enough frames for the tokens that are left it does.
* `Parser.run_ne_nestedTooDeeply`: no routine reports an overflow as a fault, only whole programs
  do.
* `Parser.unlimited_eq_body`: without a limit the routines call one another without a limit.
-/

namespace Sigil

open Parse

namespace Parser

/-- The frames that are enough for every routine: eight for each token that is left, and those for
the way to the next one. -/
@[irreducible] def State.frames (s : State) : Nat := 8 * s.pending + 8

/-- What a routine does on a stack without a limit. -/
def unlimited (routine : Routine) : Parse Node := fun s => run s.frames routine s

variable {n : Nat} {routine : Routine} {s : State}

theorem State.frames_eq (s : State) : s.frames = 8 * s.pending + 8 := by
  rw [State.frames]

theorem unlimited_eq_run (routine : Routine) (s : State) :
    unlimited routine s = run s.frames routine s :=
  rfl

/-- With enough frames for the tokens that are left a routine does not overflow. -/
theorem run_not_overflows (h : 8 * s.pending + routine.rank < n) : ¬(run n routine).Overflows s :=
  (run_endures n routine s (by omega)).not_overflows

theorem run_frames_not_overflows (routine : Routine) (s : State) :
    ¬(run s.frames routine).Overflows s := by
  refine run_not_overflows ?_
  rw [s.frames_eq]
  exact Nat.add_lt_add_left routine.rank_lt _

/-- With any number of frames a routine does what it does without a limit, unless it overflows. -/
theorem run_approximates_unlimited (n : Nat) : CallsApproximate (run n) unlimited := by
  intro routine s
  by_cases h : (run n routine).Overflows s
  · exact .inr h
  · rw [unlimited_eq_run]
    obtain hle | hle := Nat.le_total n s.frames
    · exact .inl (run_eq_of_not_overflows hle h).symm
    · exact .inl (run_eq_of_not_overflows hle (run_frames_not_overflows routine s))

/-- A routine does what it does without a limit, or it overflows with too few frames. -/
theorem run_eq_or_overflows (n : Nat) (routine : Routine) (s : State) :
    run n routine s = unlimited routine s ∨
      n ≤ 8 * s.pending + routine.rank ∧ (run n routine).Overflows s :=
  (run_approximates_unlimited n routine s).imp_right fun hoverflow =>
    ⟨Nat.not_lt.1 fun hlt => run_not_overflows hlt hoverflow, hoverflow⟩

/-- No routine reports an overflow as a fault at a token, whatever room there is. -/
theorem run_ne_nestedTooDeeply (n : Nat) (routine : Routine) {t : Token} {m : State} :
    run n routine s ≠ .error (.grammatical ⟨.nestedTooDeeply, t⟩) m := by
  intro h
  obtain heq | ⟨m', hoverflow⟩ := run_approximates_unlimited n routine s
  · have hendures := run_endures s.frames routine s (by
      have hrank := routine.rank_lt
      rw [s.frames_eq]
      omega)
    rw [unlimited_eq_run] at heq
    exact hendures.1 _ m (heq.symm.trans h) rfl
  · rw [hoverflow] at h
    cases h

/-- A success with some frames is one without a limit. -/
theorem unlimited_of_run {t : Node} {m : State} (h : run n routine s = .ok t m) :
    unlimited routine s = .ok t m := by
  obtain heq | ⟨m', hoverflow⟩ := run_approximates_unlimited n routine s
  · exact heq.symm.trans h
  · rw [hoverflow] at h
    cases h

/-- A success without a limit is one with enough frames, however many are asked for. -/
theorem exists_run_of_unlimited {t : Node} {m : State} (h : unlimited routine s = .ok t m)
    (k : Nat) : ∃ n, k ≤ n ∧ run n routine s = .ok t m := by
  rw [unlimited_eq_run] at h
  refine ⟨s.frames + k, Nat.le_add_left k _, ?_⟩
  rw [run_eq_of_not_overflows (Nat.le_add_right _ k) (run_frames_not_overflows routine s)]
  exact h

/-- Without a limit the routines call one another without a limit. -/
theorem unlimited_eq_body (routine : Routine) : unlimited routine = routine.body unlimited := by
  funext s
  have hpos : 0 < s.frames := by
    rw [s.frames_eq]
    exact Nat.succ_pos _
  have hoverflow := run_frames_not_overflows routine s
  rw [unlimited_eq_run, run_eq_body hpos]
  refine (body_approximates (run_approximates_unlimited _) routine s).resolve_right ?_
  rwa [← run_eq_body hpos]

/-- Without a limit the routines follow their languages. Where a rule ends, it has used no more than
the frames for the tokens up to there, so it ends so with more tokens behind them as well. -/
theorem unlimited_follows : CallsFollow unlimited := by
  intro routine s
  have hlocal {w : List Token} {s' : State} {r : State → EStateM.Result ParseFailure State Node}
      (h : (run s.frames routine).Locally s w s' r)
      (hr : ∀ t t', r t ≠ .error .overflow t') : (unlimited routine).Locally s w s' r := by
    intro t t' ht hprevious hcurrent
    have hrun := h t t' ht hprevious hcurrent
    obtain heq | ⟨u, hoverflow⟩ := run_approximates_unlimited s.frames routine t
    · exact heq.symm.trans hrun
    · exact absurd (hrun.symm.trans hoverflow) (hr t' u)
  cases run_follows s.frames routine s with
  | succeeds hreads hw h => exact .succeeds hreads hw (hlocal h fun _ _ => nofun)
  | fails hreads hw htrue h => exact .fails hreads hw htrue (hlocal h fun _ _ => nofun)
  | overflows hreads _ h => exact absurd ⟨_, h.eq hreads⟩ (run_frames_not_overflows routine s)
  | breaks hreads hkind hadvance hw heq =>
      exact .breaks hreads hkind hadvance hw ((unlimited_eq_run routine s).trans heq)

end Parser

open Sigil.Parser

/-- The routine does what the rule `p` does. With any room on the stack it ends as the rule does or
overflows, and it does not overflow with enough frames for the tokens that are left. -/
def Routine.Computes (routine : Routine) (p : Parse Node) : Prop :=
  ∀ room s, run room routine s = p s ∨
    room ≤ 8 * s.pending + routine.rank ∧ (run room routine).Overflows s

/-- A routine does what it does without a limit, and nothing else. -/
theorem Routine.computes_iff {routine : Routine} {p : Parse Node} :
    routine.Computes p ↔ unlimited routine = p := by
  constructor
  · refine fun h => funext fun s => ?_
    rw [unlimited_eq_run]
    exact (h s.frames s).resolve_right fun hless => run_frames_not_overflows routine s hless.2
  · rintro rfl room s
    exact run_eq_or_overflows room routine s

end Sigil
