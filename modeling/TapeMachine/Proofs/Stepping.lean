import Mathlib.Logic.Function.Iterate
import TapeMachine.Machine.Run

namespace TapeMachine.Machine

theorem verdict_of_status {m : Machine} {outcome : Outcome} (h : m.status = .halted outcome) :
    m.verdict = outcome := by
  simp [verdict, Status.outcome?, h]

theorem attempt_fst (m : Machine) : m.attempt.1 = !m.step.isHalted := by
  unfold step attempt
  split
  · rename_i hhalted
    simp [hhalted]
  · cases m.rule? with
    | none => rfl
    | some r =>
        change decide (m.statusAfter r.next (m.steps + 1) = .running) =
          !(m.statusAfter r.next (m.steps + 1)).isHalted
        cases m.statusAfter r.next (m.steps + 1) with
        | running => rfl
        | halted outcome => rfl

@[simp] theorem toProgram_step (m : Machine) : m.step.toProgram = m.toProgram := by
  obtain ⟨outcome, -, hstep⟩ | ⟨-, r, -, hstep⟩ | ⟨-, -, hstep⟩ := step_cases m <;>
    rw [hstep] <;> rfl

@[simp] theorem toProgram_iterate_step (n : Nat) (m : Machine) :
    (step^[n] m).toProgram = m.toProgram := by
  induction n with
  | zero => rfl
  | succ n ih => rw [Function.iterate_succ_apply', toProgram_step, ih]

theorem iterate_step_of_isHalted {m : Machine} (h : m.isHalted = true) (n : Nat) :
    step^[n] m = m :=
  Function.iterate_fixed (step_of_isHalted h) n

theorem iterate_step_eq_of_le {m : Machine} {n k : Nat} (h : (step^[n] m).isHalted = true)
    (hle : n ≤ k) : step^[k] m = step^[n] m := by
  obtain ⟨extra, rfl⟩ := Nat.exists_eq_add_of_le hle
  rw [Nat.add_comm, Function.iterate_add_apply, iterate_step_of_isHalted h]

theorem status_ne_timeout_of_le {m : Machine} {n j : Nat}
    (h : (step^[n] m).status ≠ .halted .timeout) (hle : j ≤ n) :
    (step^[j] m).status ≠ .halted .timeout := by
  intro htimeout
  rw [iterate_step_eq_of_le (isHalted_of_status htimeout) hle] at h
  exact h htimeout

theorem advance_eq_iterate (n : Nat) (m : Machine) : advance n m = step^[n] m := by
  induction n generalizing m with
  | zero => rfl
  | succ n ih => rw [advance_succ, ih, Function.iterate_succ_apply]

theorem run_eq_iterate {m : Machine} {ceiling : Option Nat} {n : Nat}
    (h : (step^[n] (m.withCeiling ceiling)).isHalted = true) :
    m.run ceiling = step^[n] (m.withCeiling ceiling) := by
  have hrun := isHalted_run m ceiling
  unfold run at hrun ⊢
  simp only [advance_eq_iterate] at hrun ⊢
  rcases Nat.le_total n ((m.withCeiling ceiling).ceiling - (m.withCeiling ceiling).steps + 1) with
    hle | hle
  · exact iterate_step_eq_of_le h hle
  · exact (iterate_step_eq_of_le hrun hle).symm

theorem exists_run_eq_iterate (m : Machine) (ceiling : Option Nat) :
    ∃ n, m.run ceiling = step^[n] (m.withCeiling ceiling) :=
  ⟨_, advance_eq_iterate _ _⟩

/-- What every step keeps, and every change of the ceiling, is kept by every run. -/
theorem run_induct {holds : Machine → Prop}
    (hceiling : ∀ m ceiling, holds m → holds (m.setCeiling ceiling))
    (hstep : ∀ m, holds m → holds m.step) {m : Machine} (h : holds m) (ceiling : Option Nat) :
    holds (m.run ceiling) := by
  obtain ⟨n, hrun⟩ := exists_run_eq_iterate m ceiling
  have hstart : holds (m.withCeiling ceiling) := by
    unfold withCeiling
    split
    · exact hceiling m _ h
    · exact h
  rw [hrun]
  clear hrun
  induction n with
  | zero => exact hstart
  | succ n ih =>
      rw [Function.iterate_succ_apply']
      exact hstep _ ih

theorem withCeiling_some {n : Nat} (hn : 1 ≤ n) (m : Machine) :
    m.withCeiling (some n) = m.setCeiling n := by
  cases n with
  | zero => contradiction
  | succ n => rfl

theorem statusAfter_setCeiling {m : Machine} {ceiling : Nat} {state : String} {steps : Nat}
    (hle : m.ceiling ≤ ceiling) (h : m.statusAfter state steps ≠ .halted .timeout) :
    (m.setCeiling ceiling).statusAfter state steps = m.statusAfter state steps := by
  cases hstatus : m.statusAfter state steps with
  | running =>
      obtain ⟨hclassify, hlt⟩ := statusAfter_eq_running_iff.mp hstatus
      exact statusAfter_eq_running_iff.mpr ⟨hclassify, Nat.lt_of_lt_of_le hlt hle⟩
  | halted outcome =>
      rcases statusAfter_eq_halted_iff.mp hstatus with hsome | ⟨-, -, rfl⟩
      · exact statusAfter_eq_halted_iff.mpr (.inl hsome)
      · contradiction

theorem step_setCeiling {m : Machine} {ceiling : Nat} (hle : m.ceiling ≤ ceiling)
    (h : m.step.status ≠ .halted .timeout) :
    (m.setCeiling ceiling).step = m.step.setCeiling ceiling := by
  obtain ⟨outcome, hstatus, hstep⟩ | ⟨hstatus, r, hrule, hstep⟩ | ⟨hstatus, hrule, hstep⟩ :=
    step_cases m
  · rw [hstep]
    exact step_of_isHalted (isHalted_of_status (m := m.setCeiling ceiling) hstatus)
  · rw [hstep] at h ⊢
    have hafter : (m.setCeiling ceiling).statusAfter r.next (m.steps + 1) =
        m.statusAfter r.next (m.steps + 1) := statusAfter_setCeiling hle h
    rw [step_of_rule? (m := m.setCeiling ceiling) hstatus hrule]
    exact congrArg (fun status => { m.record.follow r with ceiling, status }) hafter
  · rw [hstep, step_of_rule?_eq_none (m := m.setCeiling ceiling) hstatus hrule]
    rfl

theorem iterate_step_setCeiling {m : Machine} {ceiling : Nat} (hle : m.ceiling ≤ ceiling)
    {n : Nat} (h : (step^[n] m).status ≠ .halted .timeout) :
    step^[n] (m.setCeiling ceiling) = (step^[n] m).setCeiling ceiling := by
  induction n with
  | zero => rfl
  | succ n ih =>
      have hbefore := status_ne_timeout_of_le h (Nat.le_succ n)
      rw [Function.iterate_succ_apply'] at h
      rw [Function.iterate_succ_apply', Function.iterate_succ_apply', ih hbefore]
      exact step_setCeiling (by rw [toProgram_iterate_step]; exact hle) h

/-- A run that does not exhaust its ceiling is the run under every higher ceiling. -/
theorem run_some_of_le {m : Machine} {low high : Nat} (hlow : 1 ≤ low) (hle : low ≤ high)
    (h : (m.run (some low)).verdict ≠ .timeout) :
    m.run (some high) = (m.run (some low)).setCeiling high := by
  obtain ⟨n, hrun⟩ := exists_run_eq_iterate m (some low)
  have hhalted := isHalted_run m (some low)
  have hstatus : (m.run (some low)).status ≠ .halted .timeout := by
    intro htimeout
    exact h (verdict_of_status htimeout)
  rw [hrun, withCeiling_some hlow] at hhalted hstatus
  have hhigh : step^[n] (m.withCeiling (some high)) =
      (step^[n] (m.setCeiling low)).setCeiling high := by
    rw [withCeiling_some (Nat.le_trans hlow hle)]
    exact iterate_step_setCeiling (m := m.setCeiling low) hle hstatus
  rw [hrun, withCeiling_some hlow, ← hhigh]
  apply run_eq_iterate
  rw [hhigh]
  exact hhalted

theorem steps_step_le (m : Machine) : m.step.steps ≤ m.steps + 1 := by
  obtain ⟨outcome, -, hstep⟩ | ⟨-, r, -, hstep⟩ | ⟨-, -, hstep⟩ := step_cases m
  · rw [hstep]
    exact Nat.le_succ m.steps
  · rw [hstep]
    exact Nat.le_refl (m.steps + 1)
  · rw [hstep]
    exact Nat.le_succ m.steps

theorem ceiling_le_of_status_step {m : Machine} (hbefore : m.status ≠ .halted .timeout)
    (hafter : m.step.status = .halted .timeout) : m.ceiling ≤ m.steps + 1 := by
  obtain ⟨outcome, -, hstep⟩ | ⟨-, r, -, hstep⟩ | ⟨-, -, hstep⟩ := step_cases m
  · rw [hstep] at hafter
    contradiction
  · rw [hstep] at hafter
    rcases statusAfter_eq_halted_iff.mp hafter with hsome | ⟨-, hceiling, -⟩
    · simp [Program.classify_eq_some_iff] at hsome
    · exact hceiling
  · rw [hstep] at hafter
    have hclassify : (m.classify m.state).getD .halted = .timeout := by injection hafter
    rcases Option.getD_eq_iff.mp hclassify with hsome | ⟨-, houtcome⟩
    · simp [Program.classify_eq_some_iff] at hsome
    · contradiction

theorem status_iterate_step_ne_timeout {m : Machine} {n : Nat}
    (hstart : m.status ≠ .halted .timeout) (hroom : m.steps + n < m.ceiling) :
    (step^[n] m).status ≠ .halted .timeout := by
  induction n generalizing m with
  | zero => exact hstart
  | succ n ih =>
      rw [Function.iterate_succ_apply]
      have hsteps := steps_step_le m
      apply ih
      · intro hafter
        have hceiling := ceiling_le_of_status_step hstart hafter
        omega
      · rw [toProgram_step]
        omega

/-- A machine that marks the blank cells to its left and stops at a mark. -/
def marker : Machine :=
  ((new "" "").configure "walk" ["stop"] [] '_').setTable
    ⟨[⟨"walk", '_', 'x', .left, "walk"⟩, ⟨"walk", 'x', 'x', .stay, "stop"⟩]⟩

end TapeMachine.Machine
