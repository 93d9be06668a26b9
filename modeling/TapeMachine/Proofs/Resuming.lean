import Mathlib.Data.Nat.Find
import TapeMachine.Proofs.Rewinding

namespace TapeMachine.Machine

variable {m : Machine} {n : Nat}

theorem status_of_not_isHalted (h : ¬ m.isHalted = true) : m.status = .running := by
  cases hstatus : m.status with
  | running => rfl
  | halted outcome => exact absurd (isHalted_of_status hstatus) h

theorem status_ne_timeout_of_running (h : m.status = .running) :
    m.status ≠ .halted .timeout := by
  intro htimeout
  rw [h] at htimeout
  contradiction

theorem exists_first_isHalted (h : (step^[n] m).isHalted = true) :
    ∃ k, step^[n] m = step^[k] m ∧ ∀ j < k, (step^[j] m).status = .running := by
  have hexists : ∃ k, (step^[k] m).isHalted = true := ⟨n, h⟩
  have hle : Nat.find hexists ≤ n := Nat.find_min' hexists h
  refine ⟨Nat.find hexists, iterate_step_eq_of_le (Nat.find_spec hexists) hle, ?_⟩
  intro j hj
  exact status_of_not_isHalted (Nat.find_min hexists hj)

theorem length_past_iterate_step (h : ∀ j < n, (step^[j] m).status = .running) :
    (step^[n] m).past.length = m.past.length + n := by
  induction n with
  | zero => rfl
  | succ n ih =>
      have hbefore := ih fun j hj => h j (Nat.lt_succ_of_lt hj)
      rw [Function.iterate_succ_apply', past_step (h n (Nat.lt_succ_self n)), List.length_cons,
        hbefore]
      rfl

/-- As many rewindings as there were attempts undo the latest attempts of a machine that has been
running before each of them. -/
theorem rewinds_iterate_step_add (h : m.Invariant) (htape : m.tape.isSome) (before count : Nat)
    (hrunning : ∀ j < before + count, (step^[j] m).status = .running) :
    rewinds count (step^[before + count] m) = some (step^[before] m) := by
  have hback := (rewinds_iterate_step (h.iterate_step before)
    (isSome_tape_iterate_step htape before) count).2
  have hlength : (step^[before] m).past.length = m.past.length + before :=
    length_past_iterate_step fun j hj => hrunning j (by omega)
  rw [← Function.iterate_add_apply, Nat.add_comm count before,
    length_past_iterate_step hrunning, hlength] at hback
  rw [show m.past.length + (before + count) - (m.past.length + before) = count by omega] at hback
  exact hback

theorem run_eq_run_of_iterate {before : Machine} {ceiling : Option Nat}
    (h : m.withCeiling ceiling = step^[n] (before.withCeiling ceiling)) :
    m.run ceiling = before.run ceiling := by
  obtain ⟨k, hrun⟩ := exists_run_eq_iterate m ceiling
  have hhalted := isHalted_run m ceiling
  rw [hrun, h, ← Function.iterate_add_apply] at hhalted
  rw [hrun, h, ← Function.iterate_add_apply]
  exact (run_eq_iterate hhalted).symm

theorem run_of_running_setCeiling {low high : Nat} (hle : low ≤ high) (hlow : 1 ≤ low)
    (hrunning : (step^[n] (m.setCeiling low)).status = .running) :
    (step^[n] (m.setCeiling low)).run (some high) = m.run (some high) := by
  have hhigh : 1 ≤ high := Nat.le_trans hlow hle
  apply run_eq_run_of_iterate (n := n)
  rw [withCeiling_some hhigh, withCeiling_some hhigh]
  exact (iterate_step_setCeiling (m := m.setCeiling low) hle
    (status_ne_timeout_of_running hrunning)).symm

/-- Whatever has stopped a run under the lower ceiling, any number of rewindings takes the machine
back to where a run under the higher ceiling passes through. -/
theorem run_after_rewinds (m : Machine) (input : String) {low high count : Nat} (hlow : 1 ≤ low)
    (hle : low ≤ high) (hcount : 1 ≤ count)
    (hhistory : count ≤ ((m.loadTape input).run (some low)).history.length) :
    ∃ back, rewinds count ((m.loadTape input).run (some low)) = some back ∧
      (back.run (some high)).verdict = ((m.loadTape input).run (some high)).verdict ∧
      back.run (some high) = (m.loadTape input).run (some high) := by
  have hstart : ((m.loadTape input).setCeiling low).Invariant :=
    (invariant_loadTape m input).reprogram m.table low
  obtain ⟨n, hrun⟩ := exists_run_eq_iterate (m.loadTape input) (some low)
  have hhalted := isHalted_run (m.loadTape input) (some low)
  rw [withCeiling_some hlow] at hrun
  rw [hrun] at hhalted
  obtain ⟨k, hfirst, hrunning⟩ := exists_first_isHalted hhalted
  have hlength : (step^[k] ((m.loadTape input).setCeiling low)).past.length = 0 + k :=
    length_past_iterate_step hrunning
  rw [hrun, hfirst, length_history, hlength] at hhistory
  obtain ⟨before, rfl⟩ : ∃ before, k = before + count := ⟨k - count, by omega⟩
  refine ⟨step^[before] ((m.loadTape input).setCeiling low), ?_, ?_⟩
  · rw [hrun, hfirst]
    exact rewinds_iterate_step_add hstart rfl before count hrunning
  · have hback := run_of_running_setCeiling hle hlow (hrunning before (by omega))
    exact ⟨congrArg verdict hback, hback⟩

/-- The ceiling stops the machine after the row has grown, and three rewindings make it shrink
again. -/
theorem marker_run_after_rewinds :
    1 ≤ 11 ∧ 11 ≤ 13 ∧ 1 ≤ 3 ∧ 3 ≤ ((marker.loadTape "").run (some 11)).history.length ∧
      ∃ back, rewinds 3 ((marker.loadTape "").run (some 11)) = some back ∧
        back.run (some 13) = (marker.loadTape "").run (some 13) :=
  have hhistory : 3 ≤ ((marker.loadTape "").run (some 11)).history.length := by decide
  have hle : 11 ≤ 13 := by decide
  have ⟨back, hback, _, hrun⟩ := run_after_rewinds marker "" (by decide) hle (by decide) hhistory
  ⟨by decide, hle, by decide, hhistory, back, hback, hrun⟩

end TapeMachine.Machine
