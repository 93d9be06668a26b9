import TapeMachine.Proofs.Consistency

namespace TapeMachine

theorem Snapshot.restore_eq {s : Snapshot} {blank : Char} (h : s.tape.blank = blank) :
    s.restore blank = s.tape := by
  subst h
  exact s.tape.restore_cells_head

namespace Machine

/-- Rewinds `n` times, if there are as many attempts to undo. -/
def rewinds : Nat → Machine → Option Machine
  | 0, m => some m
  | n + 1, m => m.rewind?.bind (rewinds n)

variable {m : Machine}

/-- The machine with the tape that its next attempt works on. -/
def settle (m : Machine) : Machine :=
  { m with tape := some m.currentTape }

theorem step_settle (hrunning : m.status = .running) : m.settle.step = m.step := by
  cases hrule : m.rule? with
  | some r =>
      rw [step_of_rule? hrunning hrule]
      exact step_of_rule? (m := m.settle) hrunning hrule
  | none =>
      rw [step_of_rule?_eq_none hrunning hrule]
      exact step_of_rule?_eq_none (m := m.settle) hrunning hrule

theorem settle_of_isSome_tape (h : m.tape.isSome) : m.settle = m := by
  obtain ⟨t, htape⟩ := Option.isSome_iff_exists.mp h
  unfold settle
  rw [currentTape_of_tape htape, ← htape]

theorem past_step (hrunning : m.status = .running) : m.step.past = m.snapshot :: m.past := by
  obtain ⟨outcome, hhalted, -⟩ | ⟨-, r, -, hstep⟩ | ⟨-, -, hstep⟩ := step_cases m
  · rw [hrunning] at hhalted
    contradiction
  · rw [hstep]
    rfl
  · rw [hstep]
    rfl

theorem isSome_tape_step (htape : m.tape.isSome) : m.step.tape.isSome := by
  obtain ⟨outcome, -, hstep⟩ | ⟨-, r, -, hstep⟩ | ⟨-, -, hstep⟩ := step_cases m
  · rw [hstep]
    exact htape
  · rw [hstep]
    rfl
  · rw [hstep]
    rfl

theorem isSome_tape_iterate_step (htape : m.tape.isSome) (n : Nat) :
    (step^[n] m).tape.isSome := by
  induction n with
  | zero => exact htape
  | succ n ih =>
      rw [Function.iterate_succ_apply']
      exact isSome_tape_step ih

theorem rewind?_step (hrunning : m.status = .running) (hblank : m.currentTape.blank = m.blank) :
    m.step.rewind? = some m.settle := by
  have hrestore : m.snapshot.restore m.step.blank = m.currentTape := by
    rw [toProgram_step]
    exact Snapshot.restore_eq hblank
  unfold rewind?
  rw [past_step hrunning]
  change some (⟨m.step.toProgram, some (m.snapshot.restore m.step.blank), m.state, m.steps,
    .running, m.past⟩ : Machine) = _
  rw [hrestore, toProgram_step, ← hrunning]
  rfl

theorem rewinds_iterate_step (h : m.Invariant) (htape : m.tape.isSome) (n : Nat) :
    m.past.length ≤ (step^[n] m).past.length ∧
      rewinds ((step^[n] m).past.length - m.past.length) (step^[n] m) = some m := by
  induction n with
  | zero => exact ⟨Nat.le_refl _, by rw [Function.iterate_zero_apply, Nat.sub_self]; rfl⟩
  | succ n ih =>
      obtain ⟨hle, hback⟩ := ih
      have hblank := (h.iterate_step n).blank
      have hloaded := isSome_tape_iterate_step htape n
      rw [Function.iterate_succ_apply']
      generalize step^[n] m = before at *
      cases hstatus : before.status with
      | halted outcome =>
          rw [step_of_isHalted (isHalted_of_status hstatus)]
          exact ⟨hle, hback⟩
      | running =>
          rw [past_step hstatus, List.length_cons, Nat.succ_sub hle]
          refine ⟨Nat.le_succ_of_le hle, ?_⟩
          rw [rewinds, rewind?_step hstatus hblank, settle_of_isSome_tape hloaded]
          exact hback

theorem Invariant.settle (h : m.Invariant) : m.settle.Invariant where
  past := h.past
  numbered := h.numbered
  blank := h.blank
  untouched htape := by contradiction
  running := h.running
  halted := h.halted

/-- A running machine records at least one attempt, and as many rewindings as it has recorded
attempts lead back to it, with the tape on which the first of them worked. -/
theorem rewinds_iterate_step_of_running (h : m.Invariant) (hrunning : m.status = .running) {n : Nat}
    (hn : 1 ≤ n) :
    m.past.length < (step^[n] m).past.length ∧
      rewinds ((step^[n] m).past.length - m.past.length) (step^[n] m) = some m.settle := by
  obtain ⟨k, rfl⟩ := Nat.exists_eq_add_of_le' hn
  have hstart : step^[k + 1] m = step^[k + 1] m.settle := by
    rw [Function.iterate_succ_apply, Function.iterate_succ_apply, step_settle hrunning]
  constructor
  · have hloaded : m.settle.step.tape.isSome := isSome_tape_step rfl
    have hafter := (rewinds_iterate_step h.settle.step hloaded k).1
    rw [step_settle hrunning, past_step hrunning] at hafter
    exact hafter
  · rw [hstart]
    exact (rewinds_iterate_step h.settle rfl (k + 1)).2

/-- Rewinding a machine as often as it has recorded attempts undoes any number of steps. A machine
without a tape has got a blank one. -/
theorem rewinds_undo_steps (hreachable : m.Reachable) {n : Nat} (hn : 1 ≤ n) :
    (m.status = .running → m.tape.isSome →
      m.history.length < (step^[n] m).history.length ∧
        rewinds ((step^[n] m).history.length - m.history.length) (step^[n] m) = some m) ∧
    (m.tape = none →
      m.history.length < (step^[n] m).history.length ∧
        rewinds ((step^[n] m).history.length - m.history.length) (step^[n] m) =
          some { m with tape := some (Tape.new m.blank) }) := by
  have h := hreachable.invariant
  simp only [length_history]
  constructor
  · intro hrunning htape
    obtain ⟨hlt, hback⟩ := rewinds_iterate_step_of_running h hrunning hn
    rw [settle_of_isSome_tape htape] at hback
    exact ⟨hlt, hback⟩
  · intro htape
    obtain ⟨hlt, hback⟩ := rewinds_iterate_step_of_running h (h.untouched htape).1 hn
    refine ⟨hlt, hback.trans ?_⟩
    unfold Machine.settle currentTape
    rw [htape]
    rfl

/-- Eleven steps to the left make the row grow before the ceiling stops the machine. -/
theorem marker_rewinds_undo_steps :
    ((marker.setCeiling 11).loadTape "").Reachable ∧ 1 ≤ 12 ∧
      rewinds 11 (step^[12] ((marker.setCeiling 11).loadTape "")) =
        some ((marker.setCeiling 11).loadTape "") :=
  have hreachable : ((marker.setCeiling 11).loadTape "").Reachable :=
    ⟨"", "", [.configure "walk" ["stop"] [] '_', .setTable marker.table, .setCeiling 11,
      .loadTape ""], rfl⟩
  ⟨hreachable, by decide, ((rewinds_undo_steps hreachable (n := 12) (by decide)).1 rfl rfl).2⟩

end Machine

end TapeMachine
