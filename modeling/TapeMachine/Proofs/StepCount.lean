import TapeMachine.Machine.Operation
import TapeMachine.Proofs.Stepping
import TapeMachine.Text.Decimal

namespace TapeMachine

/-- The ceilings that an operation sets fit in a machine word. -/
def Operation.InRange : Operation → Prop
  | .setCeiling ceiling => ceiling < Text.wordBound
  | .run ceiling => ∀ n, ceiling = some n → n < Text.wordBound
  | _ => True

namespace Machine

/-- The loop that attempts steps until it is told to stop: the rules that it carries out are
counted, and so are its attempts without a rule. -/
inductive Loops : Machine → Nat → Nat → Machine → Prop
  | halted {m : Machine} (halted : m.isHalted = true) : Loops m 0 0 m
  | ruleless {m : Machine} (running : m.status = .running) (missing : m.rule? = none) :
      Loops m 0 1 m.step
  | last {m : Machine} {r : Rule} (running : m.status = .running) (rule : m.rule? = some r)
      (stop : m.attempt.1 = false) : Loops m 1 0 m.step
  | next {m final : Machine} {r : Rule} {carried missed : Nat} (running : m.status = .running)
      (rule : m.rule? = some r) (proceed : m.attempt.1 = true)
      (rest : Loops m.step carried missed final) : Loops m (carried + 1) missed final

theorem loops_advance {m : Machine} {n : Nat} (h : m.ceiling - m.steps < n) :
    ∃ carried missed, Loops m carried missed (advance n m) ∧
      carried ≤ max 1 (m.ceiling - m.steps) ∧ missed ≤ 1 := by
  induction n generalizing m with
  | zero => omega
  | succ n ih =>
      rw [advance_succ]
      obtain ⟨outcome, hstatus, hstep⟩ | ⟨hrunning, r, hrule, -⟩ | ⟨hrunning, hrule, hstep⟩ :=
        step_cases m
      · have hhalted := isHalted_of_status hstatus
        rw [hstep, advance_of_isHalted hhalted]
        exact ⟨0, 0, .halted hhalted, by omega, by omega⟩
      · cases hafter : m.step.isHalted with
        | true =>
            rw [advance_of_isHalted hafter]
            exact ⟨1, 0, .last hrunning hrule (by rw [attempt_fst, hafter]; rfl), by omega,
              by omega⟩
        | false =>
            obtain ⟨hsteps, hceiling, hlt⟩ := steps_step_of_running hafter
            obtain ⟨carried, missed, hloops, hcarried, hmissed⟩ := ih (m := m.step) (by omega)
            refine ⟨carried + 1, missed, .next hrunning hrule ?_ hloops, by omega, hmissed⟩
            rw [attempt_fst, hafter]
            rfl
      · have hafter : m.step.isHalted = true := by
          rw [hstep]
          rfl
        rw [advance_of_isHalted hafter]
        exact ⟨0, 1, .ruleless hrunning hrule, by omega, by omega⟩

theorem ceiling_withCeiling (m : Machine) (ceiling : Option Nat) :
    (m.withCeiling ceiling).ceiling = (ceiling.filter (0 < ·)).getD m.ceiling := by
  rcases ceiling with _ | _ | n <;> rfl

theorem steps_withCeiling (m : Machine) (ceiling : Option Nat) :
    (m.withCeiling ceiling).steps = m.steps := by
  rcases ceiling with _ | _ | n <;> rfl

theorem loops_run (m : Machine) (ceiling : Option Nat) :
    ∃ carried missed, Loops (m.withCeiling ceiling) carried missed (m.run ceiling) ∧
      carried ≤ max 1 ((ceiling.filter (0 < ·)).getD m.ceiling - m.steps) ∧ missed ≤ 1 := by
  rw [← ceiling_withCeiling, ← steps_withCeiling m ceiling]
  exact loops_advance (Nat.lt_succ_self _)

theorem status_run (m : Machine) (ceiling : Option Nat) :
    (m.run ceiling).status = .halted (m.run ceiling).verdict := by
  have hhalted := isHalted_run m ceiling
  cases hstatus : (m.run ceiling).status with
  | running => simp [isHalted, Status.isHalted, hstatus] at hhalted
  | halted outcome => rw [verdict_of_status hstatus]

/-- Whether the next attempt carries out a rule. -/
def carriesOut (m : Machine) : Bool :=
  !m.isHalted && m.rule?.isSome

def noteCeiling (m : Machine) (before : List Nat) : List Nat :=
  if m.carriesOut then m.ceiling :: before else before

/-- The ceilings under which rules have been carried out since the last restart, given those before
an operation. All rules of a run are carried out under one ceiling. -/
def ceilingsAfter (m : Machine) (before : List Nat) : Operation → List Nat
  | .configure .. | .loadTape _ | .reset _ => []
  | .step => m.noteCeiling before
  | .run ceiling => (m.withCeiling ceiling).noteCeiling before
  | .addRule .. | .setTable _ | .setCeiling _ | .rewind => before

/-- The ceilings under which rules have been carried out since the last restart of a machine that
is used in a given way. -/
def ceilingsInForce (m : Machine) (before : List Nat) : List Operation → List Nat
  | [] => before
  | operation :: rest =>
      ceilingsInForce (m.perform operation) (m.ceilingsAfter before operation) rest

/-- A count that has been reached while the machine may still go on. -/
def Below (ceilings : List Nat) (n : Nat) : Prop :=
  n = 0 ∨ ∃ ceiling ∈ ceilings, n < ceiling

/-- The counter of a machine, and the ones in its snapshots, against the ceilings under which rules
have been carried out. -/
structure Bounded (ceilings : List Nat) (m : Machine) : Prop where
  past : ∀ s ∈ m.past, Below ceilings s.step
  running : m.status = .running → Below ceilings m.steps
  steps : ∃ n, Below ceilings n ∧ m.steps ≤ n + 1

variable {ceilings : List Nat} {m : Machine}

theorem Below.cons {n : Nat} (h : Below ceilings n) (ceiling : Nat) :
    Below (ceiling :: ceilings) n := by
  rcases h with hzero | ⟨old, hmem, hlt⟩
  · exact .inl hzero
  · exact .inr ⟨old, List.mem_cons_of_mem ceiling hmem, hlt⟩

theorem Below.succ_lt {n bound : Nat} (h : Below ceilings n) (hbound : 1 < bound)
    (hceilings : ∀ ceiling ∈ ceilings, ceiling < bound) : n + 1 < bound := by
  rcases h with rfl | ⟨ceiling, hmem, hlt⟩
  · exact hbound
  · have := hceilings ceiling hmem
    omega

theorem Bounded.cons (h : m.Bounded ceilings) (ceiling : Nat) :
    m.Bounded (ceiling :: ceilings) where
  past s hs := (h.past s hs).cons ceiling
  running hrunning := (h.running hrunning).cons ceiling
  steps := by
    obtain ⟨n, hbelow, hle⟩ := h.steps
    exact ⟨n, hbelow.cons ceiling, hle⟩

theorem Bounded.le_max (h : m.Bounded ceilings) : m.steps ≤ max 1 (ceilings.max?.getD 0) := by
  obtain ⟨n, rfl | ⟨ceiling, hmem, hlt⟩, hle⟩ := h.steps
  · omega
  · have hmax : ceiling ≤ ceilings.max?.getD 0 := List.le_max?_getD_of_mem hmem
    omega

theorem bounded_restart (ceilings : List Nat) (m : Machine) : m.restart.Bounded ceilings where
  past := by
    intro s hs
    contradiction
  running _ := .inl rfl
  steps := ⟨0, .inl rfl, Nat.zero_le 1⟩

theorem Bounded.past_record (h : m.Bounded ceilings) (hrunning : m.status = .running) :
    ∀ s ∈ m.record.past, Below ceilings s.step := by
  intro s hs
  rcases List.mem_cons.mp hs with rfl | hs
  · exact h.running hrunning
  · exact h.past s hs

theorem Bounded.step (h : m.Bounded ceilings)
    (hceiling : m.carriesOut = true → m.ceiling ∈ ceilings) : m.step.Bounded ceilings := by
  obtain ⟨outcome, -, hstep⟩ | ⟨hrunning, r, hrule, hstep⟩ | ⟨hrunning, -, hstep⟩ := step_cases m
  · rw [hstep]
    exact h
  · have hcarries : m.carriesOut = true := by
      simp [carriesOut, isHalted, Status.isHalted, hrunning, hrule]
    rw [hstep]
    exact {
      past := h.past_record hrunning
      running := by
        intro hafter
        obtain ⟨-, hlt⟩ := statusAfter_eq_running_iff.mp hafter
        exact .inr ⟨m.ceiling, hceiling hcarries, hlt⟩
      steps := ⟨m.steps, h.running hrunning, Nat.le_refl _⟩ }
  · rw [hstep]
    exact {
      past := h.past_record hrunning
      running := by
        intro hafter
        contradiction
      steps := h.steps }

theorem carriesOut_of_step (h : m.step.carriesOut = true) : m.carriesOut = true := by
  obtain ⟨outcome, -, hstep⟩ | ⟨hrunning, r, hrule, -⟩ | ⟨-, -, hstep⟩ := step_cases m
  · rwa [hstep] at h
  · simp [carriesOut, isHalted, Status.isHalted, hrunning, hrule]
  · rw [hstep] at h
    contradiction

theorem Bounded.iterate_step_of_mem (h : m.Bounded ceilings)
    (hceiling : m.carriesOut = true → m.ceiling ∈ ceilings) (n : Nat) :
    (Machine.step^[n] m).Bounded ceilings := by
  induction n generalizing m with
  | zero => exact h
  | succ n ih =>
      rw [Function.iterate_succ_apply]
      apply ih (h.step hceiling)
      intro hcarries
      rw [toProgram_step]
      exact hceiling (carriesOut_of_step hcarries)

theorem Bounded.iterate_step (h : m.Bounded ceilings) (n : Nat) :
    (Machine.step^[n] m).Bounded (m.noteCeiling ceilings) := by
  unfold noteCeiling
  by_cases hcarries : m.carriesOut = true
  · rw [if_pos hcarries]
    exact (h.cons m.ceiling).iterate_step_of_mem (fun _ => List.mem_cons_self) n
  · rw [if_neg hcarries]
    exact h.iterate_step_of_mem (fun hcarries' => absurd hcarries' hcarries) n

theorem Bounded.withCeiling (h : m.Bounded ceilings) (ceiling : Option Nat) :
    (m.withCeiling ceiling).Bounded ceilings := by
  rcases ceiling with _ | _ | n <;> exact ⟨h.past, h.running, h.steps⟩

theorem Bounded.rewind? {before : Machine} (h : m.Bounded ceilings)
    (hrewind : m.rewind? = some before) : before.Bounded ceilings := by
  obtain ⟨last, rest, hpast, rfl⟩ := exists_of_rewind? hrewind
  have hbelow := h.past
  rw [hpast, List.forall_mem_cons] at hbelow
  exact ⟨hbelow.2, fun _ => hbelow.1, last.step, hbelow.1, Nat.le_succ _⟩

theorem Bounded.perform (h : m.Bounded ceilings) (operation : Operation) :
    (m.perform operation).Bounded (m.ceilingsAfter ceilings operation) := by
  cases operation with
  | configure initial accept reject blank => exact bounded_restart _ _
  | loadTape input => exact bounded_restart _ _
  | addRule state read write move next =>
      rcases m.perform_addRule state read write move next with hsame | ⟨table, hset⟩
      · rw [hsame]
        exact h
      · rw [hset]
        exact ⟨h.past, h.running, h.steps⟩
  | setTable table => exact ⟨h.past, h.running, h.steps⟩
  | setCeiling ceiling => exact ⟨h.past, h.running, h.steps⟩
  | step => exact h.iterate_step 1
  | run ceiling =>
      obtain ⟨n, hrun⟩ := exists_run_eq_iterate m ceiling
      change (m.run ceiling).Bounded ((m.withCeiling ceiling).noteCeiling ceilings)
      rw [hrun]
      exact (h.withCeiling ceiling).iterate_step n
  | rewind =>
      rcases m.perform_rewind with hsame | hrewind
      · rw [hsame]
        exact h
      · exact h.rewind? hrewind
  | reset keepTape => exact bounded_restart _ _

theorem bounded_performAll (h : m.Bounded ceilings) (operations : List Operation) :
    (m.performAll operations).Bounded (m.ceilingsInForce ceilings operations) := by
  induction operations generalizing m ceilings with
  | nil => exact h
  | cons operation rest ih => exact ih (h.perform operation)

/-- The ceiling of a machine and those under which it has carried out rules fit in a machine
word. -/
structure FitsWord (ceilings : List Nat) (m : Machine) : Prop where
  own : m.ceiling < Text.wordBound
  earlier : ∀ ceiling ∈ ceilings, ceiling < Text.wordBound

theorem FitsWord.noteCeiling (h : m.FitsWord ceilings) : m.FitsWord (m.noteCeiling ceilings) where
  own := h.own
  earlier := by
    unfold Machine.noteCeiling
    split
    · exact List.forall_mem_cons.mpr ⟨h.own, h.earlier⟩
    · exact h.earlier

theorem FitsWord.withCeiling (h : m.FitsWord ceilings) {ceiling : Option Nat}
    (hceiling : ∀ n, ceiling = some n → n < Text.wordBound) :
    (m.withCeiling ceiling).FitsWord ceilings := by
  rcases ceiling with _ | _ | n
  · exact h
  · exact h
  · exact ⟨hceiling (n + 1) rfl, h.earlier⟩

theorem fitsWord_restart (hown : m.ceiling < Text.wordBound) : m.restart.FitsWord [] where
  own := hown
  earlier := by
    intro ceiling hmem
    contradiction

theorem ceiling_rewind? {before : Machine} (h : m.rewind? = some before) :
    before.ceiling = m.ceiling := by
  obtain ⟨last, rest, -, rfl⟩ := exists_of_rewind? h
  rfl

theorem FitsWord.perform (h : m.FitsWord ceilings) {operation : Operation}
    (hoperation : operation.InRange) :
    (m.perform operation).FitsWord (m.ceilingsAfter ceilings operation) := by
  cases operation with
  | configure initial accept reject blank => exact fitsWord_restart h.own
  | loadTape input => exact fitsWord_restart h.own
  | addRule state read write move next =>
      rcases m.perform_addRule state read write move next with hsame | ⟨table, hset⟩
      · rw [hsame]
        exact h
      · rw [hset]
        exact ⟨h.own, h.earlier⟩
  | setTable table => exact ⟨h.own, h.earlier⟩
  | setCeiling ceiling => exact ⟨hoperation, h.earlier⟩
  | step =>
      refine ⟨?_, h.noteCeiling.earlier⟩
      change m.step.ceiling < Text.wordBound
      rw [toProgram_step]
      exact h.own
  | run ceiling =>
      obtain ⟨n, hrun⟩ := exists_run_eq_iterate m ceiling
      have hstart := h.withCeiling hoperation
      refine ⟨?_, hstart.noteCeiling.earlier⟩
      change (m.run ceiling).ceiling < Text.wordBound
      rw [hrun, toProgram_iterate_step]
      exact hstart.own
  | rewind =>
      rcases m.perform_rewind with hsame | hrewind
      · rw [hsame]
        exact h
      · refine ⟨?_, h.earlier⟩
        rw [ceiling_rewind? hrewind]
        exact h.own
  | reset keepTape => exact fitsWord_restart h.own

theorem fitsWord_performAll (h : m.FitsWord ceilings) {operations : List Operation}
    (hoperations : ∀ operation ∈ operations, operation.InRange) :
    (m.performAll operations).FitsWord (m.ceilingsInForce ceilings operations) := by
  induction operations generalizing m ceilings with
  | nil => exact h
  | cons operation rest ih =>
      rw [List.forall_mem_cons] at hoperations
      exact ih (h.perform hoperations.1) hoperations.2

theorem Bounded.succ_lt_wordBound (h : m.Bounded ceilings) (hfits : m.FitsWord ceilings)
    (hrunning : m.status = .running) : m.steps + 1 < Text.wordBound :=
  (h.running hrunning).succ_lt (by decide) hfits.earlier

/-- A run comes to an end: it carries out no more rules than its ceiling has room for, or a single
one, attempts at most once to do so without a rule, and returns the outcome that it leaves. Before
each attempt the counter can still be raised within a machine word, and it stays within one step or
the largest ceiling under which a rule has been carried out since the last restart. -/
theorem run_ends (name description : String) {operations : List Operation}
    (hoperations : ∀ operation ∈ operations, operation.InRange) {ceiling : Option Nat}
    (hceiling : ∀ n, ceiling = some n → n < Text.wordBound) {m : Machine}
    (hm : m = (new name description).performAll operations) :
    (∃ carried missed, Loops (m.withCeiling ceiling) carried missed (m.run ceiling) ∧
      carried ≤ max 1 ((ceiling.filter (0 < ·)).getD m.ceiling - m.steps) ∧ missed ≤ 1) ∧
    (m.run ceiling).status = .halted (m.run ceiling).verdict ∧
    (∀ n, (step^[n] (m.withCeiling ceiling)).status = .running →
      (step^[n] (m.withCeiling ceiling)).steps < Text.wordBound - 1) ∧
    m.steps ≤ max 1 (((new name description).ceilingsInForce [] operations).max?.getD 0) := by
  have hbounded : m.Bounded ((new name description).ceilingsInForce [] operations) := by
    rw [hm]
    exact bounded_performAll (bounded_restart [] (new name description)) operations
  have hdefault : defaultCeiling < Text.wordBound := by decide
  have hfits : m.FitsWord ((new name description).ceilingsInForce [] operations) := by
    rw [hm]
    exact fitsWord_performAll (fitsWord_restart (m := new name description) hdefault) hoperations
  refine ⟨loops_run m ceiling, status_run m ceiling, ?_, hbounded.le_max⟩
  intro n hrunning
  have hpassing := (hbounded.withCeiling ceiling).iterate_step n
  have hword := (hfits.withCeiling hceiling).noteCeiling
  have hsucc := hpassing.succ_lt_wordBound ⟨?_, hword.earlier⟩ hrunning
  · omega
  · rw [toProgram_iterate_step]
    exact hword.own

/-- The ceiling is lowered below the counter of a machine in the middle of a run. -/
def lowered : List Operation :=
  [.configure "walk" ["stop"] [] '_', .setTable marker.table, .loadTape "",
    .setCeiling (Text.wordBound - 1), .step, .step, .step, .setCeiling 0, .rewind]

theorem lowered_run_ends :
    (∀ operation ∈ lowered, operation.InRange) ∧
    (∃ carried missed, Loops (((new "" "").performAll lowered).withCeiling (some 0)) carried missed
        (((new "" "").performAll lowered).run (some 0)) ∧ carried ≤ max 1 (0 - 2) ∧ missed ≤ 1) ∧
    (((new "" "").performAll lowered).run (some 0)).status = .halted .timeout ∧
    ((new "" "").performAll lowered).steps < Text.wordBound - 1 ∧
    ((new "" "").performAll lowered).steps ≤
      max 1 (((new "" "").ceilingsInForce [] lowered).max?.getD 0) := by
  have hlowered : ∀ operation ∈ lowered, operation.InRange := by
    simp [lowered, Operation.InRange, Text.wordBound]
  have hzero : ∀ n, some 0 = some n → n < Text.wordBound := by
    rintro n h
    obtain rfl := Option.some.inj h
    decide
  have hverdict : (((new "" "").performAll lowered).run (some 0)).verdict = .timeout := by decide
  obtain ⟨hloops, hstatus, hrunning, hle⟩ := run_ends "" "" hlowered hzero rfl
  rw [hverdict] at hstatus
  exact ⟨hlowered, hloops, hstatus, hrunning 0 (by decide), hle⟩

end Machine

end TapeMachine
