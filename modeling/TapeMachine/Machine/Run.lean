import TapeMachine.Machine.Basic

namespace TapeMachine

def Tape.move (t : Tape) : Move → Tape
  | .left => t.moveLeft
  | .right => t.moveRight
  | .stay => t

namespace Rule

/-- What a rule does to the tape: it writes its symbol and moves the head. -/
def apply (r : Rule) (t : Tape) : Tape :=
  (t.write r.write).move r.move

@[simp] theorem blank_apply (r : Rule) (t : Tape) : (r.apply t).blank = t.blank := by
  unfold apply
  cases r.move with
  | left => exact Tape.blank_moveLeft _
  | right => exact Tape.blank_moveRight _
  | stay => rfl

end Rule

namespace Machine

/-- The tape, or a blank one if none has been loaded. -/
def currentTape (m : Machine) : Tape :=
  m.tape.getD (Tape.new m.blank)

def snapshot (m : Machine) : Snapshot where
  step := m.steps
  state := m.state
  tape := m.currentTape

def record (m : Machine) : Machine :=
  { m with tape := some m.currentTape, past := m.snapshot :: m.past }

/-- The status after a step: the state decides first, then the ceiling. -/
def statusAfter (m : Machine) (state : String) (steps : Nat) : Status :=
  match m.classify state with
  | some outcome => .halted outcome
  | none => if m.ceiling ≤ steps then .halted .timeout else .running

def follow (m : Machine) (r : Rule) : Machine :=
  { m with
    tape := some (r.apply m.currentTape)
    state := r.next
    steps := m.steps + 1
    status := m.statusAfter r.next (m.steps + 1) }

/-- Stops for want of a rule. -/
def halt (m : Machine) : Machine :=
  { m with status := .halted ((m.classify m.state).getD .halted) }

def rule? (m : Machine) : Option Rule :=
  m.table.lookup m.state m.currentTape.symbol

/-- Attempts one step, and tells whether another may follow. A halted machine stays as it is. -/
def attempt (m : Machine) : Bool × Machine :=
  if m.isHalted then (false, m)
  else
    match m.rule? with
    | some r => (m.statusAfter r.next (m.steps + 1) = .running, m.record.follow r)
    | none => (false, m.record.halt)

def step (m : Machine) : Machine :=
  m.attempt.2

/-- Attempts up to `n` steps, as long as the machine is running. -/
def advance : Nat → Machine → Machine
  | 0, m => m
  | n + 1, m => if m.isHalted then m else advance n m.step

/-- The machine with the ceiling of a run: a number other than zero replaces the one it had. -/
def withCeiling (m : Machine) : Option Nat → Machine
  | some (n + 1) => m.setCeiling (n + 1)
  | _ => m

/-- Runs until the machine halts. The ceiling leaves room for no more attempts than this. -/
def run (m : Machine) (ceiling : Option Nat) : Machine :=
  let m := m.withCeiling ceiling
  advance (m.ceiling - m.steps + 1) m

def verdict (m : Machine) : Outcome :=
  m.status.outcome?.getD .halted

/-- Undoes the latest attempt, if there is one. -/
def rewind? (m : Machine) : Option Machine :=
  match m.past with
  | [] => none
  | last :: past =>
      some { m with
        state := last.state
        steps := last.step
        tape := some (last.restore m.blank)
        status := .running
        past }

/-- Restarts the machine. The tape becomes what it was before the first step, if it is to be kept
and there was one, and otherwise a loaded tape becomes blank. -/
def reset (m : Machine) (keepTape : Bool) : Machine :=
  let first := if keepTape then m.past.getLast? else none
  restart { m with
    tape := first.elim (m.tape.map (·.reset [])) fun first => some (first.restore m.blank) }

theorem currentTape_of_tape {m : Machine} {t : Tape} (h : m.tape = some t) :
    m.currentTape = t := by
  simp [currentTape, h]

theorem statusAfter_eq_running_iff {m : Machine} {state : String} {steps : Nat} :
    m.statusAfter state steps = .running ↔ m.classify state = none ∧ steps < m.ceiling := by
  unfold statusAfter
  cases m.classify state with
  | some outcome => simp
  | none => by_cases h : m.ceiling ≤ steps <;> simp [h]; omega

theorem statusAfter_eq_halted_iff {m : Machine} {state : String} {steps : Nat}
    {outcome : Outcome} :
    m.statusAfter state steps = .halted outcome ↔
      m.classify state = some outcome ∨
        (m.classify state = none ∧ m.ceiling ≤ steps ∧ outcome = .timeout) := by
  unfold statusAfter
  cases m.classify state with
  | some decided => simp
  | none =>
      rcases Nat.lt_or_ge steps m.ceiling with hlt | hge
      · simp [Nat.not_le_of_lt hlt]
      · simp [hge, eq_comm]

theorem isHalted_of_status {m : Machine} {outcome : Outcome} (h : m.status = .halted outcome) :
    m.isHalted = true :=
  congrArg Status.isHalted h

theorem step_of_isHalted {m : Machine} (h : m.isHalted = true) : m.step = m := by
  simp [step, attempt, h]

theorem step_of_rule? {m : Machine} {r : Rule} (hrunning : m.status = .running)
    (hrule : m.rule? = some r) : m.step = m.record.follow r := by
  simp [step, attempt, isHalted, Status.isHalted, hrunning, hrule]

theorem step_of_rule?_eq_none {m : Machine} (hrunning : m.status = .running)
    (hrule : m.rule? = none) : m.step = m.record.halt := by
  simp [step, attempt, isHalted, Status.isHalted, hrunning, hrule]

/-- Everything that an attempted step can be. -/
theorem step_cases (m : Machine) :
    (∃ outcome, m.status = .halted outcome ∧ m.step = m) ∨
      (m.status = .running ∧ ∃ r, m.rule? = some r ∧ m.step = m.record.follow r) ∨
      (m.status = .running ∧ m.rule? = none ∧ m.step = m.record.halt) := by
  cases hstatus : m.status with
  | halted outcome =>
      exact .inl ⟨outcome, rfl, step_of_isHalted (isHalted_of_status hstatus)⟩
  | running =>
      cases hrule : m.rule? with
      | some r => exact .inr (.inl ⟨rfl, r, rfl, step_of_rule? hstatus hrule⟩)
      | none => exact .inr (.inr ⟨rfl, rfl, step_of_rule?_eq_none hstatus hrule⟩)

theorem exists_of_rewind? {m before : Machine} (h : m.rewind? = some before) :
    ∃ last rest, m.past = last :: rest ∧
      before = { m with
        state := last.state
        steps := last.step
        tape := some (last.restore m.blank)
        status := .running
        past := rest } := by
  unfold rewind? at h
  cases hpast : m.past with
  | nil =>
      rw [hpast] at h
      contradiction
  | cons last rest =>
      rw [hpast] at h
      exact ⟨last, rest, rfl, (Option.some.inj h).symm⟩

theorem advance_of_isHalted {m : Machine} (h : m.isHalted = true) (n : Nat) :
    advance n m = m := by
  cases n <;> simp [advance, h]

theorem advance_succ (n : Nat) (m : Machine) : advance (n + 1) m = advance n m.step := by
  by_cases h : m.isHalted = true
  · rw [advance_of_isHalted h, step_of_isHalted h, advance_of_isHalted h]
  · simp [advance, h]

theorem steps_step_of_running {m : Machine} (h : m.step.isHalted = false) :
    m.step.steps = m.steps + 1 ∧ m.step.ceiling = m.ceiling ∧ m.steps + 1 < m.ceiling := by
  obtain ⟨outcome, hstatus, hstep⟩ | ⟨-, r, -, hstep⟩ | ⟨-, -, hstep⟩ := step_cases m
  · rw [hstep, isHalted_of_status hstatus] at h
    contradiction
  · rw [hstep] at h ⊢
    have hrunning : m.statusAfter r.next (m.steps + 1) = .running := by
      cases hstatus : m.statusAfter r.next (m.steps + 1) with
      | running => rfl
      | halted outcome =>
          rw [isHalted_of_status (m := m.record.follow r) hstatus] at h
          contradiction
    exact ⟨rfl, rfl, (statusAfter_eq_running_iff.mp hrunning).2⟩
  · rw [hstep] at h
    contradiction

theorem isHalted_advance (n : Nat) (m : Machine) (h : m.ceiling - m.steps < n) :
    (advance n m).isHalted = true := by
  induction n generalizing m with
  | zero => omega
  | succ n ih =>
      rw [advance_succ]
      by_cases hstep : m.step.isHalted = true
      · rw [advance_of_isHalted hstep]
        exact hstep
      · obtain ⟨hsteps, hceiling, hlt⟩ := steps_step_of_running (by simpa using hstep)
        exact ih m.step (by omega)

theorem isHalted_run (m : Machine) (ceiling : Option Nat) : (m.run ceiling).isHalted = true :=
  isHalted_advance _ _ (by omega)

end Machine

end TapeMachine
