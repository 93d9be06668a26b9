import TapeMachine.Table
import TapeMachine.Tape.Basic

/-!
Machines: a program, and how far it has been run. A machine starts in its initial state, without a
tape, and remembers the configuration before each attempted step.
-/

namespace TapeMachine

/-- The number of steps after which a machine is stopped unless told otherwise. -/
def defaultCeiling : Nat := 10000

/-- What a machine does: its rules, the states in which it stops, the blank of its tape and the
number of steps after which it is stopped. The sets of states are sorted. -/
structure Program where
  name : String
  description : String
  table : Table
  initial : String
  accept : List String
  reject : List String
  blank : Char
  ceiling : Nat
  deriving DecidableEq, Repr

namespace Program

def defaultName : String := "Turing Machine"

def new (name description : String) : Program where
  name
  description
  table := .empty
  initial := ""
  accept := []
  reject := []
  blank := defaultBlank
  ceiling := defaultCeiling

end Program

inductive Outcome where
  | accepted
  | rejected
  | timeout
  | halted
  deriving DecidableEq, Repr

def Outcome.text : Outcome → String
  | .accepted => "accepted"
  | .rejected => "rejected"
  | .timeout => "timeout"
  | .halted => "halted"

inductive Status where
  | running
  | halted (outcome : Outcome)
  deriving DecidableEq, Repr

namespace Status

def isHalted : Status → Bool
  | .running => false
  | .halted _ => true

def outcome? : Status → Option Outcome
  | .running => none
  | .halted outcome => some outcome

end Status

namespace Program

/-- The outcome of stopping in a state, if the state decides it. A state that both accepts and
rejects accepts. -/
def classify (p : Program) (state : String) : Option Outcome :=
  if state ∈ p.accept then some .accepted
  else if state ∈ p.reject then some .rejected
  else none

theorem classify_cases (p : Program) (state : String) :
    (state ∈ p.accept ∧ p.classify state = some .accepted) ∨
      (state ∉ p.accept ∧ state ∈ p.reject ∧ p.classify state = some .rejected) ∨
      (state ∉ p.accept ∧ state ∉ p.reject ∧ p.classify state = none) := by
  unfold classify
  split
  · rename_i haccept
    exact .inl ⟨haccept, rfl⟩
  · rename_i haccept
    split
    · rename_i hreject
      exact .inr (.inl ⟨haccept, hreject, rfl⟩)
    · rename_i hreject
      exact .inr (.inr ⟨haccept, hreject, rfl⟩)

theorem classify_eq_none_iff {p : Program} {state : String} :
    p.classify state = none ↔ state ∉ p.accept ∧ state ∉ p.reject := by
  obtain ⟨haccept, h⟩ | ⟨haccept, hreject, h⟩ | ⟨haccept, hreject, h⟩ := p.classify_cases state <;>
    simp [*]

theorem classify_eq_some_iff {p : Program} {state : String} {outcome : Outcome} :
    p.classify state = some outcome ↔
      (outcome = .accepted ∧ state ∈ p.accept) ∨
        (outcome = .rejected ∧ state ∈ p.reject ∧ state ∉ p.accept) := by
  obtain ⟨haccept, h⟩ | ⟨haccept, hreject, h⟩ | ⟨haccept, hreject, h⟩ := p.classify_cases state <;>
    simp [*, eq_comm]

end Program

/-- The configuration of a machine before an attempted step. -/
structure Snapshot where
  step : Nat
  state : String
  tape : Tape
  deriving DecidableEq, Repr

namespace Snapshot

def cells (s : Snapshot) : List Char :=
  s.tape.cells

def head (s : Snapshot) : Nat :=
  s.tape.head

def symbol (s : Snapshot) : Char :=
  s.tape.symbol

def restore (s : Snapshot) (blank : Char) : Tape :=
  Tape.restore s.cells s.head blank

end Snapshot

/-- A program with its current configuration. The snapshots are listed from the latest to the
first. -/
structure Machine extends Program where
  tape : Option Tape
  state : String
  steps : Nat
  status : Status
  past : List Snapshot
  deriving DecidableEq, Repr

namespace Program

def start (p : Program) : Machine where
  toProgram := p
  tape := none
  state := p.initial
  steps := 0
  status := .running
  past := []

end Program

namespace Machine

/-- A machine without rules and states. -/
def new (name description : String) : Machine :=
  (Program.new name description).start

/-- Returns to the initial state and forgets the steps. -/
def restart (m : Machine) : Machine :=
  { m with state := m.initial, steps := 0, status := .running, past := [] }

/-- Fixes the initial state, the stopping states and the blank. The tape goes, since its cells
were filled with the blank before. -/
def configure (m : Machine) (initial : String) (accept reject : List String) (blank : Char) :
    Machine :=
  restart { m with
    initial
    accept := Sorted.ofList accept
    reject := Sorted.ofList reject
    blank
    tape := none }

/-- Restarts on a tape that holds the given input. -/
def loadTape (m : Machine) (input : String) : Machine :=
  restart { m with tape := some (Tape.ofContent input.toList m.blank) }

def setCeiling (m : Machine) (ceiling : Nat) : Machine :=
  { m with ceiling }

def setTable (m : Machine) (table : Table) : Machine :=
  { m with table }

/-- Inserts a rule whose move is given by its token. -/
def addRule (m : Machine) (state : String) (read write : Char) (move : String) (next : String) :
    Except Error Machine :=
  (m.table.add state read write move next).map m.setTable

/-- The snapshots from the first to the latest. -/
def history (m : Machine) : List Snapshot :=
  m.past.reverse

def isHalted (m : Machine) : Bool :=
  m.status.isHalted

/-- The position of the head, zero without a tape. -/
def head (m : Machine) : Nat :=
  m.tape.elim 0 Tape.head

def symbol? (m : Machine) : Option Char :=
  m.tape.map Tape.symbol

/-- The tape without the blanks at both ends, empty without a tape. -/
def content (m : Machine) : String :=
  m.tape.elim "" Tape.content

theorem start_eq {p : Program} (haccept : Sorted.ofList p.accept = p.accept)
    (hreject : Sorted.ofList p.reject = p.reject) :
    p.start = (((new p.name p.description).configure p.initial p.accept p.reject
      p.blank).setCeiling p.ceiling).setTable p.table := by
  rw [configure, haccept, hreject]
  rfl

@[simp] theorem length_history (m : Machine) : m.history.length = m.past.length :=
  List.length_reverse

end Machine

end TapeMachine
