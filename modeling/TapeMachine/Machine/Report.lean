import TapeMachine.Machine.Run
import TapeMachine.Text.Quoted

namespace TapeMachine

def Status.text : Status → String
  | .running => "running"
  | .halted .accepted => "ACCEPTED"
  | .halted .rejected => "REJECTED"
  | .halted .timeout => "TIMEOUT (step ceiling reached)"
  | .halted .halted => "HALTED"

/-- A summary of a run. There is no outcome while the machine is running. -/
structure Report where
  name : String
  state : String
  steps : Nat
  outcome : Option Outcome
  tape : String
  head : Nat
  historyLength : Nat
  deriving DecidableEq, Repr

namespace Report

def member (key value : String) : String :=
  "  " ++ Text.quote key ++ ": " ++ value

def toJson (r : Report) : String :=
  let members := [
    member "name" (Text.quote r.name),
    member "state" (Text.quote r.state),
    member "steps" (toString r.steps),
    member "outcome" (r.outcome.elim "null" fun outcome => Text.quote outcome.text),
    member "tape" (Text.quote r.tape),
    member "head" (toString r.head),
    member "history_len" (toString r.historyLength)]
  "\x7b\n" ++ String.intercalate ",\n" members ++ "\n\x7d"

end Report

namespace Machine

def display (m : Machine) : String :=
  "TuringMachine(name='" ++ m.name ++ "', state=" ++ m.state ++ ", steps=" ++ toString m.steps ++
    ")"

def report (m : Machine) : Report where
  name := m.name
  state := m.state
  steps := m.steps
  outcome := m.status.outcome?
  tape := m.content
  head := m.head
  historyLength := m.past.length

end Machine

end TapeMachine
