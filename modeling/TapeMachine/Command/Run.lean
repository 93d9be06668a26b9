import TapeMachine.Catalog
import TapeMachine.Command.Options
import TapeMachine.Definition.Check
import TapeMachine.Definition.Load
import TapeMachine.Machine.Report

namespace TapeMachine.Command

/-- The texts that the command reads: that of the file which the options name, and standard input
unless it is a terminal. -/
structure Supply where
  file : Except Fault String
  input : Option (Except Fault String)

/-- The bytes that the command reads in the same places. -/
structure Sources where
  file : Except Fault ByteArray
  input : Option (Except Fault ByteArray)

/-- The texts that are read from the bytes. Bytes that are no text are a fault like any other. -/
def Sources.supply (w : Sources) : Supply where
  file := w.file.bind FileTree.decode
  input := w.input.map fun bytes => bytes.bind FileTree.decode

structure Response where
  exit : Nat
  out : String
  err : String
  deriving DecidableEq, Repr

inductive Failure where
  | definition (cause : Error)
  | unreadableFile (path : String) (fault : Fault)
  | unreadableInput (fault : Fault)
  | noDefinition
  deriving DecidableEq, Repr

def Failure.message : Failure → String
  | .definition cause => cause.message
  | .unreadableFile path fault => "Failed to read file '" ++ path ++ "': " ++ fault.message
  | .unreadableInput fault => "Failed to read from stdin: " ++ fault.message
  | .noDefinition =>
      "no definition given: pass a FILE, use --preset, or pipe a definition on stdin"

def inputText (s : Supply) : Except Failure String :=
  match s.input with
  | none => .error .noDefinition
  | some (.error fault) => .error (.unreadableInput fault)
  | some (.ok text) => .ok text

/-- The definition to be run: that in the file if there is one, else that of the preset, else that
on standard input. -/
def definition (o : Options) (s : Supply) : Except Failure Definition :=
  match o.file, o.preset with
  | some path, _ => (Definition.ofFile path s.file).mapError .definition
  | none, some key => ((Catalog.get key).bind Preset.definition).mapError .definition
  | none, none =>
      (inputText s).bind fun text => (Definition.parse .normal text).mapError .definition

def sourceText (o : Options) (s : Supply) : Except Failure String :=
  match o.file, o.preset with
  | some path, _ => s.file.mapError (.unreadableFile path)
  | none, some key => ((Catalog.get key).map Preset.source).mapError .definition
  | none, none => inputText s

def padded (width : Nat) (s : String) : String :=
  s ++ String.ofList (List.replicate (width - s.length) ' ')

def presetLine (p : Preset) : String :=
  padded 24 p.key ++ " " ++ padded 24 p.name ++ " " ++ padded 12 p.category ++ " input: " ++
    p.defaultInput ++ "\n"

def checked (source : String) : Response :=
  match Definition.check source with
  | [] => ⟨0, "OK\n", ""⟩
  | issues => ⟨1, String.join (issues.map fun issue => issue.message ++ "\n"), ""⟩

/-- The configuration of a machine, with a window of its tape. -/
def block (size : Nat) (m : Machine) : String :=
  m.tape.elim "" fun tape =>
    "Step: " ++ toString m.steps ++ ", State: " ++ m.state ++ ", Head: " ++ toString tape.head ++
      "\n" ++ (tape.window size).display

/-- The stages of a machine that attempts at most `n` further steps, from the latest to the first.
The stage of the machine itself is included, and `seen` are those before it. -/
def stagesFrom (seen : List Machine) : Nat → Machine → List Machine
  | 0, m => m :: seen
  | n + 1, m =>
      let next := m.step
      if next.isHalted then next :: m :: seen else stagesFrom (m :: seen) n next

def stages (m : Machine) (ceiling : Option Nat) : List Machine :=
  let m := m.withCeiling ceiling
  stagesFrom [] (m.ceiling - m.steps + 1) m

def summary (o : Options) (m : Machine) : String :=
  if o.json then m.report.toJson ++ "\n"
  else
    m.name ++ ": " ++ m.status.text ++ "\nSteps: " ++ toString m.steps ++ "\nState: " ++ m.state ++
      "\nTape: " ++ m.content ++ "\n"

def exitCode : Outcome → Nat
  | .accepted => 0
  | .halted => 0
  | .rejected => 2
  | .timeout => 3

def execute (o : Options) (m : Machine) : Response :=
  if o.debug then
    let stages := stages m o.maxSteps
    let last := stages.head?.getD m
    ⟨exitCode last.verdict,
      String.join (stages.reverse.map (block o.window)) ++ summary o last, ""⟩
  else
    let last := m.run o.maxSteps
    ⟨exitCode last.verdict, summary o last, ""⟩

def failed (failure : Failure) : Response :=
  ⟨1, "", "Error: " ++ failure.message ++ "\n"⟩

def respond (o : Options) (s : Supply) : Response :=
  if o.list then ⟨0, String.join (Catalog.presets.map presetLine), ""⟩
  else if o.check then
    match sourceText o s with
    | .error failure => failed failure
    | .ok source => checked source
  else
    match definition o s with
    | .error failure => failed failure
    | .ok d => execute o (d.machine.loadTape (o.input.getD d.input))

def usage : Response :=
  ⟨2, "", "usage: [--preset KEY] [--input TEXT] [--max-steps N] [--window N] " ++
    "[--debug] [--json] [--check] [--list] [FILE]\n"⟩

end TapeMachine.Command
