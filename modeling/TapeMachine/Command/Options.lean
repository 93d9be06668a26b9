import TapeMachine.Tape.Window
import TapeMachine.Text.Decimal

/-!
The options of the command. A long option has its value behind an equals sign or in the next
argument; a short one has it in the same argument or in the next one, and short options without
a value may be joined. After two dashes no argument is an option.
-/

namespace TapeMachine.Command

structure Options where
  file : Option String := none
  preset : Option String := none
  input : Option String := none
  maxSteps : Option Nat := none
  debug : Bool := false
  window : Nat := defaultWindowSize
  json : Bool := false
  check : Bool := false
  list : Bool := false
  deriving DecidableEq, Repr

/-- An option without a value. -/
inductive Flag where
  | debug
  | json
  | check
  | list
  deriving DecidableEq, Repr

namespace Flag

def ofName? : String → Option Flag
  | "debug" => some .debug
  | "json" => some .json
  | "check" => some .check
  | "list" => some .list
  | _ => none

def ofLetter? : Char → Option Flag
  | 'd' => some .debug
  | 'l' => some .list
  | _ => none

def apply (o : Options) : Flag → Options
  | .debug => { o with debug := true }
  | .json => { o with json := true }
  | .check => { o with check := true }
  | .list => { o with list := true }

end Flag

/-- An option with a value. -/
inductive Setting where
  | preset
  | input
  | maxSteps
  | window
  deriving DecidableEq, Repr

namespace Setting

def ofName? : String → Option Setting
  | "preset" => some .preset
  | "input" => some .input
  | "max-steps" => some .maxSteps
  | "window" => some .window
  | _ => none

def ofLetter? : Char → Option Setting
  | 'p' => some .preset
  | 'i' => some .input
  | 'm' => some .maxSteps
  | 'w' => some .window
  | _ => none

/-- Sets an option to a value, unless a number is expected and there is none. -/
def assign? (o : Options) (value : String) : Setting → Option Options
  | .preset => some { o with preset := some value }
  | .input => some { o with input := some value }
  | .maxSteps => (Text.readWord? value.toList).map fun n => { o with maxSteps := some n }
  | .window => (Text.readWord? value.toList).map fun n => { o with window := n }

end Setting

namespace Options

/-- Takes an argument that is no option for the name of the definition file. -/
def positional? (o : Options) (argument : String) : Option Options :=
  if o.file.isSome then none else some { o with file := some argument }

/-- Reads the letters behind a dash. A setting whose value is in the next argument is returned as
pending. -/
def letters? (o : Options) : List Char → Option (Options × Option Setting)
  | [] => some (o, none)
  | c :: rest =>
      match Flag.ofLetter? c, Setting.ofLetter? c, rest with
      | some flag, _, rest => letters? (flag.apply o) rest
      | none, some setting, [] => some (o, some setting)
      | none, some setting, '=' :: value =>
          (setting.assign? o (.ofList value)).map fun o => (o, none)
      | none, some setting, value => (setting.assign? o (.ofList value)).map fun o => (o, none)
      | none, none, _ => none

/-- Reads the text behind two dashes: a name, and perhaps a value behind an equals sign. -/
def long? (o : Options) (text : List Char) : Option (Options × Option Setting) :=
  let name := String.ofList (text.takeWhile (· ≠ '='))
  match Flag.ofName? name, Setting.ofName? name, text.dropWhile (· ≠ '=') with
  | some flag, _, [] => some (flag.apply o, none)
  | _, some setting, [] => some (o, some setting)
  | _, some setting, _ :: value => (setting.assign? o (.ofList value)).map fun o => (o, none)
  | _, _, _ => none

def positionals? (o : Options) (arguments : List String) : Option Options :=
  arguments.foldlM positional? o

/-- Reads arguments, of which the first is the value of a pending setting. -/
def readFrom? (o : Options) (pending : Option Setting) : List String → Option Options
  | [] => if pending.isSome then none else some o
  | argument :: rest =>
      match pending, argument.toList with
      | some setting, _ => (setting.assign? o argument).bind fun o => readFrom? o none rest
      | none, ['-', '-'] => positionals? o rest
      | none, '-' :: '-' :: text =>
          (long? o text).bind fun (o, pending) => readFrom? o pending rest
      | none, '-' :: c :: letters =>
          (letters? o (c :: letters)).bind fun (o, pending) => readFrom? o pending rest
      | none, _ => (positional? o argument).bind fun o => readFrom? o none rest

/-- Reads the arguments of the command. A file and a preset exclude each other. -/
def read? (arguments : List String) : Option Options :=
  (readFrom? {} none arguments).filter fun o => o.file.isNone || o.preset.isNone

def readsInput (o : Options) : Bool :=
  !o.list && o.file.isNone && o.preset.isNone

end Options

end TapeMachine.Command
