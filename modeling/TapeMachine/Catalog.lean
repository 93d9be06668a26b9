import TapeMachine.Catalog.Presets
import TapeMachine.Definition.Basic
import TapeMachine.Text.Search

namespace TapeMachine

/-- A built-in machine: what its definition says about it, and the text of that definition. -/
structure Preset where
  key : String
  name : String
  description : String
  defaultInput : String
  category : String
  source : String
  deriving DecidableEq, Repr

namespace Preset

/-- A text whose lines end in line breaks. -/
def textOf (lines : List String) : String :=
  String.ofList (lines.flatMap fun line => line.toList ++ ['\n'])

def definition (p : Preset) : Except Error Definition :=
  Definition.parse .strict p.source

def ofSource (key source : String) : Except Error Preset := do
  let d ← Definition.parse .strict source
  return {
    key
    name := d.program.name
    description := d.program.description
    defaultInput := d.input
    category := (Definition.valueOf? "category" d.metadata).getD ""
    source }

def build (p : Preset) : Except Error Machine :=
  p.definition.map Definition.machine

end Preset

namespace Catalog

def sources : List (String × List String) := [
  ("binary_increment", binaryIncrement),
  ("palindrome", palindrome),
  ("unary_addition", unaryAddition),
  ("binary_multiplication", binaryMultiplication),
  ("copy_string", copyString)]

/-- The presets whose definitions can be read. -/
def presets : List Preset :=
  sources.filterMap fun (key, lines) => (Preset.ofSource key (Preset.textOf lines)).toOption

def keys : List String :=
  presets.map Preset.key

def get (key : String) : Except Error Preset :=
  (presets.find? (·.key == key)).elim (.error (.unknownPreset key)) .ok

/-- The presets whose key or name contains a text, in any case. Keys are in lower case. -/
def search (query : String) : List Preset :=
  let query := query.toList.map Text.lower
  presets.filter fun preset =>
    Text.occurs query preset.key.toList ||
      Text.occurs query (preset.name.toList.map Text.lower)

/-- The presets of a category, in any case. -/
def byCategory (category : String) : List Preset :=
  presets.filter fun preset => Text.sameLetters preset.category.toList category.toList

/-- The machine of a preset with the default input on its tape, and that input. -/
def load (key : String) : Except Error (Machine × String) := do
  let preset ← get key
  let machine ← preset.build
  return (machine.loadTape preset.defaultInput, preset.defaultInput)

end Catalog

end TapeMachine
