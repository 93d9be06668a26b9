import TapeMachine.Definition.Basic

namespace TapeMachine.Definition

def headerLine (name : String) : List Char :=
  '[' :: (name.toList ++ [']'])

def entryLine (key : String) (value : List Char) : List Char :=
  key.toList ++ ':' :: ' ' :: value

def listText (items : List String) : List Char :=
  [',', ' '].intercalate (items.map String.toList)

/-- A rule, given the letter of its move. -/
def ruleText (letter : Char) (r : Rule) : List Char :=
  r.state.toList ++ [',', ' ', r.read, ' ', '-', '>', ' ', r.write, ',', ' ', letter, ',', ' '] ++
    r.next.toList

def linesOf (letter : Rule → Char) (p : Program) (input : String) : List (List Char) :=
  [headerLine "METADATA",
    entryLine "name" p.name.toList,
    entryLine "description" p.description.toList,
    headerLine "CONFIG",
    entryLine "initial_state" p.initial.toList,
    entryLine "accept_states" (listText p.accept),
    entryLine "reject_states" (listText p.reject),
    entryLine "blank_symbol" [p.blank],
    entryLine "max_steps" (toString p.ceiling).toList,
    headerLine "TRANSITIONS"] ++
  p.table.rules.map (fun r => ruleText (letter r) r) ++
  [headerLine "INPUT", input.toList]

def write (letter : Rule → Char) (p : Program) (input : String) : String :=
  String.ofList ((linesOf letter p input).flatMap (· ++ ['\n']))

end TapeMachine.Definition
