import TapeMachine.Text.Search

/-!
A quick look at a text before it is read: whether the headers of the required sections and the key
of the initial state occur in it, as they are usually written.
-/

namespace TapeMachine.Definition

/-- The headers of the sections that a definition cannot do without. -/
def requiredHeaders : List String :=
  ["[CONFIG]", "[TRANSITIONS]"]

inductive Issue where
  | missingSection (header : String)
  | missingInitialState
  deriving DecidableEq, Repr

def Issue.message : Issue → String
  | .missingSection header => "Missing required section: " ++ header
  | .missingInitialState => "Missing 'initial_state' in [CONFIG]"

def mentions (source : List Char) (word : String) : Bool :=
  Text.occurs word.toList source

/-- What a text lacks. The initial state is missed only where there is a place for it. -/
def check (source : String) : List Issue :=
  let source := source.toList
  let sections := (requiredHeaders.filter fun header => !mentions source header).map
    Issue.missingSection
  if mentions source "[CONFIG]" && !mentions source "initial_state:" then
    sections ++ [.missingInitialState]
  else sections

end TapeMachine.Definition
