import TapeMachine.FileTree

namespace TapeMachine

/-- The largest size of a definition file, in bytes. -/
def maxDefinitionSize : Nat := 65536

/-- Causes of failure. A machine that runs never fails. -/
inductive Error where
  | invalidMove (token : String) (line : Option Nat)
  | missingInitialState
  | noRules
  | malformedRule (line : Nat) (text : String)
  | invalidSymbol (text : String) (line : Nat)
  | invalidSetting (key value : String)
  | duplicateRule (state : String) (symbol : Char) (line : Option Nat)
  | unreadableFile (path : String) (fault : Fault)
  | oversizedFile (path : String)
  | missingDirectory (path : String)
  | unreadableDirectory (path : String) (fault : Fault)
  | unloadableEntry (path : String) (cause : Error)
  | unknownPreset (key : String)
  deriving DecidableEq, Repr

namespace Error

def atLine (line : Nat) (message : String) : String :=
  "Line " ++ toString line ++ ": " ++ message

def atLine? (line : Option Nat) (message : String) : String :=
  line.elim message fun line => atLine line message

def message : Error → String
  | .invalidMove token line =>
      atLine? line ("Invalid move '" ++ token ++ "': use 'L' (left), 'R' (right) or 'S' (stay)")
  | .missingInitialState => "Missing initial_state in [CONFIG]"
  | .noRules => "No transitions defined in [TRANSITIONS]"
  | .malformedRule line text => atLine line ("malformed transition '" ++ text ++ "'")
  | .invalidSymbol text line =>
      atLine line ("Invalid symbol '" ++ text ++ "': symbols are single characters")
  | .invalidSetting key value => "Invalid value '" ++ value ++ "' for " ++ key ++ " in [CONFIG]"
  | .duplicateRule state symbol line =>
      atLine? line
        ("Duplicate transition for state " ++ state ++ " and symbol '" ++ symbol.toString ++ "'")
  | .unreadableFile path fault =>
      "File error: Failed to read file " ++ path ++ ": " ++ fault.message
  | .oversizedFile path =>
      "File error: File " ++ path ++ " is larger than " ++ toString maxDefinitionSize ++ " bytes"
  | .missingDirectory path => "File error: Directory " ++ path ++ " does not exist"
  | .unreadableDirectory path fault =>
      "File error: Failed to read directory " ++ path ++ ": " ++ fault.message
  | .unloadableEntry path cause =>
      "File error: Failed to load definition from " ++ path ++ ": " ++ cause.message
  | .unknownPreset key => "Unknown preset: " ++ key

end Error

end TapeMachine
