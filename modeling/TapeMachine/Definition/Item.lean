import TapeMachine.Definition.Section
import TapeMachine.Table
import TapeMachine.Text.Decimal
import TapeMachine.Tape.Basic

namespace TapeMachine

/-- How strictly the rule lines of a definition are taken. In normal mode a line without the shape
of a rule is skipped and a later rule replaces an earlier one with the same key; in strict mode
both are errors. -/
inductive Mode where
  | normal
  | strict
  deriving DecidableEq, Repr

/-- A rule as it is written. A symbol that is left out is the blank. -/
structure RuleLine where
  line : Nat
  state : String
  read : Option Char
  write : Option Char
  move : Move
  next : String
  deriving DecidableEq, Repr

/-- The rule of a line, once the blank is known. -/
def RuleLine.rule (l : RuleLine) (blank : Char) : Rule where
  state := l.state
  read := l.read.getD blank
  write := l.write.getD blank
  move := l.move
  next := l.next

inductive Item where
  | metadata (key value : String)
  | accept (states : List String)
  | reject (states : List String)
  | blank (symbol : Option Char)
  | ceiling (limit : Nat)
  | setting (key value : String)
  | alphabet (key : String) (symbols : List String)
  | rule (line : RuleLine)
  | input (text : String)
  deriving DecidableEq, Repr

namespace Item

/-- Reads a symbol: one character, or none for the blank. -/
def readSymbol (number : Nat) : List Char → Except Error (Option Char)
  | [] => .ok none
  | [c] => .ok (some c)
  | field => .error (.invalidSymbol (.ofList field) number)

def listOf (value : List Char) : List String :=
  (Text.commaItems value).map String.ofList

/-- Reads the step ceiling, a number other than zero. -/
def readLimit? (value : List Char) : Option Nat :=
  (Text.readWord? value).filter (0 < ·)

/-- Reads an entry of the configuration. The lists of states are no settings; the blank and the
ceiling are settings as they are written as well. -/
def ofSetting (number : Nat) (key : String) (value : List Char) : Except Error (List Item) :=
  let setting := Item.setting key (.ofList value)
  if key = "accept_states" then .ok [.accept (listOf value)]
  else if key = "reject_states" then .ok [.reject (listOf value)]
  else if key = "blank_symbol" then
    (readSymbol number value).map fun symbol => [.blank symbol, setting]
  else if key = "max_steps" then
    match readLimit? value with
    | some limit => .ok [.ceiling limit, setting]
    | none => .error (.invalidSetting key (.ofList value))
  else .ok [setting]

def ofFields (number : Nat) (state read write move next : List Char) :
    Except Error (List Item) := do
  match Move.ofToken? move with
  | none => .error (.invalidMove (.ofList move) (some number))
  | some move =>
      let read ← readSymbol number read
      let write ← readSymbol number write
      return [.rule ⟨number, .ofList state, read, write, move, .ofList next⟩]

/-- Reads a rule line: two sides, of two and of three fields. More than one arrow is an error in
either mode. -/
def ofRuleLine (mode : Mode) (number : Nat) (text : List Char) : Except Error (List Item) :=
  let malformed := Except.error (.malformedRule number (.ofList text))
  match Line.sides? text with
  | some [[state, read], [write, move, next]] => ofFields number state read write move next
  | some [_] | some [_, _] =>
      match mode with
      | .normal => .ok []
      | .strict => malformed
  | _ => malformed

def ofLine (mode : Mode) (l : ContentLine) : Except Error (List Item) :=
  match l.place with
  | .metadata =>
      match Line.keyValue? l.text with
      | some (key, value) => .ok [.metadata (.ofList key) (.ofList value)]
      | none => .ok []
  | .config =>
      match Line.keyValue? l.text with
      | some (key, value) => ofSetting l.number (.ofList key) value
      | none => .ok []
  | .alphabet =>
      match Line.keyValue? l.text with
      | some (key, value) => .ok [.alphabet (.ofList key) (listOf value)]
      | none => .ok []
  | .transitions => ofRuleLine mode l.number l.text
  | .input => .ok [.input (.ofList l.text)]
  | .unknown => .ok []

def ofLines (mode : Mode) (lines : List ContentLine) : Except Error (List Item) :=
  return (← lines.mapM (ofLine mode)).flatten

def metadata? : Item → Option (String × String)
  | .metadata key value => some (key, value)
  | _ => none

def accept? : Item → Option (List String)
  | .accept states => some states
  | _ => none

def reject? : Item → Option (List String)
  | .reject states => some states
  | _ => none

def blank? : Item → Option (Option Char)
  | .blank symbol => some symbol
  | _ => none

def limit? : Item → Option Nat
  | .ceiling limit => some limit
  | _ => none

def setting? : Item → Option (String × String)
  | .setting key value => some (key, value)
  | _ => none

def alphabet? : Item → Option (String × List String)
  | .alphabet key symbols => some (key, symbols)
  | _ => none

def rule? : Item → Option RuleLine
  | .rule line => some line
  | _ => none

def input? : Item → Option String
  | .input text => some text
  | _ => none

end Item

end TapeMachine
