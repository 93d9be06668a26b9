import TapeMachine.Definition.Item
import TapeMachine.Machine.Basic

namespace TapeMachine

/-- All that a text says about a machine. The alphabet is for information only. -/
structure Definition where
  program : Program
  input : String
  metadata : List (String × String)
  alphabet : List (String × List String)
  config : List (String × String)
  deriving DecidableEq, Repr

namespace Definition

def defaultName : String := "Custom Machine"

def valueOf? (key : String) (entries : List (String × String)) : Option String :=
  (Keyed.find? Prod.fst key entries).map Prod.snd

/-- The entries of the statements that `pick?` picks. A later entry replaces an earlier one with
the same key. -/
def entriesOf {α : Type} (pick? : Item → Option (String × α)) (items : List Item) :
    List (String × α) :=
  Keyed.ofList Prod.fst (items.filterMap pick?)

/-- The last of the statements that `pick?` picks. -/
def lastOf {α : Type} (pick? : Item → Option α) (items : List Item) : Option α :=
  (items.filterMap pick?).getLast?

def initialOf (config : List (String × String)) : Except Error String :=
  match valueOf? "initial_state" config with
  | some state => if state = "" then .error .missingInitialState else .ok state
  | none => .error .missingInitialState

def blankOf (items : List Item) : Char :=
  ((lastOf Item.blank? items).join).getD defaultBlank

/-- Inserts the rule of a line. In strict mode its key must be new. -/
def insertLine (mode : Mode) (blank : Char) (t : Table) (l : RuleLine) : Except Error Table :=
  let r := l.rule blank
  match mode with
  | .normal => .ok (t.insert r)
  | .strict =>
      if t.contains r.state r.read then .error (.duplicateRule r.state r.read (some l.line))
      else .ok (t.insert r)

/-- The table of the rule lines, of which there has to be one at least. -/
def tableOf (mode : Mode) (blank : Char) (lines : List RuleLine) : Except Error Table :=
  if lines.isEmpty then .error .noRules
  else lines.foldlM (insertLine mode blank) Table.empty

def ofItems (mode : Mode) (items : List Item) : Except Error Definition := do
  let metadata := entriesOf Item.metadata? items
  let config := entriesOf Item.setting? items
  let blank := blankOf items
  let initial ← initialOf config
  let table ← tableOf mode blank (items.filterMap Item.rule?)
  return {
    program := {
      name := (valueOf? "name" metadata).getD defaultName
      description := (valueOf? "description" metadata).getD ""
      table
      initial
      accept := Sorted.ofList ((lastOf Item.accept? items).getD [])
      reject := Sorted.ofList ((lastOf Item.reject? items).getD [])
      blank
      ceiling := (lastOf Item.limit? items).getD defaultCeiling }
    input := .ofList (Text.trim (String.join (items.filterMap Item.input?)).toList)
    metadata
    alphabet := entriesOf Item.alphabet? items
    config }

def ofChars (mode : Mode) (s : List Char) : Except Error Definition := do
  ofItems mode (← Item.ofLines mode (ContentLine.ofText s))

def parse (mode : Mode) (source : String) : Except Error Definition :=
  ofChars mode source.toList

/-- The machine of a definition, without a tape. -/
def machine (d : Definition) : Machine :=
  d.program.start

end Definition

end TapeMachine
