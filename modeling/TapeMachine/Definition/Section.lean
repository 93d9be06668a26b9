import TapeMachine.Definition.Line
import TapeMachine.Text.Fold

/-!
The sections of a definition and the lines in them. A header begins a section; the other lines,
apart from blank ones and comments, are the content of the section that they stand in.
-/

namespace TapeMachine

inductive Section where
  | metadata
  | config
  | alphabet
  | transitions
  | input
  | unknown
  deriving DecidableEq, Repr

/-- The section with a given name, in any case and with any space around it. -/
def Section.ofName (name : List Char) : Section :=
  let name := (Text.trim name).map Text.lower
  if name = "metadata".toList then .metadata
  else if name = "config".toList then .config
  else if name = "alphabet".toList then .alphabet
  else if name = "transitions".toList then .transitions
  else if name = "input".toList then .input
  else .unknown

/-- A trimmed line of a section, with its number in the whole text. -/
structure ContentLine where
  place : Section
  number : Nat
  text : List Char
  deriving DecidableEq, Repr

namespace ContentLine

/-- Whether a trimmed line says nothing: it is blank or a comment. -/
def isSilent (text : List Char) : Bool :=
  text.isEmpty || text.head? == some '#'

/-- The content lines among numbered lines, of which the first stand in the section `place`. -/
def collect (place : Section) : List (List Char × Nat) → List ContentLine
  | [] => []
  | (raw, number) :: rest =>
      let text := Text.trim raw
      if isSilent text then collect place rest
      else
        match Line.header? text with
        | some name => collect (.ofName name) rest
        | none => ⟨place, number, text⟩ :: collect place rest

/-- The content lines of a text. What stands before the first header is in no known section. -/
def ofText (s : List Char) : List ContentLine :=
  collect .unknown (Text.numberedLines s)

end ContentLine

end TapeMachine
