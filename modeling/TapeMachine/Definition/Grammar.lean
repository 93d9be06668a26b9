import TapeMachine.Text.Expression
import TapeMachine.Text.Space

namespace TapeMachine.Grammar

open TapeMachine.Text

inductive LinePart where
  | header
  | title
  | entry
  | key
  | value
  | ruleLine
  | side
  | field
  | lineEnd
  deriving DecidableEq, Repr

/-- Any text up to the first place where `stop` would read something. -/
def upTo (stop : Expression LinePart) : Expression LinePart :=
  .many (.seq (.absent stop) .any)

def lineEnd : Expression LinePart :=
  .named .lineEnd .finish

def title : Expression LinePart :=
  .named .title (upTo (.seq (.literal [']']) lineEnd))

def header : Expression LinePart :=
  .named .header (.seq .start (.seq (.literal ['[']) (.seq title (.seq (.literal [']']) lineEnd))))

def key : Expression LinePart :=
  .named .key (upTo (.literal [':']))

def value : Expression LinePart :=
  .named .value (.many .any)

def entry : Expression LinePart :=
  .named .entry (.seq .start (.seq key (.seq (.literal [':']) (.seq value lineEnd))))

/-- An item, and further ones behind separators. -/
def separated (separator : List Char) (item : Expression LinePart) : Expression LinePart :=
  .seq item (.many (.seq (.literal separator) item))

def field : Expression LinePart :=
  .named .field (upTo (.choice (.literal [',']) (.literal ['-', '>'])))

def side : Expression LinePart :=
  .named .side (separated [','] field)

/-- Every line is of this form; how many sides and fields a rule has is not for the grammar. -/
def ruleLine : Expression LinePart :=
  .named .ruleLine (.seq .start (.seq (separated ['-', '>'] side) lineEnd))

def textsOf (name : LinePart) (line : ParseTree LinePart) : List (List Char) :=
  (ParseTree.select name line.children).map ParseTree.text

def titleOf? (line : ParseTree LinePart) : Option (List Char) :=
  (textsOf .title line).head?

def keyValueOf? (line : ParseTree LinePart) : Option (List Char × List Char) :=
  (textsOf .key line).getLast?.map fun key =>
    (trim key, trim ((textsOf .value line).getLast?.getD []))

def fieldsOf (side : ParseTree LinePart) : List (List Char) :=
  (textsOf .field side).map trim

def sidesOf (line : ParseTree LinePart) : List (List (List Char)) :=
  (ParseTree.select .side line.children).map fieldsOf

end TapeMachine.Grammar
