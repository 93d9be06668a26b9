import TapeMachine.Text.Split

/-!
The grammar of the lines of a definition. A line is read from left to right without going back:
a text runs up to the first place where a test holds of what follows, and a list of items goes on
for as long as a separator follows.

* A header is a bracket, a name up to the bracket that ends the line, and that bracket.
* An entry is a key up to the first colon, the colon, and a value.
* The sides of a rule line are separated by arrows, their fields by commas, and a field runs up to
  the next comma or arrow.
-/

namespace TapeMachine.Line

open TapeMachine.Text

/-- Reads up to the first place where `stop` holds of what follows, and returns what follows. What
has been read so far is `read`, backwards. -/
def upToFrom (stop : List Char → Bool) (read : List Char) : List Char → List Char × List Char
  | [] => (read.reverse, [])
  | c :: rest =>
      if stop (c :: rest) then (read.reverse, c :: rest) else upToFrom stop (c :: read) rest

/-- Reads up to the first place where `stop` holds of what follows. -/
def upTo (stop : List Char → Bool) (s : List Char) : List Char × List Char :=
  upToFrom stop [] s

/-- Reads at most `n` further items, each behind a separator. The items read so far are `items`,
backwards. -/
def itemsFrom {α : Type} (separator? : List Char → Option (List Char))
    (item : List Char → α × List Char) : Nat → List α → List Char → List α × List Char
  | 0, items, s => (items.reverse, s)
  | n + 1, items, s =>
      match separator? s with
      | none => (items.reverse, s)
      | some rest =>
          let (a, rest) := item rest
          itemsFrom separator? item n (a :: items) rest

def separated {α : Type} (separator? : List Char → Option (List Char))
    (item : List Char → α × List Char) (n : Nat) (s : List Char) : List α × List Char :=
  let (a, rest) := item s
  itemsFrom separator? item n [a] rest

/-- The name between the brackets of a header. -/
def header? : List Char → Option (List Char)
  | '[' :: rest =>
      match upTo (· == [']']) rest with
      | (name, [']']) => some name
      | _ => none
  | _ => none

/-- The trimmed key and the trimmed value of an entry. -/
def keyValue? (s : List Char) : Option (List Char × List Char) :=
  match upTo (·.head? == some ':') s with
  | (key, ':' :: value) => some (trim key, trim value)
  | _ => none

def comma? : List Char → Option (List Char)
  | ',' :: rest => some rest
  | _ => none

def arrow? : List Char → Option (List Char)
  | '-' :: '>' :: rest => some rest
  | _ => none

def field (s : List Char) : List Char × List Char :=
  let (text, rest) := upTo (fun s => (comma? s).isSome || (arrow? s).isSome) s
  (trim text, rest)

/-- Reads a side of at most `n + 1` fields. -/
def side (n : Nat) (s : List Char) : List (List Char) × List Char :=
  separated comma? field n s

/-- The sides of a rule line. A line has no more separators than characters. -/
def sides? (s : List Char) : Option (List (List (List Char))) :=
  match separated arrow? (side s.length) s.length s with
  | (sides, []) => some sides
  | _ => none

end TapeMachine.Line
