namespace TapeMachine

inductive Move where
  | left
  | right
  | stay
  deriving DecidableEq, Repr

namespace Move

def letter : Move → Char
  | .left => 'L'
  | .right => 'R'
  | .stay => 'S'

def ofToken? : List Char → Option Move
  | ['L'] | ['l'] => some .left
  | ['R'] | ['r'] => some .right
  | ['S'] | ['s'] => some .stay
  | _ => none

@[simp] theorem ofToken?_letter (move : Move) : ofToken? [move.letter] = some move := by
  cases move <;> rfl

end Move

/-- A rule applies in `state` when the head reads `read`. -/
structure Rule where
  state : String
  read : Char
  write : Char
  move : Move
  next : String
  deriving DecidableEq, Repr

namespace Rule

/-- What a rule is found by: its state and the symbol that it reads. -/
@[inline] def key (r : Rule) : String × Char :=
  (r.state, r.read)

def display (r : Rule) : String :=
  "δ(" ++ r.state ++ ", " ++ r.read.toString ++ ") = (" ++ r.next ++ ", " ++ r.write.toString ++
    ", " ++ r.move.letter.toString ++ ")"

end Rule

end TapeMachine
