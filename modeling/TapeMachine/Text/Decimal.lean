namespace TapeMachine.Text

def digitValue? (c : Char) : Option Nat :=
  if '0' ≤ c ∧ c ≤ '9' then some (c.toNat - '0'.toNat) else none

/-- The number that a list of digits denotes, its most significant digit first, where `value` is
denoted by the digits before them. -/
def digitsValue? (value : Nat) : List Char → Option Nat
  | [] => some value
  | c :: rest => (digitValue? c).bind fun digit => digitsValue? (10 * value + digit) rest

/-- Reads one or more digits, after an optional plus sign. -/
def readDigits? : List Char → Option Nat
  | '+' :: c :: rest => digitsValue? 0 (c :: rest)
  | c :: rest => digitsValue? 0 (c :: rest)
  | [] => none

/-- One more than the largest number that a definition or an option can hold. -/
def wordBound : Nat := UInt64.size

def readWord? (s : List Char) : Option Nat :=
  (readDigits? s).filter (· < wordBound)

@[simp] theorem readWord?_nil : readWord? [] = none := rfl

end TapeMachine.Text
