namespace TapeMachine.Text

def lowerAscii (c : Char) : Char :=
  if 'A' ≤ c ∧ c ≤ 'Z' then Char.ofNat (c.toNat + 32) else c

/-- Lower case as far as a comparison with ASCII text can tell. The Kelvin sign is the one
character outside ASCII whose lower case lies in ASCII. -/
def lower (c : Char) : Char :=
  if c = '\u212A' then 'k' else lowerAscii c

/-- Equality of texts up to the case of the letters A to Z. -/
def sameLetters (s t : List Char) : Bool :=
  s.map lowerAscii == t.map lowerAscii

end TapeMachine.Text
