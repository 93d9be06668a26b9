import TapeMachine.Machine.Run

/-!
The textbook machine, whose tape is infinite in both directions and whose cells are numbered by
the integers. It knows neither a row of stored cells nor a ceiling nor stopping states: it goes on
for as long as a rule applies.
-/

namespace TapeMachine

def Move.offset : Move → Int
  | .left => -1
  | .right => 1
  | .stay => 0

/-- A state, the position of the head and the symbol in every cell. -/
@[ext] structure Infinite where
  state : String
  position : Int
  cells : Int → Char

namespace Infinite

/-- The initial configuration on an input that begins in cell zero. -/
def start (p : Program) (input : List Char) : Infinite where
  state := p.initial
  position := 0
  cells
    | .ofNat n => input.getD n p.blank
    | .negSucc _ => p.blank

def follow (c : Infinite) (r : Rule) : Infinite where
  state := r.next
  position := c.position + r.move.offset
  cells := fun i => if i = c.position then r.write else c.cells i

def next? (p : Program) (c : Infinite) : Option Infinite :=
  (p.table.lookup c.state (c.cells c.position)).map c.follow

/-- The configuration after `n` steps, if as many are possible. -/
def after? (p : Program) : Nat → Infinite → Option Infinite
  | 0, c => some c
  | n + 1, c => (c.next? p).bind (after? p n)

def symbolAt (c : Infinite) (d : Int) : Char :=
  c.cells (c.position + d)

/-- A stored configuration shows the same as an infinite one if their states agree and so do their
symbols at every distance from the head. -/
def Shows (c : Infinite) (state : String) (t : Tape) : Prop :=
  c.state = state ∧ ∀ d, c.symbolAt d = t.symbolAt d

theorem symbolAt_follow (c : Infinite) (r : Rule) (d : Int) :
    (c.follow r).symbolAt d =
      if d + r.move.offset = 0 then r.write else c.symbolAt (d + r.move.offset) := by
  simp only [symbolAt, follow]
  by_cases h : d + r.move.offset = 0
  · rw [if_pos h, if_pos (by omega)]
  · rw [if_neg h, if_neg (by omega)]
    congr 1
    omega

theorem symbolAt_apply (r : Rule) (t : Tape) (d : Int) :
    (r.apply t).symbolAt d =
      if d + r.move.offset = 0 then r.write else t.symbolAt (d + r.move.offset) := by
  unfold Rule.apply
  cases r.move with
  | left => exact (Tape.symbolAt_moveLeft _ d).trans (Tape.symbolAt_write t r.write (d - 1))
  | right => exact (Tape.symbolAt_moveRight _ d).trans (Tape.symbolAt_write t r.write (d + 1))
  | stay => simpa [Tape.move, Move.offset] using Tape.symbolAt_write t r.write d

/-- Carrying out a rule keeps a stored configuration in step with an infinite one, also where the
row of stored cells grows. -/
theorem shows_follow {c : Infinite} {state : String} {t : Tape} (h : c.Shows state t) (r : Rule) :
    (c.follow r).Shows r.next (r.apply t) := by
  refine ⟨rfl, fun d => ?_⟩
  rw [symbolAt_follow, symbolAt_apply, h.2]

end Infinite

end TapeMachine
