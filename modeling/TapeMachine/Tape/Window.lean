import TapeMachine.Tape.Basic

namespace TapeMachine

def defaultWindowSize : Nat := 20

/-- Consecutive cells of a tape: the position of the head among them and the position of the first
of them in the row. -/
structure Window where
  cells : List Char
  head : Nat
  offset : Nat
  deriving DecidableEq, Repr

namespace Tape

/-- The position after the last cell of a window: half of the size before the head, a whole size
further, and not beyond the row. -/
def windowEnd (t : Tape) (size : Nat) : Nat :=
  min (t.head - size / 2 + size) t.length

/-- The position of the first cell of a window, which slides left to stay full at the right end. -/
def windowStart (t : Tape) (size : Nat) : Nat :=
  t.windowEnd size - size

def window (t : Tape) (size : Nat) : Window :=
  let start := t.windowStart size
  let stop := t.windowEnd size
  { cells := (t.left.take (t.head - start)).reverse ++ (t.symbol :: t.right).take (stop - t.head)
    head := t.head - start
    offset := start }

theorem windowEnd_le_length (t : Tape) (size : Nat) : t.windowEnd size ≤ t.length :=
  Nat.min_le_right ..

theorem head_le_windowEnd (t : Tape) (size : Nat) : t.head ≤ t.windowEnd size := by
  have hhead := t.head_lt_length
  unfold windowEnd
  omega

theorem windowStart_le_head (t : Tape) (size : Nat) : t.windowStart size ≤ t.head := by
  unfold windowStart windowEnd
  omega

theorem window_cells_eq (t : Tape) (size : Nat) :
    (t.window size).cells =
      (t.cells.drop (t.windowStart size)).take (t.windowEnd size - t.windowStart size) := by
  have hstart := t.windowStart_le_head size
  have hend := t.head_le_windowEnd size
  have hlength : t.left.reverse.length = t.head := List.length_reverse
  have hdrop : (t.left.take (t.head - t.windowStart size)).reverse =
      t.left.reverse.drop (t.windowStart size) := by
    rw [List.drop_reverse]
    rfl
  have hlengthDrop :
      (t.left.reverse.drop (t.windowStart size)).length = t.head - t.windowStart size := by
    rw [List.length_drop, hlength]
  have htake : (t.left.reverse.drop (t.windowStart size)).take
      (t.windowEnd size - t.windowStart size) = t.left.reverse.drop (t.windowStart size) :=
    List.take_of_length_le (by omega)
  simp only [window, cells, hdrop]
  rw [List.drop_append_of_le_length (by omega), List.take_append, htake, hlengthDrop]
  congr 2
  omega

theorem windowStart_eq_min (t : Tape) (size : Nat) :
    t.windowStart size = min (t.head - size / 2) (t.length - size) := by
  unfold windowStart windowEnd
  omega

theorem window_cells_eq_take (t : Tape) (size : Nat) :
    (t.window size).cells = (t.cells.drop (t.windowStart size)).take size := by
  have hhead := t.head_lt_length
  rw [window_cells_eq, List.take_eq_take_iff, List.length_drop, length_cells]
  unfold windowStart windowEnd
  omega

theorem length_window_cells (t : Tape) (size : Nat) :
    (t.window size).cells.length = min size t.length := by
  have hhead := t.head_lt_length
  rw [window_cells_eq, List.length_take, List.length_drop, length_cells]
  unfold windowStart windowEnd
  omega

end Tape

def Window.display (w : Window) : String :=
  "  " ++ String.ofList w.cells ++ "\n  " ++ String.ofList (List.replicate w.head ' ' ++ ['^']) ++
    "\n"

end TapeMachine
