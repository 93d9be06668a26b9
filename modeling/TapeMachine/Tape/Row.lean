import TapeMachine.Tape.Window
import TapeMachine.Text.Decimal

/-!
Tapes as they are stored: a row of cells and the index of the cell under the head. Nothing but the
operations keeps the head on the row, so whatever reads or writes a cell by its index, or computes
with indices, may have no result. The operations on a tape never miss its stored row.
-/

namespace TapeMachine

namespace Word

/-- The sum of two machine words, if it is a machine word. -/
def add? (a b : Nat) : Option Nat :=
  if a + b < Text.wordBound then some (a + b) else none

def sub? (a b : Nat) : Option Nat :=
  if b ≤ a then some (a - b) else none

end Word

structure Row where
  cells : List Char
  head : Nat
  blank : Char
  deriving DecidableEq, Repr

namespace Row

def ofContent (content : List Char) (blank : Char) : Row :=
  let pad := List.replicate Tape.padding blank
  ⟨pad ++ content ++ pad, Tape.padding, blank⟩

def restore (cells : List Char) (head : Nat) (blank : Char) : Row :=
  if cells = [] then ofContent [] blank else ⟨cells, min head (cells.length - 1), blank⟩

def read? (r : Row) : Option Char :=
  r.cells[r.head]?

def write? (r : Row) (symbol : Char) : Option Row :=
  if r.head < r.cells.length then some { r with cells := r.cells.set r.head symbol } else none

def moveLeft (r : Row) : Row :=
  if r.head = 0 then { r with cells := r.blank :: r.cells } else { r with head := r.head - 1 }

def moveRight (r : Row) : Row :=
  if r.cells.length ≤ r.head + 1 then
    { r with cells := r.cells ++ [r.blank], head := r.head + 1 }
  else { r with head := r.head + 1 }

/-- The cells from one index up to another one, which must stand in this order in the row. -/
def slice? (r : Row) (start stop : Nat) : Option (List Char) :=
  if start ≤ stop ∧ stop ≤ r.cells.length then some ((r.cells.take stop).drop start) else none

def window? (r : Row) (size : Nat) : Option Window :=
  (Word.add? (r.head - size / 2) size).bind fun sum =>
    let stop := min sum r.cells.length
    let start := stop - size
    (r.slice? start stop).bind fun cells =>
      (Word.sub? r.head start).map fun head => ⟨cells, head, start⟩

end Row

namespace Tape

def row (t : Tape) : Row :=
  ⟨t.cells, t.head, t.blank⟩

theorem row_ofContent (content : List Char) (blank : Char) :
    (ofContent content blank).row = Row.ofContent content blank := by
  simp only [row, cells_ofContent, head_ofContent, blank_ofContent]
  rfl

theorem row_seek (blank : Char) (n : Nat) (left : List Char) (c : Char) (right : List Char) :
    (seek blank n left c right).row =
      ⟨left.reverse ++ c :: right, left.length + min n right.length, blank⟩ := by
  induction n generalizing left c right with
  | zero => simp [seek, row, cells, head]
  | succ n ih =>
      cases right with
      | nil => simp [seek, row, cells, head]
      | cons d right =>
          have hhead : left.length + 1 + min n right.length =
              left.length + min (n + 1) (right.length + 1) := by omega
          rw [seek, ih, List.length_cons, List.length_cons, hhead, List.reverse_cons,
            List.append_assoc]
          rfl

theorem row_restore (cells : List Char) (head : Nat) (blank : Char) :
    (restore cells head blank).row = Row.restore cells head blank := by
  cases cells with
  | nil => exact row_ofContent [] blank
  | cons c rest =>
      rw [restore, row_seek, Row.restore, if_neg (List.cons_ne_nil c rest), List.length_nil,
        Nat.zero_add]
      rfl

theorem read?_row (t : Tape) : t.row.read? = some t.symbol :=
  t.getElem?_cells_head

theorem write?_row (t : Tape) (symbol : Char) : t.row.write? symbol = some (t.write symbol).row := by
  have hhead : t.row.head < t.row.cells.length := by
    simpa [row] using t.head_lt_length
  have hcells : t.cells.set t.head symbol = (t.write symbol).cells := by
    rw [cells_write, cells, head, List.set_append, List.length_reverse, if_neg (Nat.lt_irrefl _),
      Nat.sub_self, List.set_cons_zero]
  rw [Row.write?, if_pos hhead]
  simp only [row, hcells, head_write, blank_write]

theorem row_moveLeft (t : Tape) : t.moveLeft.row = t.row.moveLeft := by
  by_cases hedge : t.head = 0
  · rw [Row.moveLeft, if_pos (show t.row.head = 0 from hedge)]
    simp [row, cells_moveLeft, head_moveLeft, hedge]
  · rw [Row.moveLeft, if_neg (show ¬ t.row.head = 0 from hedge)]
    simp [row, cells_moveLeft, head_moveLeft, hedge]

theorem row_moveRight (t : Tape) : t.moveRight.row = t.row.moveRight := by
  have hhead := t.head_lt_length
  simp only [row, Row.moveRight, cells_moveRight, head_moveRight, blank_moveRight, length_cells]
  by_cases hedge : t.head + 1 = t.length
  · rw [if_pos hedge, if_pos (by omega)]
  · rw [if_neg hedge, if_neg (by omega)]

theorem row_restore_of_head_lt {r : Row} (h : r.head < r.cells.length) :
    (restore r.cells r.head r.blank).row = r := by
  have hcells : r.cells ≠ [] := List.ne_nil_of_length_pos (by omega)
  rw [row_restore, Row.restore, if_neg hcells, Nat.min_eq_left (by omega)]

end Tape

end TapeMachine
