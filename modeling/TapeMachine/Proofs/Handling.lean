import TapeMachine.Proofs.Padding
import TapeMachine.Tape.Row

namespace TapeMachine

namespace Tape

/-- What can be done with a tape: one is made in its place, it is given fresh content, or it is
edited. -/
inductive Action where
  | new (blank : Char)
  | ofContent (content : String) (blank : Char)
  | restore (cells : List Char) (head : Nat) (blank : Char)
  | reset (content : Option String)
  | edit (e : Edit)
  deriving DecidableEq, Repr

def perform (t : Tape) : Action → Tape
  | .new blank => new blank
  | .ofContent content blank => ofContent content.toList blank
  | .restore cells head blank => restore cells head blank
  | .reset content => t.reset (content.getD "").toList
  | .edit e => t.edit e

def performAll (t : Tape) (actions : List Action) : Tape :=
  actions.foldl perform t

end Tape

namespace Row

open Tape (Action)

def edit? (r : Row) : Tape.Edit → Option Row
  | .write symbol => r.write? symbol
  | .moveLeft => some r.moveLeft
  | .moveRight => some r.moveRight

/-- Does with a row what is done with a tape, unless that misses the row. -/
def perform? (r : Row) : Action → Option Row
  | .new blank => some (ofContent [] blank)
  | .ofContent content blank => some (ofContent content.toList blank)
  | .restore cells head blank => some (restore cells head blank)
  | .reset content => some (ofContent (content.getD "").toList r.blank)
  | .edit e => r.edit? e

def performAll? (r : Row) : List Action → Option Row
  | [] => some r
  | action :: rest => (r.perform? action).bind (performAll? · rest)

/-- What can be relied on in a row: its head stands on a cell, so that it can be read and written,
it is what is restored from what it shows, and an edit does not touch the cells it is not about. -/
structure Sound (r : Row) : Prop where
  occupied : r.cells ≠ []
  head_lt : r.head < r.cells.length
  restored : restore r.cells r.head r.blank = r
  read : ∃ symbol, r.read? = some symbol
  write : ∀ symbol, ∃ written, r.write? symbol = some written ∧
    written.head = r.head ∧ written.blank = r.blank ∧
    ∀ i, written.cells[i]? = if i = r.head then some symbol else r.cells[i]?
  left : ∃ grown, (grown = [] ∨ grown = [r.blank]) ∧ r.moveLeft.cells = grown ++ r.cells ∧
    r.moveLeft.head + 1 = grown.length + r.head ∧ r.moveLeft.blank = r.blank
  right : ∃ grown, (grown = [] ∨ grown = [r.blank]) ∧ r.moveRight.cells = r.cells ++ grown ∧
    r.moveRight.head = r.head + 1 ∧ r.moveRight.blank = r.blank
  leftRight : r.moveLeft.moveRight.read? = r.read?
  rightLeft : r.moveRight.moveLeft.read? = r.read?

variable {r : Row}

theorem exists_write? (h : r.head < r.cells.length) (symbol : Char) :
    ∃ written, r.write? symbol = some written ∧
      written.head = r.head ∧ written.blank = r.blank ∧
      ∀ i, written.cells[i]? = if i = r.head then some symbol else r.cells[i]? := by
  refine ⟨_, if_pos h, rfl, rfl, ?_⟩
  intro i
  rw [List.getElem?_set]
  by_cases hi : i = r.head
  · subst hi
    rw [if_pos rfl, if_pos rfl, if_pos h]
  · rw [if_neg (Ne.symm hi), if_neg hi]

theorem exists_moveLeft (r : Row) :
    ∃ grown, (grown = [] ∨ grown = [r.blank]) ∧ r.moveLeft.cells = grown ++ r.cells ∧
      r.moveLeft.head + 1 = grown.length + r.head ∧ r.moveLeft.blank = r.blank := by
  unfold moveLeft
  split
  · rename_i hedge
    exact ⟨[r.blank], .inr rfl, rfl, by simp [Nat.add_comm], rfl⟩
  · rename_i hinside
    exact ⟨[], .inl rfl, rfl, by simp only [List.length_nil]; omega, rfl⟩

theorem exists_moveRight (r : Row) :
    ∃ grown, (grown = [] ∨ grown = [r.blank]) ∧ r.moveRight.cells = r.cells ++ grown ∧
      r.moveRight.head = r.head + 1 ∧ r.moveRight.blank = r.blank := by
  unfold moveRight
  split
  · exact ⟨[r.blank], .inr rfl, rfl, rfl, rfl⟩
  · exact ⟨[], .inl rfl, (List.append_nil _).symm, rfl, rfl⟩

end Row

namespace Tape

theorem symbol_moveLeft_moveRight (t : Tape) : t.moveLeft.moveRight.symbol = t.symbol := by
  have h := symbolAt_moveRight t.moveLeft 0
  rwa [symbolAt_moveLeft] at h

theorem symbol_moveRight_moveLeft (t : Tape) : t.moveRight.moveLeft.symbol = t.symbol := by
  have h := symbolAt_moveLeft t.moveRight 0
  rwa [symbolAt_moveRight] at h

theorem sound_row (t : Tape) : t.row.Sound where
  occupied := t.cells_ne_nil
  head_lt := t.length_cells.symm ▸ t.head_lt_length
  restored := by
    rw [← row_restore]
    exact congrArg row t.restore_cells_head
  read := ⟨t.symbol, t.read?_row⟩
  write := Row.exists_write? (t.length_cells.symm ▸ t.head_lt_length)
  left := t.row.exists_moveLeft
  right := t.row.exists_moveRight
  leftRight := by
    rw [← row_moveLeft, ← row_moveRight, read?_row, read?_row, symbol_moveLeft_moveRight]
  rightLeft := by
    rw [← row_moveRight, ← row_moveLeft, read?_row, read?_row, symbol_moveRight_moveLeft]

theorem perform?_row (t : Tape) (action : Action) :
    t.row.perform? action = some (t.perform action).row := by
  cases action with
  | new blank => exact congrArg some (row_ofContent [] blank).symm
  | ofContent content blank => exact congrArg some (row_ofContent content.toList blank).symm
  | restore cells head blank => exact congrArg some (row_restore cells head blank).symm
  | reset content => exact congrArg some (row_ofContent (content.getD "").toList t.blank).symm
  | edit e =>
      cases e with
      | write symbol => exact t.write?_row symbol
      | moveLeft => exact congrArg some t.row_moveLeft.symm
      | moveRight => exact congrArg some t.row_moveRight.symm

theorem performAll?_row (t : Tape) (actions : List Action) :
    t.row.performAll? actions = some (t.performAll actions).row := by
  induction actions generalizing t with
  | nil => rfl
  | cons action rest ih =>
      rw [Row.performAll?, perform?_row, Option.bind_some, ih]
      rfl

end Tape

/-- After any use, each step of which finds the cells that it reads and writes, a stored row is
sound, and the tape with which the same is done has this row and is what is restored from it. -/
theorem Row.sound_after_use (blank : Char) (actions : List Tape.Action) :
    ∃ r, (ofContent [] blank).performAll? actions = some r ∧ r.Sound ∧
      r = ((Tape.new blank).performAll actions).row ∧
      Tape.restore r.cells r.head r.blank = (Tape.new blank).performAll actions ∧
      ((Tape.new blank).performAll actions).isEmpty = false := by
  have hstart : (Tape.new blank).row = ofContent [] blank := Tape.row_ofContent [] blank
  refine ⟨((Tape.new blank).performAll actions).row, ?_, Tape.sound_row _, rfl,
    Tape.restore_cells_head _, ?_⟩
  · rw [← hstart]
    exact Tape.performAll?_row _ actions
  · rw [Tape.isEmpty, List.isEmpty_eq_false_iff]
    exact Tape.cells_ne_nil _

end TapeMachine
