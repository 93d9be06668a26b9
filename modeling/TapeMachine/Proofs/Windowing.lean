import TapeMachine.Tape.Row

namespace TapeMachine

namespace Tape

variable (t : Tape) (size : Nat)

theorem window_cells_getElem?_head (h : 1 ≤ size) :
    (t.window size).cells[(t.window size).head]? = some t.symbol := by
  have hstart := t.windowStart_le_head size
  have hinside : t.head - t.windowStart size < size := by
    have hhead := t.head_lt_length
    unfold windowStart windowEnd
    omega
  have hhead : (t.window size).head = t.head - t.windowStart size := rfl
  rw [window_cells_eq_take, hhead, List.getElem?_take_of_lt hinside, List.getElem?_drop,
    Nat.add_sub_cancel' hstart]
  exact t.getElem?_cells_head

theorem window_head_of_fits (hleft : size / 2 ≤ t.head)
    (hright : t.head - size / 2 + size ≤ t.length) : (t.window size).head = size / 2 := by
  have hstart : t.windowStart size = t.head - size / 2 := by
    rw [windowStart_eq_min]
    omega
  change t.head - t.windowStart size = size / 2
  omega

theorem window?_row (hlength : t.length < UInt64.size / 4) (hsize : size < UInt64.size) :
    t.row.window? size = some (t.window size) := by
  have hhead := t.head_lt_length
  have hsum : Word.add? (t.head - size / 2) size = some (t.head - size / 2 + size) := by
    apply if_pos
    simp only [Text.wordBound, UInt64.size] at hlength hsize ⊢
    omega
  have hslice : t.row.slice? (t.windowStart size) (t.windowEnd size) =
      some (t.window size).cells := by
    have hrange : t.windowStart size ≤ t.windowEnd size ∧ t.windowEnd size ≤ t.row.cells.length :=
      ⟨Nat.sub_le .., t.length_cells.symm ▸ t.windowEnd_le_length size⟩
    rw [Row.slice?, if_pos hrange, List.drop_take, window_cells_eq]
    rfl
  have hdifference : Word.sub? t.head (t.windowStart size) =
      some (t.head - t.windowStart size) := if_pos (t.windowStart_le_head size)
  have hstop : min (t.head - size / 2 + size) t.row.cells.length = t.windowEnd size :=
    congrArg (min _) t.length_cells
  calc
    _ = (t.row.slice? (t.windowStart size) (t.windowEnd size)).bind fun cells =>
          (Word.sub? t.head (t.windowStart size)).map fun head =>
            ⟨cells, head, t.windowStart size⟩ := by
      rw [Row.window?, show t.row.head = t.head from rfl, hsum, Option.bind_some, hstop]
      rfl
    _ = _ := by
      rw [hslice, hdifference]
      rfl

end Tape

namespace Row

/-- The window on a row that has fewer than 2^62 cells: its arithmetic stays within the machine words
and its range within the row, it is as full as the row allows, and the head stands on one of its
cells, in the middle unless an end of the row is near. -/
theorem window?_full_in_range (r : Row) (size : Nat) (hhead : r.head < r.cells.length)
    (hlength : r.cells.length < UInt64.size / 4) (hsize : size < UInt64.size) :
    ∃ w, r.window? size = some w ∧
      w = (Tape.restore r.cells r.head r.blank).window size ∧
      w.cells = (r.cells.drop w.offset).take size ∧
      w.cells.length = min size r.cells.length ∧
      w.offset = min (r.head - size / 2) (r.cells.length - size) ∧
      w.offset ≤ r.head ∧ w.head = r.head - w.offset ∧
      (1 ≤ size → w.head < w.cells.length ∧
        ∃ symbol, r.read? = some symbol ∧ w.cells[w.head]? = some symbol) ∧
      (size / 2 ≤ r.head → r.head - size / 2 + size ≤ r.cells.length → w.head = size / 2) := by
  obtain ⟨t, ht, rfl⟩ : ∃ t, t = Tape.restore r.cells r.head r.blank ∧ t.row = r :=
    ⟨_, rfl, Tape.row_restore_of_head_lt hhead⟩
  have hcells : t.row.cells.length = t.length := t.length_cells
  rw [hcells] at hlength ⊢
  refine ⟨t.window size, t.window?_row size hlength hsize, congrArg (Tape.window · size) ht,
    t.window_cells_eq_take size, t.length_window_cells size, t.windowStart_eq_min size,
    t.windowStart_le_head size, rfl, ?_, t.window_head_of_fits size⟩
  intro hpositive
  have hshown := t.window_cells_getElem?_head size hpositive
  exact ⟨(List.getElem?_eq_some_iff.mp hshown).1, t.symbol, t.read?_row, hshown⟩

theorem letters_window?_full_in_range :
    let r : Row := ⟨['a', 'b', 'c', 'd', 'e'], 3, '_'⟩
    r.head < r.cells.length ∧ r.cells.length < UInt64.size / 4 ∧ 4 < UInt64.size ∧
      UInt64.size - 1 < UInt64.size ∧
      (∃ w, r.window? 4 = some w ∧ w = ⟨['b', 'c', 'd', 'e'], 2, 1⟩ ∧ w.head = 4 / 2 ∧
        ∃ symbol, r.read? = some symbol ∧ w.cells[w.head]? = some symbol) ∧
      ∃ w, r.window? (UInt64.size - 1) = some w ∧ w.cells = r.cells ∧ w.head = r.head := by
  intro r
  have hhead : r.head < r.cells.length := by decide
  have hlength : r.cells.length < UInt64.size / 4 := by decide
  have hsmall : 4 < UInt64.size := by decide
  have hlarge : UInt64.size - 1 < UInt64.size := by decide
  refine ⟨hhead, hlength, hsmall, hlarge, ?_, ?_⟩
  · obtain ⟨w, hw, htape, -, -, -, -, -, hshown, hmiddle⟩ :=
      window?_full_in_range r 4 hhead hlength hsmall
    exact ⟨w, hw, htape.trans (by decide), hmiddle (by decide) (by decide),
      (hshown (by decide)).2⟩
  · obtain ⟨w, hw, -, hcells, -, hoffset, -, hwindow, -, -⟩ :=
      window?_full_in_range r (UInt64.size - 1) hhead hlength hlarge
    have hzero : w.offset = 0 := hoffset.trans (by decide)
    rw [hzero] at hcells hwindow
    exact ⟨w, hw, hcells.trans (by decide), hwindow⟩

end Row

end TapeMachine
