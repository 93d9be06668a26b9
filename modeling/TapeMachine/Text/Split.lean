import TapeMachine.Text.Space

namespace TapeMachine.Text

/-- The lines of a text, each with its number, counted from one. -/
def numberedLines (s : List Char) : List (List Char × Nat) :=
  (s.splitOn '\n').zipIdx 1

def commaFields (s : List Char) : List (List Char) :=
  (s.splitOn ',').map trim

/-- The items of a comma separated list: its trimmed pieces without the empty ones. -/
def commaItems (s : List Char) : List (List Char) :=
  (commaFields s).filter fun item => !item.isEmpty

/-- The pieces of a text around its arrows, found from left to right, where `piece` is what has
been read of the first of them, backwards. -/
def splitArrowsFrom (piece : List Char) : List Char → List (List Char)
  | [] => [piece.reverse]
  | '-' :: '>' :: rest => piece.reverse :: splitArrowsFrom [] rest
  | c :: rest => splitArrowsFrom (c :: piece) rest

def splitArrows (s : List Char) : List (List Char) :=
  splitArrowsFrom [] s

theorem splitArrowsFrom_cons_of_not {c : Char} {rest : List Char} (piece : List Char)
    (h : ∀ tail, c = '-' → rest = '>' :: tail → False) :
    splitArrowsFrom piece (c :: rest) = splitArrowsFrom (c :: piece) rest := by
  rw [splitArrowsFrom]
  exact h

theorem splitArrowsFrom_eq_modifyHead (piece s : List Char) :
    splitArrowsFrom piece s = (splitArrows s).modifyHead (piece.reverse ++ ·) := by
  unfold splitArrows
  induction s generalizing piece with
  | nil => simp [splitArrowsFrom]
  | cons c rest ih =>
      by_cases harrow : ∃ tail, c = '-' ∧ rest = '>' :: tail
      · obtain ⟨tail, rfl, rfl⟩ := harrow
        simp [splitArrowsFrom]
      · have hnot : ∀ tail, c = '-' → rest = '>' :: tail → False :=
          fun tail hc hrest => harrow ⟨tail, hc, hrest⟩
        rw [splitArrowsFrom_cons_of_not _ hnot, splitArrowsFrom_cons_of_not _ hnot,
          ih (c :: piece), ih [c], List.modifyHead_modifyHead]
        congr 1
        funext s
        simp

@[simp] theorem splitArrows_nil : splitArrows [] = [[]] := rfl

@[simp] theorem splitArrows_arrow (rest : List Char) :
    splitArrows ('-' :: '>' :: rest) = [] :: splitArrows rest := rfl

theorem splitArrows_cons {c : Char} {rest : List Char}
    (h : ∀ tail, c = '-' → rest = '>' :: tail → False) :
    splitArrows (c :: rest) = (splitArrows rest).modifyHead (c :: ·) := by
  rw [splitArrows, splitArrowsFrom_cons_of_not [] h, splitArrowsFrom_eq_modifyHead]
  rfl

end TapeMachine.Text
