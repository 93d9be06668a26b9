import TapeMachine.Text.Space

/-!
The tape of a machine: a row of cells with a head on one of them. Every cell outside the row is
blank, and the row grows by one blank cell when the head leaves it.
-/

namespace TapeMachine

def defaultBlank : Char := '_'

/-- A row of cells around its head. The cells on the left are listed from the head outwards, so
that the row is never empty and the head always stands on a cell. -/
structure Tape where
  left : List Char
  symbol : Char
  right : List Char
  blank : Char
  deriving DecidableEq, Repr

namespace Tape

/-- The number of blank cells on each side of fresh content. -/
def padding : Nat := 10

/-- A tape whose head stands on the first character of `content`, between blank cells. -/
def ofContent (content : List Char) (blank : Char) : Tape :=
  let pad := List.replicate padding blank
  match content with
  | [] => ⟨pad, blank, List.replicate (padding - 1) blank, blank⟩
  | c :: rest => ⟨pad, c, rest ++ pad, blank⟩

def new (blank : Char) : Tape :=
  ofContent [] blank

/-- Walks right from a cell, as far as there are cells. -/
def seek (blank : Char) : Nat → List Char → Char → List Char → Tape
  | 0, left, c, right => ⟨left, c, right, blank⟩
  | _ + 1, left, c, [] => ⟨left, c, [], blank⟩
  | n + 1, left, c, d :: right => seek blank n (c :: left) d right

/-- The tape with the given row of cells. A head beyond the row stands on its last cell, and
without cells the tape is blank. -/
def restore (cells : List Char) (head : Nat) (blank : Char) : Tape :=
  match cells with
  | [] => new blank
  | c :: rest => seek blank head [] c rest

/-- The row of cells from left to right. -/
def cells (t : Tape) : List Char :=
  t.left.reverse ++ t.symbol :: t.right

def head (t : Tape) : Nat :=
  t.left.length

def length (t : Tape) : Nat :=
  t.left.length + 1 + t.right.length

def isEmpty (t : Tape) : Bool :=
  t.cells.isEmpty

/-- The symbol at a distance from the head, to the right of it if the distance is positive. -/
def symbolAt (t : Tape) : Int → Char
  | .ofNat 0 => t.symbol
  | .ofNat (n + 1) => t.right.getD n t.blank
  | .negSucc n => t.left.getD n t.blank

def write (t : Tape) (symbol : Char) : Tape :=
  { t with symbol }

def moveLeft (t : Tape) : Tape :=
  match t.left with
  | [] => { t with symbol := t.blank, right := t.symbol :: t.right }
  | c :: left => { t with left, symbol := c, right := t.symbol :: t.right }

def moveRight (t : Tape) : Tape :=
  match t.right with
  | [] => { t with left := t.symbol :: t.left, symbol := t.blank }
  | c :: right => { t with left := t.symbol :: t.left, symbol := c, right }

def reset (t : Tape) (content : List Char) : Tape :=
  ofContent content t.blank

/-- The row of cells without the blanks at both ends. -/
def content (t : Tape) : String :=
  String.ofList (Text.strip (· == t.blank) t.cells)

/-- The row of cells, with a caret under the head on a line of its own. -/
def display (t : Tape) : String :=
  String.ofList (t.cells ++ '\n' :: (List.replicate t.head ' ' ++ ['^']))

@[simp] theorem length_cells (t : Tape) : t.cells.length = t.length := by
  simp only [cells, length, List.length_append, List.length_reverse, List.length_cons]
  omega

theorem head_lt_length (t : Tape) : t.head < t.length := by
  simp only [head, length]
  omega

theorem cells_ne_nil (t : Tape) : t.cells ≠ [] := by
  simp [cells]

theorem getElem?_cells_head (t : Tape) : t.cells[t.head]? = some t.symbol := by
  have hlength : t.left.reverse.length = t.head := List.length_reverse
  unfold cells
  rw [List.getElem?_append_right (by omega), hlength, Nat.sub_self]
  rfl

@[simp] theorem cells_write (t : Tape) (c : Char) :
    (t.write c).cells = t.left.reverse ++ c :: t.right := rfl

@[simp] theorem head_write (t : Tape) (c : Char) : (t.write c).head = t.head := rfl

@[simp] theorem blank_write (t : Tape) (c : Char) : (t.write c).blank = t.blank := rfl

@[simp] theorem blank_moveLeft (t : Tape) : t.moveLeft.blank = t.blank := by
  unfold moveLeft
  split <;> rfl

@[simp] theorem blank_moveRight (t : Tape) : t.moveRight.blank = t.blank := by
  unfold moveRight
  split <;> rfl

theorem cells_moveLeft (t : Tape) :
    t.moveLeft.cells = if t.head = 0 then t.blank :: t.cells else t.cells := by
  rcases t with ⟨_ | ⟨c, left⟩, symbol, right, blank⟩ <;> simp [moveLeft, cells, head]

theorem head_moveLeft (t : Tape) : t.moveLeft.head = t.head - 1 := by
  rcases t with ⟨_ | ⟨c, left⟩, symbol, right, blank⟩ <;> simp [moveLeft, head]

theorem cells_moveRight (t : Tape) :
    t.moveRight.cells = if t.head + 1 = t.length then t.cells ++ [t.blank] else t.cells := by
  rcases t with ⟨left, symbol, _ | ⟨c, right⟩, blank⟩ <;> simp [moveRight, cells, head, length]

theorem head_moveRight (t : Tape) : t.moveRight.head = t.head + 1 := by
  rcases t with ⟨left, symbol, _ | ⟨c, right⟩, blank⟩ <;> simp [moveRight, head]

@[simp] theorem blank_ofContent (content : List Char) (blank : Char) :
    (ofContent content blank).blank = blank := by
  cases content <;> rfl

@[simp] theorem head_ofContent (content : List Char) (blank : Char) :
    (ofContent content blank).head = padding := by
  cases content <;> simp [ofContent, head]

theorem cells_ofContent (content : List Char) (blank : Char) :
    (ofContent content blank).cells =
      List.replicate padding blank ++ content ++ List.replicate padding blank := by
  cases content with
  | nil => simp [ofContent, cells, padding, List.replicate_succ]
  | cons c rest => simp [ofContent, cells]

theorem seek_append (blank : Char) (between left : List Char) (c d : Char) (right : List Char) :
    seek blank (between.length + 1) left c (between ++ d :: right) =
      ⟨between.reverse ++ c :: left, d, right, blank⟩ := by
  induction between generalizing left c with
  | nil => simp [seek]
  | cons e rest ih => simp [seek, ih]

theorem restore_cells_head (t : Tape) : restore t.cells t.head t.blank = t := by
  rcases t with ⟨left, symbol, right, blank⟩
  rcases hleft : left.reverse with _ | ⟨c, between⟩
  · have hnil : left = [] := by simpa using hleft
    subst hnil
    simp [restore, cells, head, seek]
  · have hcons : left = between.reverse ++ [c] := by
      rw [← List.reverse_reverse left, hleft, List.reverse_cons]
    subst hcons
    simp [restore, cells, head, seek_append]

theorem symbolAt_write (t : Tape) (c : Char) (d : Int) :
    (t.write c).symbolAt d = if d = 0 then c else t.symbolAt d := by
  match d with
  | .ofNat 0 => rfl
  | .ofNat (n + 1) => rfl
  | .negSucc n => rfl

theorem symbolAt_moveLeft (t : Tape) (d : Int) :
    t.moveLeft.symbolAt d = t.symbolAt (d - 1) := by
  rcases t with ⟨_ | ⟨c, left⟩, symbol, right, blank⟩
  · match d with
    | .ofNat 0 => rfl
    | .ofNat 1 => rfl
    | .ofNat (n + 2) =>
        have hpred : Int.ofNat (n + 2) - 1 = Int.ofNat (n + 1) := by
          simp only [Int.ofNat_eq_natCast]
          omega
        rw [hpred]
        rfl
    | .negSucc n => rfl
  · match d with
    | .ofNat 0 => rfl
    | .ofNat 1 => rfl
    | .ofNat (n + 2) =>
        have hpred : Int.ofNat (n + 2) - 1 = Int.ofNat (n + 1) := by
          simp only [Int.ofNat_eq_natCast]
          omega
        rw [hpred]
        rfl
    | .negSucc n => rfl

theorem symbolAt_moveRight (t : Tape) (d : Int) :
    t.moveRight.symbolAt d = t.symbolAt (d + 1) := by
  rcases t with ⟨left, symbol, _ | ⟨c, right⟩, blank⟩
  · match d with
    | .ofNat 0 => rfl
    | .ofNat (n + 1) => rfl
    | .negSucc 0 => rfl
    | .negSucc (n + 1) => rfl
  · match d with
    | .ofNat 0 => rfl
    | .ofNat (n + 1) => rfl
    | .negSucc 0 => rfl
    | .negSucc (n + 1) => rfl

end Tape

end TapeMachine
