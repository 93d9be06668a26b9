namespace TapeMachine.Text

/-- The characters with the Unicode property `White_Space`. -/
def isSpace (c : Char) : Bool :=
  let n := c.toNat
  (0x09 ≤ n && n ≤ 0x0D) || n == 0x20 || n == 0x85 || n == 0xA0 || n == 0x1680 ||
    (0x2000 ≤ n && n ≤ 0x200A) || n == 0x2028 || n == 0x2029 || n == 0x202F ||
    n == 0x205F || n == 0x3000

/-- Removes the characters that satisfy `p` from both ends of a text. -/
def strip (p : Char → Bool) (s : List Char) : List Char :=
  ((s.dropWhile p).reverse.dropWhile p).reverse

def trim (s : List Char) : List Char :=
  strip isSpace s

@[simp] theorem strip_nil (p : Char → Bool) : strip p [] = [] := rfl

@[simp] theorem trim_nil : trim [] = [] := rfl

theorem dropWhile_eq_self {p : Char → Bool} {s : List Char}
    (h : ∀ c, s.head? = some c → p c = false) : s.dropWhile p = s := by
  cases s with
  | nil => rfl
  | cons a rest => simp [h a rfl]

theorem isPrefix_strip (p : Char → Bool) (s : List Char) : strip p s <+: s.dropWhile p := by
  have h := List.reverse_prefix.mpr (List.dropWhile_suffix p (l := (s.dropWhile p).reverse))
  simpa [strip] using h

theorem head?_strip_not (p : Char → Bool) (s : List Char) {c : Char}
    (h : (strip p s).head? = some c) : p c = false := by
  obtain ⟨rest, hrest⟩ := isPrefix_strip p s
  have hfirst : (s.dropWhile p).head? = some c := by
    rw [← hrest, List.head?_append, h, Option.some_or]
  simpa only [hfirst] using List.head?_dropWhile_not p s

theorem getLast?_strip_not (p : Char → Bool) (s : List Char) {c : Char}
    (h : (strip p s).getLast? = some c) : p c = false := by
  have hfirst : ((s.dropWhile p).reverse.dropWhile p).head? = some c := by
    simpa [strip] using h
  simpa only [hfirst] using List.head?_dropWhile_not p (s.dropWhile p).reverse

theorem strip_eq_self {p : Char → Bool} {s : List Char}
    (hfirst : ∀ c, s.head? = some c → p c = false)
    (hlast : ∀ c, s.getLast? = some c → p c = false) : strip p s = s := by
  have hreverse : s.reverse.dropWhile p = s.reverse :=
    dropWhile_eq_self fun c hc => hlast c (by simpa using hc)
  simp [strip, dropWhile_eq_self hfirst, hreverse]

@[simp] theorem strip_strip (p : Char → Bool) (s : List Char) :
    strip p (strip p s) = strip p s :=
  strip_eq_self (fun _ h => head?_strip_not p s h) (fun _ h => getLast?_strip_not p s h)

@[simp] theorem trim_trim (s : List Char) : trim (trim s) = trim s :=
  strip_strip isSpace s

end TapeMachine.Text
