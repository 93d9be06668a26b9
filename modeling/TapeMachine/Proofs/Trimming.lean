import Mathlib.Data.List.DropRight
import TapeMachine.Proofs.Splitting

namespace TapeMachine.Text

variable {c : Char} {s t : List Char}

def trimEnd (s : List Char) : List Char :=
  (s.reverse.dropWhile isSpace).reverse

theorem trim_eq_trimEnd (s : List Char) : trim s = trimEnd (s.dropWhile isSpace) := rfl

theorem dropWhile_append_cons (h : isSpace c = false) (s t : List Char) :
    (s ++ c :: t).dropWhile isSpace = s.dropWhile isSpace ++ c :: t := by
  induction s with
  | nil => simp [h]
  | cons d s ih =>
      cases hd : isSpace d <;> simp [hd, ih]

theorem trimEnd_append_cons (h : isSpace c = false) (s t : List Char) :
    trimEnd (s ++ c :: t) = s ++ c :: trimEnd t := by
  have hreverse : (s ++ c :: t).reverse = t.reverse ++ c :: s.reverse := by simp
  rw [trimEnd, hreverse, dropWhile_append_cons h]
  simp [trimEnd]

theorem trim_append_cons (h : isSpace c = false) (s t : List Char) :
    trim (s ++ c :: t) = s.dropWhile isSpace ++ c :: trimEnd t := by
  rw [trim_eq_trimEnd, dropWhile_append_cons h, trimEnd_append_cons h]

theorem trim_cons_of_isSpace (h : isSpace c = true) (s : List Char) : trim (c :: s) = trim s := by
  rw [trim_eq_trimEnd, List.dropWhile_cons_of_pos h, ← trim_eq_trimEnd]

theorem trimEnd_cons_of_isSpace (h : isSpace c = true) (s : List Char) :
    trimEnd (c :: s) = if trimEnd s = [] then [] else c :: trimEnd s := by
  unfold trimEnd
  rw [List.reverse_cons, List.dropWhile_append]
  cases s.reverse.dropWhile isSpace <;> simp [h]

theorem trimEnd_prefix (s : List Char) : trimEnd s <+: s :=
  List.rdropWhile_prefix isSpace s

/-- The two ends of a text are trimmed in either order. -/
theorem dropWhile_trimEnd (s : List Char) :
    (trimEnd s).dropWhile isSpace = trimEnd (s.dropWhile isSpace) := by
  induction s with
  | nil => rfl
  | cons c s ih =>
      cases hc : isSpace c with
      | false =>
          rw [← List.nil_append (c :: s), trimEnd_append_cons hc, dropWhile_append_cons hc,
            dropWhile_append_cons hc, trimEnd_append_cons hc]
      | true =>
          rw [List.dropWhile_cons_of_pos hc, ← ih, trimEnd_cons_of_isSpace hc]
          split
          · rename_i hempty
            rw [hempty]
          · rw [List.dropWhile_cons_of_pos hc]

theorem trimEnd_trimEnd (s : List Char) : trimEnd (trimEnd s) = trimEnd s :=
  List.rdropWhile_idempotent isSpace s

theorem trim_trimEnd (s : List Char) : trim (trimEnd s) = trim s := by
  rw [trim_eq_trimEnd, dropWhile_trimEnd, trimEnd_trimEnd, ← trim_eq_trimEnd]

theorem trim_append_of_spaces {text back : List Char} (h : ∀ c ∈ back, isSpace c = true) :
    trim (text ++ back) = trim text := by
  have hend : trimEnd (text ++ back) = trimEnd text := by
    rw [trimEnd, List.reverse_append, List.dropWhile_append_of_pos]
    · rfl
    · intro c hc
      exact h c (List.mem_reverse.mp hc)
  rw [← trim_trimEnd, hend, trim_trimEnd]

theorem trim_surrounded {front back : List Char} (hfront : ∀ c ∈ front, isSpace c = true)
    (hback : ∀ c ∈ back, isSpace c = true) (text : List Char) :
    trim (front ++ (text ++ back)) = trim text := by
  induction front with
  | nil => exact trim_append_of_spaces hback
  | cons c front ih =>
      rw [List.forall_mem_cons] at hfront
      rw [List.cons_append, trim_cons_of_isSpace hfront.1, ih hfront.2]

theorem trim_map {fold : Char → Char} (h : ∀ c, isSpace (fold c) = isSpace c) (s : List Char) :
    trim (s.map fold) = (trim s).map fold := by
  have hspace : isSpace ∘ fold = isSpace := funext h
  simp only [trim, strip, List.dropWhile_map, ← List.map_reverse, hspace]

theorem trim_eq_self_iff : trim s = s ↔ (∀ c, s.head? = some c → isSpace c = false) ∧
    ∀ c, s.getLast? = some c → isSpace c = false := by
  constructor
  · intro h
    rw [← h]
    exact ⟨fun _ => head?_strip_not isSpace s, fun _ => getLast?_strip_not isSpace s⟩
  · rintro ⟨hfirst, hlast⟩
    exact strip_eq_self hfirst hlast

theorem dropWhile_of_trimmed (h : trim s = s) : s.dropWhile isSpace = s :=
  dropWhile_eq_self (trim_eq_self_iff.mp h).1

/-- Only the outer ends of a composed text matter to trimming. -/
theorem trim_append_of_trimmed (hs : trim s = s) (ht : trim t = t) (hs' : s ≠ []) (ht' : t ≠ [])
    (middle : List Char) : trim (s ++ (middle ++ t)) = s ++ (middle ++ t) := by
  rw [trim_eq_self_iff]
  constructor
  · intro c hc
    rw [List.head?_append_of_ne_nil _ hs'] at hc
    exact (trim_eq_self_iff.mp hs).1 c hc
  · intro c hc
    have hne : middle ++ t ≠ [] := by simp [ht']
    rw [List.getLast?_append_of_ne_nil _ hne, List.getLast?_append_of_ne_nil _ ht'] at hc
    exact (trim_eq_self_iff.mp ht).2 c hc

theorem trim_flatten {texts : List (List Char)} (h : ∀ s ∈ texts, trim s = s ∧ s ≠ []) :
    trim texts.flatten = texts.flatten := by
  induction texts with
  | nil => rfl
  | cons s texts ih =>
      rw [List.forall_mem_cons] at h
      obtain ⟨⟨hs, hne⟩, hrest⟩ := h
      rw [List.flatten_cons]
      by_cases hempty : texts.flatten = []
      · rw [hempty, List.append_nil, hs]
      · exact trim_append_of_trimmed hs (ih hrest) hne hempty []

end TapeMachine.Text
