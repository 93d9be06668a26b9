namespace TapeMachine.Keyed

variable {α κ : Type} [DecidableEq κ]

@[specialize] def find? (key : α → κ) (k : κ) : List α → Option α
  | [] => none
  | a :: rest => if key a = k then some a else find? key k rest

/-- Puts an element in the place of the first one with its key, which is returned, or else at the
end. -/
@[specialize] def exchange (key : α → κ) (a : α) : List α → Option α × List α
  | [] => (none, [a])
  | b :: rest =>
      if key b = key a then (some b, a :: rest)
      else
        let (replaced, rest) := exchange key a rest
        (replaced, b :: rest)

@[specialize] def put (key : α → κ) (a : α) (l : List α) : List α :=
  (exchange key a l).2

/-- The elements of a collection, put one after the other into an empty list. -/
def ofList (key : α → κ) (l : List α) : List α :=
  l.foldl (fun kept a => put key a kept) []

theorem exchange_fst (key : α → κ) (a : α) (l : List α) :
    (exchange key a l).1 = find? key (key a) l := by
  induction l with
  | nil => rfl
  | cons b rest ih =>
      by_cases hkey : key b = key a
      · simp [exchange, find?, hkey]
      · simp [exchange, find?, hkey, ih]

@[simp] theorem put_nil (key : α → κ) (a : α) : put key a [] = [a] := rfl

theorem put_cons (key : α → κ) (a b : α) (rest : List α) :
    put key a (b :: rest) = if key b = key a then a :: rest else b :: put key a rest := by
  by_cases hkey : key b = key a <;> simp [put, exchange, hkey]

theorem find?_put_self (key : α → κ) (a : α) (l : List α) :
    find? key (key a) (put key a l) = some a := by
  induction l with
  | nil => simp [find?]
  | cons b rest ih =>
      rw [put_cons]
      by_cases hkey : key b = key a
      · simp [find?, hkey]
      · simp [find?, hkey, ih]

theorem find?_put_of_ne (key : α → κ) (a : α) {k : κ} (hk : k ≠ key a) (l : List α) :
    find? key k (put key a l) = find? key k l := by
  induction l with
  | nil => simp [find?, Ne.symm hk]
  | cons b rest ih =>
      rw [put_cons]
      by_cases hkey : key b = key a
      · simp [find?, hkey, Ne.symm hk]
      · simp [find?, hkey, ih]

theorem map_put (key : α → κ) (a : α) (l : List α) :
    (put key a l).map key = if key a ∈ l.map key then l.map key else l.map key ++ [key a] := by
  induction l with
  | nil => simp
  | cons b rest ih =>
      rw [put_cons]
      by_cases hkey : key b = key a
      · simp [hkey]
      · by_cases hmem : key a ∈ rest.map key
        · simp only [if_neg hkey, List.map_cons, ih, List.mem_cons, hmem, or_true,
            if_true]
        · have hnot : ¬ (key a = key b ∨ key a ∈ rest.map key) := by
            rintro (h | h)
            · exact hkey h.symm
            · exact hmem h
          simp only [if_neg hkey, List.map_cons, ih, if_neg hmem, List.mem_cons, if_neg hnot,
            List.cons_append]

end TapeMachine.Keyed
