namespace TapeMachine.Sorted

variable {α : Type} [LT α] [DecidableLT α] [DecidableEq α]

def insert (a : α) : List α → List α
  | [] => [a]
  | b :: rest =>
      if b < a then b :: insert a rest
      else if a = b then b :: rest
      else a :: b :: rest

/-- The sorted list of the members of a collection. -/
def ofList (l : List α) : List α :=
  l.foldl (fun sorted a => insert a sorted) []

theorem mem_insert {a x : α} {l : List α} : x ∈ insert a l ↔ x = a ∨ x ∈ l := by
  induction l with
  | nil => simp [insert]
  | cons b rest ih =>
      unfold insert
      split
      · simp only [List.mem_cons, ih]
        constructor
        · rintro (h | h | h)
          · exact .inr (.inl h)
          · exact .inl h
          · exact .inr (.inr h)
        · rintro (h | h | h)
          · exact .inr (.inl h)
          · exact .inl h
          · exact .inr (.inr h)
      · split
        · rename_i hab
          subst hab
          simp
        · simp

theorem mem_foldl_insert {x : α} (l sorted : List α) :
    x ∈ l.foldl (fun sorted a => insert a sorted) sorted ↔ x ∈ l ∨ x ∈ sorted := by
  induction l generalizing sorted with
  | nil => simp
  | cons a rest ih =>
      simp only [List.foldl_cons, ih, mem_insert, List.mem_cons]
      constructor
      · rintro (h | h | h)
        · exact .inl (.inr h)
        · exact .inl (.inl h)
        · exact .inr h
      · rintro ((h | h) | h)
        · exact .inr (.inl h)
        · exact .inl h
        · exact .inr (.inr h)

@[simp] theorem mem_ofList {x : α} {l : List α} : x ∈ ofList l ↔ x ∈ l := by
  simp [ofList, mem_foldl_insert]

theorem insert_of_forall_lt {a : α} {l : List α} (h : ∀ b ∈ l, b < a) : insert a l = l ++ [a] := by
  induction l with
  | nil => rfl
  | cons b rest ih =>
      rw [List.forall_mem_cons] at h
      rw [insert, if_pos h.1, ih h.2, List.cons_append]

theorem foldl_insert_of_pairwise {l sorted : List α} (h : (sorted ++ l).Pairwise (· < ·)) :
    l.foldl (fun sorted a => insert a sorted) sorted = sorted ++ l := by
  induction l generalizing sorted with
  | nil => rw [List.append_nil, List.foldl_nil]
  | cons a rest ih =>
      obtain ⟨-, -, hlt⟩ := List.pairwise_append.mp h
      have hinsert : insert a sorted = sorted ++ [a] :=
        insert_of_forall_lt fun b hb => hlt b hb a List.mem_cons_self
      rw [List.append_cons] at h ⊢
      rw [List.foldl_cons, hinsert, ih h]

section Order

variable [Trans (· < · : α → α → Prop) (· < · : α → α → Prop) (· < · : α → α → Prop)]
  [Std.Trichotomous (· < · : α → α → Prop)]

theorem pairwise_insert {a : α} {l : List α} (h : l.Pairwise (· < ·)) :
    (insert a l).Pairwise (· < ·) := by
  induction l with
  | nil => exact List.pairwise_singleton _ a
  | cons b rest ih =>
      obtain ⟨hfirst, hrest⟩ := List.pairwise_cons.mp h
      unfold insert
      split
      · rename_i hlt
        refine List.pairwise_cons.mpr ⟨?_, ih hrest⟩
        intro x hx
        rcases mem_insert.mp hx with rfl | hx
        · exact hlt
        · exact hfirst x hx
      · rename_i hnot
        split
        · exact h
        · rename_i hne
          have hlt : a < b := by
            by_cases hlt : a < b
            · exact hlt
            · exact absurd (Std.Trichotomous.trichotomous a b hlt hnot) hne
          refine List.pairwise_cons.mpr ⟨?_, h⟩
          intro x hx
          rcases List.mem_cons.mp hx with rfl | hx
          · exact hlt
          · exact Trans.trans hlt (hfirst x hx)

theorem pairwise_ofList (l : List α) : (ofList l).Pairwise (· < ·) :=
  List.foldlRecOn l _ List.Pairwise.nil fun _ h _ _ => pairwise_insert h

@[simp] theorem ofList_ofList (l : List α) : ofList (ofList l) = ofList l :=
  foldl_insert_of_pairwise (pairwise_ofList l)

end Order

end TapeMachine.Sorted
