import Mathlib.Data.List.Induction
import TapeMachine.Table

namespace TapeMachine

namespace Keyed

variable {α β κ : Type} [DecidableEq κ] {key : α → κ}

def last? (key : α → κ) (k : κ) (l : List α) : Option α :=
  (l.filter fun a => key a = k).getLast?

/-- What is kept of the elements of a list if a later one takes the place of an earlier one with the
same key. -/
structure KeepsLast (key : α → κ) (written kept : List α) : Prop where
  keys : kept.map key = (written.map key).eraseDups
  last : ∀ k, find? key k kept = last? key k written

theorem find?_eq_none_iff {k : κ} {l : List α} : find? key k l = none ↔ k ∉ l.map key := by
  induction l with
  | nil => simp [find?]
  | cons a rest ih =>
      by_cases hkey : key a = k
      · simp [find?, hkey]
      · rw [find?, if_neg hkey, ih, List.map_cons, List.mem_cons, not_or]
        exact ⟨fun h => ⟨Ne.symm hkey, h⟩, fun h => h.2⟩

theorem find?_eq_some_iff {k : κ} {l : List α} {a : α} (hnodup : (l.map key).Nodup) :
    find? key k l = some a ↔ a ∈ l ∧ key a = k := by
  induction l with
  | nil => simp [find?]
  | cons b rest ih =>
      rw [List.map_cons, List.nodup_cons] at hnodup
      rw [find?, List.mem_cons]
      by_cases hkey : key b = k
      · rw [if_pos hkey, Option.some.injEq]
        constructor
        · rintro rfl
          exact ⟨.inl rfl, hkey⟩
        · rintro ⟨rfl | hmem, ha⟩
          · rfl
          · rw [hkey, ← ha] at hnodup
            exact absurd (List.mem_map_of_mem hmem) hnodup.1
      · rw [if_neg hkey, ih hnodup.2]
        constructor
        · exact fun h => ⟨.inr h.1, h.2⟩
        · rintro ⟨rfl | hmem, ha⟩
          · exact absurd ha hkey
          · exact ⟨hmem, ha⟩

theorem last?_append_singleton (k : κ) (l : List α) (a : α) :
    last? key k (l ++ [a]) = if key a = k then some a else last? key k l := by
  unfold last?
  by_cases hkey : key a = k <;> simp [List.filter_append, hkey]

theorem getLast?_filterMap (f : α → β) (k : κ) (l : List α) :
    (l.filterMap fun a => if key a = k then some (f a) else none).getLast? =
      (last? key k l).map f := by
  induction l using List.reverseRecOn with
  | nil => rfl
  | append_singleton l a ih =>
      rw [last?_append_singleton, List.filterMap_append]
      by_cases hkey : key a = k
      · simp [hkey]
      · simpa [hkey] using ih

theorem last?_filter {p : α → Bool} {k : κ} (h : ∀ a, key a = k → p a = true) (l : List α) :
    last? key k (l.filter p) = last? key k l := by
  unfold last?
  rw [List.filter_filter]
  congr 1
  apply List.filter_congr
  intro a _
  by_cases hkey : key a = k <;> simp [hkey, h]

theorem last?_eq_some {k : κ} {l : List α} {a : α} (h : last? key k l = some a) :
    a ∈ l ∧ key a = k := by
  have hmem := List.mem_of_getLast? h
  simpa using hmem

theorem ofList_append_singleton (l : List α) (a : α) :
    ofList key (l ++ [a]) = put key a (ofList key l) := by
  simp [ofList]

theorem eraseDups_append_singleton (keys : List κ) (k : κ) :
    (keys ++ [k]).eraseDups = if k ∈ keys then keys.eraseDups else keys.eraseDups ++ [k] := by
  rw [List.eraseDups_append, List.cons_removeAll, List.nil_removeAll, List.contains_eq_mem]
  by_cases hmem : k ∈ keys <;> simp [hmem, List.eraseDups_cons]

theorem keepsLast_ofList (l : List α) : KeepsLast key l (ofList key l) := by
  induction l using List.reverseRecOn with
  | nil => exact ⟨rfl, fun _ => rfl⟩
  | append_singleton l a ih =>
      constructor
      · rw [ofList_append_singleton, map_put, ih.keys, List.map_append, List.map_singleton,
          eraseDups_append_singleton]
        simp only [List.mem_eraseDups]
      · intro k
        rw [ofList_append_singleton, last?_append_singleton]
        by_cases hkey : key a = k
        · rw [if_pos hkey, ← hkey, find?_put_self]
        · rw [if_neg hkey, find?_put_of_ne key a (Ne.symm hkey), ih.last]

theorem KeepsLast.mem_map_iff {written kept : List α} (h : KeepsLast key written kept) {k : κ} :
    k ∈ kept.map key ↔ k ∈ written.map key := by
  rw [h.keys, List.mem_eraseDups]

theorem put_of_not_mem {l : List α} {a : α} (h : key a ∉ l.map key) : put key a l = l ++ [a] := by
  induction l with
  | nil => rfl
  | cons b rest ih =>
      rw [List.map_cons, List.mem_cons, not_or] at h
      rw [put_cons, if_neg (Ne.symm h.1), ih h.2]
      rfl

theorem ofList_of_nodup {l : List α} (h : (l.map key).Nodup) : ofList key l = l := by
  induction l using List.reverseRecOn with
  | nil => rfl
  | append_singleton l a ih =>
      rw [List.map_append, List.map_singleton, List.nodup_append] at h
      obtain ⟨hl, -, hnew⟩ := h
      rw [ofList_append_singleton, ih hl, put_of_not_mem]
      intro hmem
      exact hnew (key a) hmem (key a) List.mem_cons_self rfl

end Keyed

namespace Table

theorem rules_insert (t : Table) (r : Rule) : (t.insert r).rules = Keyed.put Rule.key r t.rules :=
  rfl

theorem rules_foldl_insert (t : Table) (rules : List Rule) :
    (rules.foldl insert t).rules =
      rules.foldl (fun kept r => Keyed.put Rule.key r kept) t.rules := by
  induction rules generalizing t with
  | nil => rfl
  | cons r rest ih => exact ih (t.insert r)

theorem rules_ofRules (rules : List Rule) :
    (ofRules rules).rules = Keyed.ofList Rule.key rules :=
  rules_foldl_insert empty rules

theorem ofRules_of_nodup {t : Table} (h : (t.rules.map Rule.key).Nodup) : ofRules t.rules = t := by
  have hrules : (ofRules t.rules).rules = t.rules := by
    rw [rules_ofRules, Keyed.ofList_of_nodup h]
  cases t
  exact congrArg mk hrules

theorem keepsLast_ofRules (rules : List Rule) :
    Keyed.KeepsLast Rule.key rules (ofRules rules).rules := by
  rw [rules_ofRules]
  exact Keyed.keepsLast_ofList rules

end Table

end TapeMachine
