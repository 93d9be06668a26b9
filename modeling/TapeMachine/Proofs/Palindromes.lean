import Mathlib.Data.Bool.AllAny
import Mathlib.Data.List.Palindrome
import Mathlib.Tactic.Ring
import TapeMachine.Proofs.Building
import TapeMachine.Proofs.Sweeping

namespace TapeMachine

namespace Palindromes

/-- The state of the way to the end, for the letter erased at the start. -/
def seeking (c : Char) : String :=
  if c = 'a' then "q1" else "q2"

/-- The state at the last letter, for the letter erased at the start. -/
def matching (c : Char) : String :=
  if c = 'a' then "q3" else "q4"

end Palindromes

open Palindromes in
/-- Erases the first letter of a word and the last one, if they are the same, and starts over. -/
def Program.palindrome : Program where
  name := "Palindrome Checker"
  description := "Decides whether a string over \x7ba, b\x7d is a palindrome"
  table := ⟨['a', 'b'].map (fun c => ⟨"q0", c, '_', .right, seeking c⟩) ++
    [⟨"q0", '_', '_', .stay, "qa"⟩] ++
    ['a', 'b'].flatMap (fun c => ['a', 'b'].map (.pass .right (seeking c)) ++
      [⟨seeking c, '_', '_', .left, matching c⟩]) ++
    [('a', 'b'), ('b', 'a')].flatMap (fun (c, other) => [⟨matching c, c, '_', .left, "q5"⟩,
      ⟨matching c, other, other, .stay, "qr"⟩, ⟨matching c, '_', '_', .stay, "qa"⟩]) ++
    ['a', 'b'].map (.pass .left "q5") ++ [⟨"q5", '_', '_', .right, "q0"⟩]⟩
  initial := "q0"
  accept := ["qa"]
  reject := ["qr"]
  blank := '_'
  ceiling := defaultCeiling

namespace Palindromes

open Scene Program

variable {c d : Char} {u w : List Char}

theorem builds : Catalog.Builds "palindrome" palindrome.start :=
  Catalog.builds_of_read (.tail _ (.head _)) (by decide +kernel)

theorem rule_erase : ∀ c ∈ ['a', 'b'],
    palindrome.table.lookup "q0" c = some ⟨"q0", c, '_', .right, seeking c⟩ :=
  List.all_iff_forall_prop.mp (by decide)

theorem sweeps_seeking : ∀ c ∈ ['a', 'b'],
    palindrome.Sweeps .right (seeking c) id ['a', 'b'] :=
  List.all_iff_forall_prop.mp (by decide)

theorem rule_turn : ∀ c ∈ ['a', 'b'], palindrome.table.lookup (seeking c) '_' =
    some ⟨seeking c, '_', '_', .left, matching c⟩ :=
  List.all_iff_forall_prop.mp (by decide)

theorem undecided : ∀ c ∈ ['a', 'b'], palindrome.classify (seeking c) = none ∧
    palindrome.classify (matching c) = none :=
  List.all_iff_forall_prop.mp (by decide)

theorem rule_match : ∀ c ∈ ['a', 'b'],
    palindrome.table.lookup (matching c) c = some ⟨matching c, c, '_', .left, "q5"⟩ :=
  List.all_iff_forall_prop.mp (by decide)

theorem rule_mismatch (hc : c ∈ ['a', 'b']) (hd : d ∈ ['a', 'b']) (hne : c ≠ d) :
    palindrome.table.lookup (matching c) d = some ⟨matching c, d, d, .stay, "qr"⟩ := by
  have hletters : c = 'a' ∧ d = 'b' ∨ c = 'b' ∧ d = 'a' := by
    simp only [List.mem_cons, List.not_mem_nil, or_false] at hc hd
    grind
  rcases hletters with ⟨rfl, rfl⟩ | ⟨rfl, rfl⟩ <;> decide

theorem rule_last : ∀ c ∈ ['a', 'b'], palindrome.table.lookup (matching c) '_' =
    some ⟨matching c, '_', '_', .stay, "qa"⟩ :=
  List.all_iff_forall_prop.mp (by decide)

theorem passes_to_end (hc : c ∈ ['a', 'b']) (hu : ∀ d ∈ u, d ∈ ['a', 'b']) :
    Passes palindrome (1 + u.length + 1) (start palindrome (c :: u))
      (back (matching c) (u.reverse ++ₛ .const '_') (.const '_')) := by
  calc
    Passes palindrome 1 _ ⟨seeking c, .cons '_' (.const '_'), u ++ₛ .const '_'⟩ :=
      .one (r := ⟨"q0", c, '_', .right, seeking c⟩) (rule_erase c hc) (undecided c hc).1 _ _
    _ = ⟨seeking c, .const '_', u ++ₛ .const '_'⟩ := by rw [← Stream'.const_eq]
    Passes palindrome u.length _ ⟨seeking c, u.reverse ++ₛ .const '_', .const '_'⟩ :=
      .overRight (sweeps_seeking c hc) hu _ _
    Passes palindrome 1 _ (back (matching c) (u.reverse ++ₛ .const '_') (.const '_')) :=
      .turnLeft (rule_turn c hc) (undecided c hc).2 _

/-- A round takes a word's first and last letters away, if they are the same. -/
theorem passes_round (hc : c ∈ ['a', 'b']) (hu : ∀ d ∈ u, d ∈ ['a', 'b']) :
    Passes palindrome (2 * u.length + 5) (start palindrome (c :: (u ++ [c])))
      (start palindrome u) := by
  have hword : ∀ d ∈ u ++ [c], d ∈ ['a', 'b'] :=
    List.forall_mem_append.mpr ⟨hu, List.forall_mem_singleton.mpr hc⟩
  have hend := passes_to_end hc hword
  rw [List.length_append, List.length_singleton, List.reverse_append] at hend
  have hsweeps : palindrome.Sweeps .left "q5" id ['a', 'b'] := by decide
  have hreturn : palindrome.classify "q5" = none := by decide
  rw [show 2 * u.length + 5 = 1 + (u.length + 1) + 1 + 1 + u.length + 1 by omega]
  calc
    Passes palindrome (1 + (u.length + 1) + 1) _
        ⟨matching c, u.reverse ++ₛ .const '_', .cons c (.const '_')⟩ := hend
    Passes palindrome 1 _ (back "q5" (u.reverse ++ₛ .const '_') (.cons '_' (.const '_'))) :=
      .one (r := ⟨matching c, c, '_', .left, "q5"⟩) (rule_match c hc) hreturn _ _
    _ = back "q5" (u.reverse ++ₛ .const '_') (.const '_') := by rw [← Stream'.const_eq]
    Passes palindrome u.length _ (back "q5" (.const '_') (u ++ₛ .const '_')) :=
      .overLeft hsweeps hu _ _
    Passes palindrome 1 _ (start palindrome u) := .turnRight (by decide) (by decide) _

theorem ends_mismatch (hc : c ∈ ['a', 'b']) (hu : ∀ d ∈ u, d ∈ ['a', 'b'])
    (hd : d ∈ ['a', 'b']) (hne : c ≠ d) :
    Ends palindrome (u.length + 4) .rejected (start palindrome (c :: (u ++ [d])))
      (around '_' "qr" u.reverse [d]) := by
  have hword : ∀ c ∈ u ++ [d], c ∈ ['a', 'b'] :=
    List.forall_mem_append.mpr ⟨hu, List.forall_mem_singleton.mpr hd⟩
  have hend := passes_to_end hc hword
  rw [List.length_append, List.length_singleton, List.reverse_append] at hend
  rw [show u.length + 4 = 1 + (u.length + 1) + 1 + 1 by omega]
  have hrejects : palindrome.classify "qr" = some .rejected := by decide
  refine hend.ends ?_
  exact .one (r := ⟨matching c, d, d, .stay, "qr"⟩) (rule_mismatch hc hd hne) hrejects _ _

theorem ends_nil : Ends palindrome 1 .accepted (start palindrome []) (around '_' "qa" [] []) :=
  .atEnd (by decide) (by decide) _

theorem ends_singleton (hc : c ∈ ['a', 'b']) :
    Ends palindrome 3 .accepted (start palindrome [c]) (around '_' "qa" [] []) := by
  have hend := passes_to_end hc (u := []) (fun _ hd => absurd hd List.not_mem_nil)
  have haccepts : palindrome.classify "qa" = some .accepted := by decide
  calc
    Passes palindrome 2 _ ⟨matching c, .const '_', .cons '_' (.const '_')⟩ := hend
    Ends palindrome 1 .accepted _ ⟨"qa", .const '_', .cons '_' (.const '_')⟩ :=
      .one (r := ⟨matching c, '_', '_', .stay, "qa"⟩) (rule_last c hc) haccepts _ _
    _ = around '_' "qa" [] [] := by
      rw [← Stream'.const_eq]
      rfl

theorem steps_add_two (n : Nat) :
    (n + 2 + 1) * (n + 2 + 2) / 2 = 2 * n + 5 + (n + 1) * (n + 2) / 2 := by
  have hproduct : (n + 2 + 1) * (n + 2 + 2) = (n + 1) * (n + 2) + 2 * (2 * n + 5) := by ring
  rw [hproduct, Nat.add_mul_div_left _ _ Nat.two_pos, Nat.add_comm]

/-- Round by round the letters at both ends go, to the middle of the word. -/
theorem ends_palindrome (hw : ∀ c ∈ w, c ∈ ['a', 'b']) (h : w.Palindrome) :
    Ends palindrome ((w.length + 1) * (w.length + 2) / 2) .accepted (start palindrome w)
      (around '_' "qa" [] []) := by
  induction h with
  | nil => exact ends_nil
  | singleton c =>
      rw [List.length_singleton]
      exact ends_singleton (hw c (.head _))
  | @cons_concat c u _ ih =>
      rw [List.forall_mem_cons, List.forall_mem_append] at hw
      have hlength : (c :: (u ++ [c])).length = u.length + 2 := by simp
      rw [hlength, steps_add_two]
      exact (passes_round hw.1 hw.2.1).ends (ih hw.2.1)

theorem exists_ends_rejected (hw : ∀ c ∈ w, c ∈ ['a', 'b']) (h : ¬ w.Palindrome) :
    ∃ n ≤ (w.length + 1) * (w.length + 2) / 2, ∃ behind ahead, '_' ∉ behind.reverse ++ ahead ∧
      Ends palindrome n .rejected (start palindrome w) (around '_' "qr" behind ahead) := by
  induction w using List.bidirectionalRec with
  | nil => exact absurd .nil h
  | singleton c => exact absurd (.singleton c) h
  | cons_append c u d ih =>
      rw [List.forall_mem_cons, List.forall_mem_append] at hw
      obtain ⟨hc, hu, hd⟩ := hw
      have hlength : (c :: (u ++ [d])).length = u.length + 2 := by simp
      rw [hlength, steps_add_two]
      by_cases hne : c = d
      · subst hne
        have hinner : ¬ u.Palindrome := fun hu => h (.cons_concat c hu)
        obtain ⟨n, hn, behind, ahead, hblank, hends⟩ := ih hu hinner
        exact ⟨_, Nat.add_le_add_left hn _, behind, ahead, hblank,
          (passes_round hc hu).ends hends⟩
      · have hletters : '_' ∉ u.reverse.reverse ++ [d] := by
          rw [List.reverse_reverse]
          exact fun hmem => absurd (List.forall_mem_append.mpr ⟨hu, hd⟩ _ hmem) (by decide)
        refine ⟨u.length + 4, ?_, u.reverse, [d], hletters,
          ends_mismatch hc hu (hd d (.head _)) hne⟩
        omega

theorem steps_le_ceiling {n : Nat} (h : n ≤ 139) : (n + 1) * (n + 2) / 2 ≤ defaultCeiling :=
  calc
    (n + 1) * (n + 2) / 2 ≤ (139 + 1) * (139 + 2) / 2 :=
      Nat.div_le_div_right (Nat.mul_le_mul (Nat.succ_le_succ h) (Nat.add_le_add_right h 2))
    _ ≤ defaultCeiling := by decide

theorem exists_finishes {w : String} (hw : ∀ c ∈ w.toList, c ∈ ['a', 'b']) :
    ∃ n ≤ (w.length + 1) * (w.length + 2) / 2, ∃ content,
      palindrome.start.Finishes w n
        (if w.toList = w.toList.reverse then .accepted else .rejected) content ∧
      (w.toList = w.toList.reverse →
        n = (w.length + 1) * (w.length + 2) / 2 ∧ content = "") := by
  rw [← String.length_toList]
  by_cases h : w.toList.Palindrome
  · have hends := ends_palindrome hw h
    have hfinishes := Machine.finishes_of_ends (m := palindrome.start) hends (by simp)
    rw [if_pos h.reverse_eq.symm]
    exact ⟨_, Nat.le_refl _, "", hfinishes, fun _ => ⟨rfl, rfl⟩⟩
  · obtain ⟨n, hn, behind, ahead, hblank, hends⟩ := exists_ends_rejected hw h
    have hfinishes := Machine.finishes_of_ends (m := palindrome.start) hends hblank
    have hreverse : ¬ w.toList = w.toList.reverse :=
      fun hw => h (.of_reverse_eq hw.symm)
    rw [if_neg hreverse]
    exact ⟨n, hn, _, hfinishes, fun hw => absurd hw hreverse⟩

end Palindromes

namespace Catalog

open Palindromes

/-- The preset decides which words over its alphabet are palindromes, and erases those that are. -/
theorem palindrome_decides : ∃ m, Builds "palindrome" m ∧
    ∀ w : String, (∀ c ∈ w.toList, c = 'a' ∨ c = 'b') →
      ∃ n ≤ (w.length + 1) * (w.length + 2) / 2, ∃ content,
        m.Finishes w n (if w.toList = w.toList.reverse then .accepted else .rejected) content ∧
        (w.toList = w.toList.reverse →
          n = (w.length + 1) * (w.length + 2) / 2 ∧ content = "") ∧
        (w.length ≤ 139 → ((m.loadTape w).run none).verdict =
          if w.toList = w.toList.reverse then .accepted else .rejected) := by
  refine ⟨_, builds, fun w hw => ?_⟩
  have hletters : ∀ c ∈ w.toList, c ∈ ['a', 'b'] := by simpa using hw
  obtain ⟨n, hn, content, hfinishes, haccepted⟩ := exists_finishes hletters
  refine ⟨n, hn, content, hfinishes, haccepted, fun hlength => ?_⟩
  have hceiling : n ≤ Program.palindrome.start.ceiling := hn.trans (steps_le_ceiling hlength)
  exact (hfinishes.run_none_within (by decide) hceiling).1

theorem palindrome_decides_even_words : ∃ m, Builds "palindrome" m ∧
    (∀ c ∈ "abba".toList, c = 'a' ∨ c = 'b') ∧ m.Finishes "abba" 15 .accepted "" ∧
    (∀ c ∈ "ab".toList, c = 'a' ∨ c = 'b') ∧ "ab".length ≤ 139 ∧
      ((m.loadTape "ab").run none).verdict = .rejected := by
  obtain ⟨m, hbuilds, hdecides⟩ := palindrome_decides
  have heven : ∀ c ∈ "abba".toList, c = 'a' ∨ c = 'b' := by simp
  have hshort : ∀ c ∈ "ab".toList, c = 'a' ∨ c = 'b' := by simp
  obtain ⟨_, -, _, hfinishes, haccepted, -⟩ := hdecides "abba" heven
  obtain ⟨rfl, rfl⟩ := haccepted (by decide)
  obtain ⟨_, -, _, -, -, hdefault⟩ := hdecides "ab" hshort
  exact ⟨m, hbuilds, heven, hfinishes, hshort, by decide, hdefault (by decide)⟩

end Catalog

end TapeMachine
