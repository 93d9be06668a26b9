import Mathlib.Data.List.DropRight
import TapeMachine.Proofs.Building
import TapeMachine.Proofs.Sweeping

namespace TapeMachine

/-- Runs to the end of a binary word, and carries a one back through its trailing ones. -/
def Program.increment : Program where
  name := "Binary Increment"
  description := "Adds 1 to a binary number"
  table := ⟨['0', '1'].map (.pass .right "q0") ++
    [⟨"q0", '_', '_', .left, "q1"⟩, ⟨"q1", '0', '1', .stay, "qf"⟩, ⟨"q1", '1', '0', .left, "q1"⟩,
      ⟨"q1", '_', '1', .stay, "qf"⟩]⟩
  initial := "q0"
  accept := ["qf"]
  reject := []
  blank := '_'
  ceiling := defaultCeiling

namespace Incrementing

open Scene Program

variable {front w : List Char} {t : Nat}

theorem builds : Catalog.Builds "binary_increment" increment.start :=
  Catalog.builds_of_read (.head _) (by decide +kernel)

theorem carries (t : Nat) (behind ahead : Stream' Char) :
    Passes increment t (back "q1" (List.replicate t '1' ++ₛ behind) ahead)
      (back "q1" behind (List.replicate t '0' ++ₛ ahead)) := by
  have hsweeps : increment.Sweeps .left "q1" (fun _ => '0') ['1'] := by decide
  have hones : ∀ c ∈ List.replicate t '1', c ∈ ['1'] :=
    List.forall_mem_replicate.mpr (.inr (by decide))
  simpa using Passes.sweepLeft hsweeps hones behind ahead

theorem passes_front (hw : ∀ c ∈ front ++ List.replicate t '1', c ∈ ['0', '1']) :
    Passes increment (front.length + t + 1 + t) (start increment (front ++ List.replicate t '1'))
      (back "q1" (front.reverse ++ₛ .const '_') (List.replicate t '0' ++ₛ .const '_')) := by
  have hsweeps : increment.Sweeps .right "q0" id ['0', '1'] := by decide
  have hsweep := Passes.overRight hsweeps hw (.const '_') (.const '_')
  rw [List.reverse_append, List.reverse_replicate, List.length_append, List.length_replicate,
    Stream'.append_append_stream (List.replicate t '1') front.reverse] at hsweep
  calc
    Passes increment (front.length + t) (start increment (front ++ List.replicate t '1'))
        ⟨"q0", List.replicate t '1' ++ₛ (front.reverse ++ₛ .const '_'), .const '_'⟩ := hsweep
    Passes increment 1 _
        (back "q1" (List.replicate t '1' ++ₛ (front.reverse ++ₛ .const '_')) (.const '_')) :=
      .turnLeft (by decide) (by decide) _
    Passes increment t _
        (back "q1" (front.reverse ++ₛ .const '_') (List.replicate t '0' ++ₛ .const '_')) :=
      carries t _ _

theorem ends_ones (t : Nat) :
    Ends increment (t + 1 + t + 1) .accepted (start increment (List.replicate t '1'))
      (around '_' "qf" [] ('1' :: List.replicate t '0')) := by
  have hones : ∀ c ∈ [] ++ List.replicate t '1', c ∈ ['0', '1'] :=
    List.forall_mem_replicate.mpr (.inr (by decide))
  have hfront := passes_front hones
  rw [List.length_nil, Nat.zero_add] at hfront
  refine hfront.ends ?_
  exact .one (r := ⟨"q1", '_', '1', .stay, "qf"⟩) (by decide) (by decide) _ _

theorem ends_zero_ones (hw : ∀ c ∈ front ++ '0' :: List.replicate t '1', c ∈ ['0', '1']) :
    Ends increment (front.length + 1 + t + 1 + t + 1) .accepted
      (start increment (front ++ '0' :: List.replicate t '1'))
      (around '_' "qf" front.reverse ('1' :: List.replicate t '0')) := by
  rw [List.append_cons] at hw ⊢
  have hfront := passes_front hw
  rw [List.length_append, List.length_singleton, List.reverse_append] at hfront
  refine hfront.ends ?_
  exact .one (r := ⟨"q1", '0', '1', .stay, "qf"⟩) (by decide) (by decide) _ _

theorem ofDigitChars_zeros (t n : Nat) :
    Nat.ofDigitChars 2 (List.replicate t '0') (n + 1) =
      Nat.ofDigitChars 2 (List.replicate t '1') n + 1 := by
  induction t generalizing n with
  | zero => rfl
  | succ t ih =>
      rw [List.replicate_succ, List.replicate_succ, Nat.ofDigitChars_cons, Nat.ofDigitChars_cons]
      exact ih (2 * n + 1)

def trailingOnes (w : List Char) : Nat :=
  (w.rtakeWhile (· == '1')).length

/-- Before its trailing ones a binary word is at its end, or there is a zero. -/
theorem exists_eq_append_ones (hw : ∀ c ∈ w, c ∈ ['0', '1']) :
    ∃ front, w = front ++ List.replicate (trailingOnes w) '1' ∧
      (front = [] ∨ ∃ rest, front = rest ++ ['0']) := by
  have hones : w.rtakeWhile (· == '1') = List.replicate (trailingOnes w) '1' :=
    List.eq_replicate_iff.mpr ⟨rfl, fun c hc => by simpa using List.mem_rtakeWhile_imp hc⟩
  refine ⟨w.rdropWhile (· == '1'), ?_, ?_⟩
  · rw [← hones, List.rdropWhile_append_rtakeWhile]
  · rcases List.eq_nil_or_concat' (w.rdropWhile (· == '1')) with hnil | ⟨rest, c, hfront⟩
    · exact .inl hnil
    · have hmem : c ∈ w := (List.rdropWhile_prefix _ w).subset (by rw [hfront]; simp)
      have hne : c ≠ '1' := by
        have hlast := List.rdropWhile_last_not (· == '1') w (by rw [hfront]; simp)
        simpa [hfront] using hlast
      obtain rfl : c = '0' := by simpa [hne] using hw c hmem
      exact .inr ⟨rest, hfront⟩

theorem exists_ends (hw : ∀ c ∈ w, c ∈ ['0', '1']) : ∃ behind ahead,
    Ends increment (w.length + trailingOnes w + 2) .accepted (start increment w)
      (around '_' "qf" behind ahead) ∧
    (∀ c ∈ behind.reverse ++ ahead, c ∈ ['0', '1']) ∧
    Nat.ofDigitChars 2 (behind.reverse ++ ahead) 0 = Nat.ofDigitChars 2 w 0 + 1 ∧
    (behind.reverse ++ ahead).length =
      if w.all (· == '1') then w.length + 1 else w.length := by
  obtain ⟨front, hsplit, hfront⟩ := exists_eq_append_ones hw
  generalize trailingOnes w = t at hsplit ⊢
  subst hsplit
  have hzeros : ∀ c ∈ List.replicate t '0', c ∈ ['0', '1'] :=
    List.forall_mem_replicate.mpr (.inr (by decide))
  rcases hfront with rfl | ⟨rest, rfl⟩
  · have hcount : ([] ++ List.replicate t '1').length + t + 2 = t + 1 + t + 1 := by
      simp
      omega
    rw [hcount]
    refine ⟨[], '1' :: List.replicate t '0', ends_ones t, ?_, ofDigitChars_zeros t 0, by simp⟩
    exact List.forall_mem_cons.mpr ⟨by decide, hzeros⟩
  · have hcount : (rest ++ ['0'] ++ List.replicate t '1').length + t + 2 =
        rest.length + 1 + t + 1 + t + 1 := by
      simp
      omega
    rw [hcount]
    rw [← List.append_cons] at hw ⊢
    refine ⟨rest.reverse, '1' :: List.replicate t '0', ends_zero_ones hw, ?_, ?_, ?_⟩
    · rw [List.reverse_reverse]
      rw [List.forall_mem_append] at hw ⊢
      exact ⟨hw.1, List.forall_mem_cons.mpr ⟨by decide, hzeros⟩⟩
    · rw [List.reverse_reverse, Nat.ofDigitChars_append, Nat.ofDigitChars_append]
      exact ofDigitChars_zeros t (2 * Nat.ofDigitChars 2 rest 0)
    · simp

end Incrementing

namespace Catalog

open Incrementing

/-- The preset adds one to every binary number, in exactly as many steps as the word has digits,
and trailing ones, and two more. -/
theorem binaryIncrement_adds_one : ∃ m, Builds "binary_increment" m ∧
    ∀ w : String, (∀ c ∈ w.toList, c = '0' ∨ c = '1') → ∃ sum : String,
      m.Finishes w (w.length + trailingOnes w.toList + 2) .accepted sum ∧
      (∀ c ∈ sum.toList, c = '0' ∨ c = '1') ∧
      Nat.ofDigitChars 2 sum.toList 0 = Nat.ofDigitChars 2 w.toList 0 + 1 ∧
      sum.length = if w.toList.all (· == '1') then w.length + 1 else w.length := by
  refine ⟨_, builds, fun w hw => ?_⟩
  have hbits : ∀ c ∈ w.toList, c ∈ ['0', '1'] := by simpa using hw
  obtain ⟨behind, ahead, hends, hsum, hvalue, hlength⟩ := exists_ends hbits
  have hblank : '_' ∉ behind.reverse ++ ahead := fun hmem => absurd (hsum _ hmem) (by decide)
  rw [String.length_toList] at hends hlength
  refine ⟨.ofList (behind.reverse ++ ahead), Machine.finishes_of_ends hends hblank, ?_⟩
  rw [String.toList_ofList, String.length_ofList]
  exact ⟨by simpa using hsum, hvalue, hlength⟩

theorem binaryIncrement_adds_one_to_seven : ∃ m, Builds "binary_increment" m ∧
    (∀ c ∈ "111".toList, c = '0' ∨ c = '1') ∧ ∃ sum : String,
      m.Finishes "111" 8 .accepted sum ∧ Nat.ofDigitChars 2 sum.toList 0 = 8 ∧
        sum.length = 4 := by
  obtain ⟨m, hbuilds, hadds⟩ := binaryIncrement_adds_one
  have hbits : ∀ c ∈ "111".toList, c = '0' ∨ c = '1' := by simp
  obtain ⟨sum, hfinishes, -, hvalue, hlength⟩ := hadds "111" hbits
  exact ⟨m, hbuilds, hbits, sum, hfinishes, hvalue, hlength⟩

end Catalog

end TapeMachine
