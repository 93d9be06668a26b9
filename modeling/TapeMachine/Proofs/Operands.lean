import TapeMachine.Proofs.Building
import TapeMachine.Proofs.Sweeping

namespace TapeMachine

/-- Turns the plus between two unary numbers into a one, and erases the last one. -/
def Program.addition : Program where
  name := "Unary Addition"
  description := "Adds two numbers written in unary (111+11 = 11111)"
  table := ⟨[.pass .right "q0" '1', ⟨"q0", '+', '1', .right, "q1"⟩, ⟨"q0", '_', '_', .stay, "qf"⟩,
    .pass .right "q1" '1', ⟨"q1", '_', '_', .left, "q2"⟩, ⟨"q2", '1', '_', .stay, "qf"⟩]⟩
  initial := "q0"
  accept := ["qf"]
  reject := []
  blank := '_'
  ceiling := defaultCeiling

/-- Passes over a binary number, an operator and another binary number. -/
def Program.product : Program where
  name := "Binary Multiplication"
  description := "Recognises the operands of a binary multiplication (simplified scan)"
  table := ⟨['0', '1'].map (.pass .right "q0") ++
    [⟨"q0", '*', '*', .right, "q1"⟩, ⟨"q0", '_', '_', .stay, "qr"⟩] ++
    ['0', '1'].map (.pass .right "q1") ++
    [⟨"q1", '*', '*', .stay, "qr"⟩, ⟨"q1", '_', '_', .stay, "qf"⟩]⟩
  initial := "q0"
  accept := ["qf"]
  reject := ["qr"]
  blank := '_'
  ceiling := defaultCeiling

namespace Operands

open Scene Program

variable {u v w : List Char}

theorem builds_addition : Catalog.Builds "unary_addition" addition.start :=
  Catalog.builds_of_read (.tail _ (.tail _ (.head _))) (by decide +kernel)

theorem builds_product : Catalog.Builds "binary_multiplication" product.start :=
  Catalog.builds_of_read (.tail _ (.tail _ (.tail _ (.head _)))) (by decide +kernel)

theorem passes_ones {state : String} (h : addition.Sweeps .right state id ['1']) (n : Nat)
    (behind ahead : Stream' Char) :
    Passes addition n ⟨state, behind, List.replicate n '1' ++ₛ ahead⟩
      ⟨state, List.replicate n '1' ++ₛ behind, ahead⟩ := by
  have hones : ∀ c ∈ List.replicate n '1', c ∈ ['1'] :=
    List.forall_mem_replicate.mpr (.inr (by decide))
  simpa using Passes.overRight h hones behind ahead

theorem ones_append (a b : Nat) (behind : Stream' Char) :
    List.replicate b '1' ++ₛ .cons '1' (List.replicate a '1' ++ₛ behind) =
      .cons '1' (List.replicate (a + b) '1' ++ₛ behind) := by
  have hones : List.replicate b '1' ++ ('1' :: List.replicate a '1') =
      '1' :: List.replicate (a + b) '1' := by
    rw [← List.replicate_succ, ← List.replicate_add, ← List.replicate_succ]
    congr 1
    omega
  exact (Stream'.append_append_stream _ _ _).symm.trans (congrArg (· ++ₛ behind) hones)

/-- The erased one makes up for the one that has taken the place of the plus. -/
theorem ends_addition (a b : Nat) :
    Ends addition (a + 1 + b + 1 + 1) .accepted
      (start addition (List.replicate a '1' ++ '+' :: List.replicate b '1'))
      (around '_' "qf" (List.replicate (a + b) '1') []) := by
  have hstart : start addition (List.replicate a '1' ++ '+' :: List.replicate b '1') =
      ⟨"q0", .const '_',
        List.replicate a '1' ++ₛ .cons '+' (List.replicate b '1' ++ₛ .const '_')⟩ :=
    congrArg (Scene.mk "q0" (.const '_')) (Stream'.append_append_stream _ _ _)
  calc
    _ = _ := hstart
    Passes addition a _ ⟨"q0", List.replicate a '1' ++ₛ .const '_',
        .cons '+' (List.replicate b '1' ++ₛ .const '_')⟩ := passes_ones (by decide) a _ _
    Passes addition 1 _ ⟨"q1", .cons '1' (List.replicate a '1' ++ₛ .const '_'),
        List.replicate b '1' ++ₛ .const '_'⟩ :=
      .one (r := ⟨"q0", '+', '1', .right, "q1"⟩) (by decide) (by decide) _ _
    Passes addition b _ ⟨"q1",
        List.replicate b '1' ++ₛ .cons '1' (List.replicate a '1' ++ₛ .const '_'), .const '_'⟩ :=
      passes_ones (by decide) b _ _
    _ = ⟨"q1", .cons '1' (List.replicate (a + b) '1' ++ₛ .const '_'), .const '_'⟩ := by
      rw [ones_append]
    Passes addition 1 _
        ⟨"q2", List.replicate (a + b) '1' ++ₛ .const '_', .cons '1' (.const '_')⟩ :=
      .turnLeft (by decide) (by decide) _
    Ends addition 1 .accepted _
        ⟨"qf", List.replicate (a + b) '1' ++ₛ .const '_', .cons '_' (.const '_')⟩ :=
      .one (r := ⟨"q2", '1', '_', .stay, "qf"⟩) (by decide) (by decide) _ _
    _ = around '_' "qf" (List.replicate (a + b) '1') [] := by
      rw [← Stream'.const_eq]
      rfl

theorem passes_operator (hu : ∀ c ∈ u, c ∈ ['0', '1']) (v : List Char) :
    Passes product (u.length + 1) (start product (u ++ '*' :: v))
      ⟨"q1", '*' :: u.reverse ++ₛ .const '_', v ++ₛ .const '_'⟩ := by
  have hstart : start product (u ++ '*' :: v) =
      ⟨"q0", .const '_', u ++ₛ .cons '*' (v ++ₛ .const '_')⟩ :=
    congrArg (Scene.mk "q0" (.const '_')) (Stream'.append_append_stream _ _ _)
  calc
    _ = _ := hstart
    Passes product u.length _
        ⟨"q0", u.reverse ++ₛ .const '_', .cons '*' (v ++ₛ .const '_')⟩ := .overRight (by decide) hu _ _
    Passes product 1 _ ⟨"q1", '*' :: u.reverse ++ₛ .const '_', v ++ₛ .const '_'⟩ :=
      .one (r := ⟨"q0", '*', '*', .right, "q1"⟩) (by decide) (by decide) _ _

theorem ends_without_operator (hw : ∀ c ∈ w, c ∈ ['0', '1']) :
    Ends product (w.length + 1) .rejected (start product w) (around '_' "qr" w.reverse []) :=
  (Passes.overRight (by decide) hw _ _).ends (.atEnd (by decide) (by decide) _)

theorem ends_one_operator (hu : ∀ c ∈ u, c ∈ ['0', '1']) (hv : ∀ c ∈ v, c ∈ ['0', '1']) :
    Ends product (u.length + 1 + v.length + 1) .accepted (start product (u ++ '*' :: v))
      (around '_' "qf" (v.reverse ++ '*' :: u.reverse) []) := by
  rw [around, Stream'.append_append_stream]
  exact ((passes_operator hu v).trans (.overRight (by decide) hv _ _)).ends
    (.atEnd (by decide) (by decide) _)

theorem ends_two_operators (hu : ∀ c ∈ u, c ∈ ['0', '1']) (hv : ∀ c ∈ v, c ∈ ['0', '1'])
    (w : List Char) :
    Ends product (u.length + 1 + v.length + 1) .rejected
      (start product (u ++ '*' :: (v ++ '*' :: w)))
      (around '_' "qr" (v.reverse ++ '*' :: u.reverse) ('*' :: w)) := by
  have hpasses := passes_operator hu (v ++ '*' :: w)
  rw [Stream'.append_append_stream v] at hpasses
  rw [around, Stream'.append_append_stream]
  exact (hpasses.trans (.overRight (by decide) hv _ _)).ends
    (.one (r := ⟨"q1", '*', '*', .stay, "qr"⟩) (by decide) (by decide) _ _)

theorem digits_of_not_mem (hw : ∀ c ∈ w, c ∈ ['0', '1', '*']) (h : '*' ∉ w) :
    ∀ c ∈ w, c ∈ ['0', '1'] := by
  intro c hc
  have hne : c ≠ '*' := ne_of_mem_of_not_mem hc h
  simpa [hne] using hw c hc

theorem exists_ends (hw : ∀ c ∈ w, c ∈ ['0', '1', '*']) : ∃ n ≤ w.length + 1,
    ∃ state behind ahead, behind.reverse ++ ahead = w ∧
      Ends product n (if w.count '*' = 1 then .accepted else .rejected) (start product w)
        (around '_' state behind ahead) := by
  by_cases hmem : '*' ∈ w
  · obtain ⟨u, v, rfl, hu⟩ := List.eq_append_cons_of_mem hmem
    rw [List.forall_mem_append, List.forall_mem_cons] at hw
    have hdigits := digits_of_not_mem hw.1 hu
    have hcount : (u ++ '*' :: v).count '*' = v.count '*' + 1 := by
      simp [List.count_eq_zero_of_not_mem hu]
    by_cases hagain : '*' ∈ v
    · obtain ⟨v, rest, rfl, hv⟩ := List.eq_append_cons_of_mem hagain
      have hpos : 0 < (v ++ '*' :: rest).count '*' := List.count_pos_iff.mpr hagain
      rw [List.forall_mem_append] at hw
      have hlength : u.length + 1 + v.length + 1 ≤ (u ++ '*' :: (v ++ '*' :: rest)).length + 1 := by
        simp
        omega
      refine ⟨_, hlength, "qr", v.reverse ++ '*' :: u.reverse, '*' :: rest, by simp, ?_⟩
      rw [if_neg (by omega)]
      exact ends_two_operators hdigits (digits_of_not_mem hw.2.2.1 hv) rest
    · have hlength : u.length + 1 + v.length + 1 ≤ (u ++ '*' :: v).length + 1 := by
        simp
        omega
      refine ⟨_, hlength, "qf", v.reverse ++ '*' :: u.reverse, [], by simp, ?_⟩
      rw [if_pos (by rw [hcount, List.count_eq_zero_of_not_mem hagain])]
      exact ends_one_operator hdigits (digits_of_not_mem hw.2.2 hagain)
  · refine ⟨w.length + 1, Nat.le_refl _, "qr", w.reverse, [], by simp, ?_⟩
    rw [if_neg (by rw [List.count_eq_zero_of_not_mem hmem]; decide)]
    exact ends_without_operator (digits_of_not_mem hw hmem)

end Operands

namespace Catalog

open Operands

/-- One preset adds unary numbers, in as many steps as the word has symbols and two more. Another
accepts the words with one operator and rejects all others over its alphabet, within as many steps
as the word has symbols and one more, and changes none of them. -/
theorem presets_scan_operands :
    (∃ m, Builds "unary_addition" m ∧ ∀ a b : Nat,
      m.Finishes (.ofList (List.replicate a '1' ++ '+' :: List.replicate b '1')) (a + b + 3)
        .accepted (.ofList (List.replicate (a + b) '1'))) ∧
    ∃ m, Builds "binary_multiplication" m ∧ ∀ w : String,
      (∀ c ∈ w.toList, c = '0' ∨ c = '1' ∨ c = '*') → ∃ n ≤ w.length + 1,
        m.Finishes w n (if w.toList.count '*' = 1 then .accepted else .rejected) w := by
  refine ⟨⟨_, builds_addition, fun a b => ?_⟩, _, builds_product, fun w hw => ?_⟩
  · have hends := ends_addition a b
    rw [show a + 1 + b + 1 + 1 = a + b + 3 by omega] at hends
    have hones : '_' ∉ (List.replicate (a + b) '1').reverse ++ [] := by
      simp [List.mem_replicate]
    rw [← String.toList_ofList (l := List.replicate a '1' ++ '+' :: List.replicate b '1')] at hends
    have hfinishes := Machine.finishes_of_ends (m := Program.addition.start) hends hones
    simpa using hfinishes
  · have hword : ∀ c ∈ w.toList, c ∈ ['0', '1', '*'] := by simpa using hw
    obtain ⟨n, hn, state, behind, ahead, hcontent, hends⟩ := exists_ends hword
    rw [String.length_toList] at hn
    have hblank : '_' ∉ behind.reverse ++ ahead := by
      rw [hcontent]
      exact fun hmem => absurd (hword _ hmem) (by decide)
    have hfinishes := Machine.finishes_of_ends (m := Program.product.start) hends hblank
    rw [hcontent, String.ofList_toList] at hfinishes
    exact ⟨n, hn, hfinishes⟩

theorem presets_scan_operands_at_edges :
    (∃ m, Builds "unary_addition" m ∧ m.Finishes "+" 3 .accepted "") ∧
    ∃ m, Builds "binary_multiplication" m ∧
      (∀ c ∈ "1**".toList, c = '0' ∨ c = '1' ∨ c = '*') ∧
      ∃ n ≤ 4, m.Finishes "1**" n .rejected "1**" := by
  obtain ⟨⟨adder, hadder, hadds⟩, scanner, hscanner, hscans⟩ := presets_scan_operands
  have hword : ∀ c ∈ "1**".toList, c = '0' ∨ c = '1' ∨ c = '*' := by simp
  exact ⟨⟨adder, hadder, hadds 0 0⟩, scanner, hscanner, hword, hscans "1**" hword⟩

end Catalog

end TapeMachine
