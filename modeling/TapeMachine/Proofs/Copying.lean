import Mathlib.Data.Bool.AllAny
import Mathlib.Tactic.Ring
import TapeMachine.Proofs.Building
import TapeMachine.Proofs.Sweeping

namespace TapeMachine

namespace Copying

/-- The state that carries a letter to the end of the tape. -/
def carrying (c : Char) : String :=
  if c = 'a' then "ca" else if c = 'b' then "cb" else "cc"

end Copying

open Copying in
/-- Writes a separator behind a word, marks its letters one after the other, each time with a copy
at the end of the tape, and clears the marks. -/
def Program.copy : Program where
  name := "Copy String"
  description := "Copies a string over \x7ba, b, c\x7d after a # separator"
  table := ⟨['a', 'b', 'c'].map (.pass .right "s") ++ [⟨"s", '_', '#', .left, "r"⟩] ++
    ['a', 'b', 'c', '#'].map (.pass .left "r") ++ [⟨"r", '_', '_', .right, "q0"⟩] ++
    ['a', 'b', 'c'].map (fun c => ⟨"q0", c, c.toUpper, .right, carrying c⟩) ++
    [⟨"q0", '#', '#', .left, "u"⟩] ++
    ['a', 'b', 'c'].flatMap (fun c => ['a', 'b', 'c', '#'].map (.pass .right (carrying c)) ++
      [⟨carrying c, '_', c, .left, "back"⟩]) ++
    ['a', 'b', 'c', '#'].map (.pass .left "back") ++
    ['a', 'b', 'c'].map (fun c => ⟨"back", c.toUpper, c.toUpper, .right, "q0"⟩) ++
    ['a', 'b', 'c'].map (fun c => ⟨"u", c.toUpper, c, .left, "u"⟩) ++
    [⟨"u", '_', '_', .right, "qf"⟩]⟩
  initial := "s"
  accept := ["qf"]
  reject := []
  blank := '_'
  ceiling := defaultCeiling

namespace Copying

open Scene Program

variable {c : Char} {u v w : List Char}

theorem builds : Catalog.Builds "copy_string" copy.start :=
  Catalog.builds_of_read (.tail _ (.tail _ (.tail _ (.tail _ (.head _))))) (by decide +kernel)

theorem rule_mark : ∀ c ∈ ['a', 'b', 'c'],
    copy.table.lookup "q0" c = some ⟨"q0", c, c.toUpper, .right, carrying c⟩ :=
  List.all_iff_forall_prop.mp (by decide)

theorem sweeps_carrying : ∀ c ∈ ['a', 'b', 'c'],
    copy.Sweeps .right (carrying c) id ['a', 'b', 'c', '#'] :=
  List.all_iff_forall_prop.mp (by decide)

theorem rule_append : ∀ c ∈ ['a', 'b', 'c'],
    copy.table.lookup (carrying c) '_' = some ⟨carrying c, '_', c, .left, "back"⟩ :=
  List.all_iff_forall_prop.mp (by decide)

theorem rule_mark_again : ∀ c ∈ ['a', 'b', 'c'], copy.table.lookup "back" c.toUpper =
    some ⟨"back", c.toUpper, c.toUpper, .right, "q0"⟩ :=
  List.all_iff_forall_prop.mp (by decide)

theorem toLower_toUpper (hw : ∀ c ∈ w, c ∈ ['a', 'b', 'c']) :
    (w.map Char.toUpper).map Char.toLower = w := by
  have hletters : ∀ c ∈ ['a', 'b', 'c'], c.toUpper.toLower = c :=
    List.all_iff_forall_prop.mp (by decide)
  have hid : w.map (Char.toLower ∘ Char.toUpper) = w.map id :=
    List.map_congr_left fun c hc => hletters c (hw c hc)
  rw [List.map_map, hid, List.map_id]

/-- The letters up to a point are marked, and their copies follow the separator. -/
def marked (u v : List Char) : Scene :=
  around '_' "q0" (u.map Char.toUpper).reverse (v ++ '#' :: u)

theorem passes_separator (hw : ∀ c ∈ w, c ∈ ['a', 'b', 'c']) :
    Passes copy (2 * w.length + 2) (start copy w) (marked [] w) := by
  rw [show 2 * w.length + 2 = w.length + 1 + w.length + 1 by omega]
  calc
    Passes copy w.length _ ⟨"s", w.reverse ++ₛ .const '_', .const '_'⟩ :=
      .overRight (by decide) hw _ _
    Passes copy 1 _ (back "r" (w.reverse ++ₛ .const '_') (.cons '#' (.const '_'))) :=
      .appendLeft (by decide) (by decide) _
    Passes copy w.length _ (back "r" (.const '_') (w ++ₛ .cons '#' (.const '_'))) :=
      .overLeft (by decide) hw _ _
    Passes copy 1 _ ⟨"q0", .const '_', w ++ₛ .cons '#' (.const '_')⟩ :=
      .turnRight (by decide) (by decide) _
    _ = marked [] w := by
      rw [marked, around, Stream'.append_append_stream]
      rfl

theorem passes_round (hu : ∀ d ∈ u, d ∈ ['a', 'b', 'c']) (hc : c ∈ ['a', 'b', 'c'])
    (hv : ∀ d ∈ v, d ∈ ['a', 'b', 'c']) :
    Passes copy (2 * (u ++ c :: v).length + 3) (marked u (c :: v)) (marked (u ++ [c]) v) := by
  have hback : copy.classify "back" = none := by decide
  have hnext : copy.classify "q0" = none := by decide
  have hrest : ∀ d ∈ v ++ '#' :: u, d ∈ ['a', 'b', 'c', '#'] := by
    intro d hd
    rcases List.mem_append.mp hd with hd | hd
    · exact List.mem_append_left ['#'] (hv d hd)
    · rcases List.mem_cons.mp hd with rfl | hd
      · decide
      · exact List.mem_append_left ['#'] (hu d hd)
  have hlength : 2 * (u ++ c :: v).length + 3 =
      1 + (v ++ '#' :: u).length + 1 + (v ++ '#' :: u).length + 1 := by
    simp
    omega
  have hcopy : v ++ '#' :: (u ++ [c]) = v ++ '#' :: u ++ [c] := by simp
  rw [hlength]
  generalize hmarks : (u.map Char.toUpper).reverse ++ₛ Stream'.const '_' = marks
  calc
    _ = ⟨"q0", marks, .cons c (v ++ '#' :: u ++ₛ .const '_')⟩ := by rw [← hmarks]; rfl
    Passes copy 1 _ ⟨carrying c, .cons c.toUpper marks, v ++ '#' :: u ++ₛ .const '_'⟩ :=
      .one (r := ⟨"q0", c, c.toUpper, .right, carrying c⟩) (rule_mark c hc)
        (sweeps_carrying c hc).1 _ _
    Passes copy (v ++ '#' :: u).length _
        ⟨carrying c, (v ++ '#' :: u).reverse ++ₛ .cons c.toUpper marks, .const '_'⟩ :=
      .overRight (sweeps_carrying c hc) hrest _ _
    Passes copy 1 _ (back "back" ((v ++ '#' :: u).reverse ++ₛ .cons c.toUpper marks)
        (.cons c (.const '_'))) :=
      .appendLeft (rule_append c hc) hback _
    Passes copy (v ++ '#' :: u).length _
        (back "back" (.cons c.toUpper marks) (v ++ '#' :: u ++ₛ .cons c (.const '_'))) :=
      .overLeft (by decide) hrest _ _
    Passes copy 1 _
        ⟨"q0", .cons c.toUpper marks, v ++ '#' :: u ++ₛ .cons c (.const '_')⟩ :=
      .one (r := ⟨"back", c.toUpper, c.toUpper, .right, "q0"⟩) (rule_mark_again c hc) hnext _ _
    _ = marked (u ++ [c]) v := by
      rw [marked, around, hcopy, Stream'.append_append_stream _ [c], List.map_append,
        List.reverse_append, ← hmarks]
      rfl

theorem passes_rounds (hw : ∀ d ∈ u ++ v, d ∈ ['a', 'b', 'c']) :
    Passes copy (v.length * (2 * (u ++ v).length + 3)) (marked u v) (marked (u ++ v) []) := by
  induction v generalizing u with
  | nil =>
      rw [List.length_nil, Nat.zero_mul, List.append_nil]
      exact .nil _
  | cons c v ih =>
      obtain ⟨hu, hletters⟩ := List.forall_mem_append.mp hw
      obtain ⟨hc, hv⟩ := List.forall_mem_cons.mp hletters
      have hround := passes_round hu hc hv
      rw [List.append_cons] at hw hround ⊢
      rw [List.length_cons, Nat.succ_mul, Nat.add_comm]
      exact hround.trans (ih hw)

theorem ends_marked (hw : ∀ d ∈ w, d ∈ ['a', 'b', 'c']) :
    Ends copy (1 + w.length + 1) .accepted (marked w []) (around '_' "qf" [] (w ++ '#' :: w)) := by
  have hsweeps : copy.Sweeps .left "u" Char.toLower ['A', 'B', 'C'] := by decide
  have hupper : ∀ c ∈ ['a', 'b', 'c'], c.toUpper ∈ ['A', 'B', 'C'] :=
    List.all_iff_forall_prop.mp (by decide)
  have hmarks : ∀ d ∈ (w.map Char.toUpper).reverse, d ∈ ['A', 'B', 'C'] := by
    intro d hd
    obtain ⟨c, hc, rfl⟩ := List.mem_map.mp (List.mem_reverse.mp hd)
    exact hupper c (hw c hc)
  have hsweep := Passes.sweepLeft hsweeps hmarks (.const '_') ('#' :: w ++ₛ .const '_')
  rw [List.map_reverse, List.reverse_reverse, toLower_toUpper hw, List.length_reverse,
    List.length_map] at hsweep
  calc
    Passes copy 1 _
        (back "u" ((w.map Char.toUpper).reverse ++ₛ .const '_') ('#' :: w ++ₛ .const '_')) :=
      .one (r := ⟨"q0", '#', '#', .left, "u"⟩) (by decide) (by decide) _ _
    Passes copy w.length _ (back "u" (.const '_') (w ++ₛ ('#' :: w ++ₛ .const '_'))) := hsweep
    Ends copy 1 .accepted _
        ⟨"qf", .cons '_' (.const '_'), w ++ₛ ('#' :: w ++ₛ .const '_')⟩ :=
      .one (r := ⟨"u", '_', '_', .right, "qf"⟩) (by decide) (by decide) _ _
    _ = around '_' "qf" [] (w ++ '#' :: w) := by
      rw [← Stream'.const_eq, ← Stream'.append_append_stream]
      rfl

theorem ends_copy (hw : ∀ d ∈ w, d ∈ ['a', 'b', 'c']) :
    Ends copy (2 * (w.length + 1) * (w.length + 2)) .accepted (start copy w)
      (around '_' "qf" [] (w ++ '#' :: w)) := by
  have hsteps : 2 * (w.length + 1) * (w.length + 2) =
      2 * w.length + 2 + w.length * (2 * w.length + 3) + (1 + w.length + 1) := by ring
  have hrounds := passes_rounds (u := []) hw
  rw [hsteps]
  exact ((passes_separator hw).trans hrounds).ends (ends_marked hw)

theorem steps_le_ceiling_iff {n : Nat} :
    2 * (n + 1) * (n + 2) ≤ defaultCeiling ↔ n ≤ 69 := by
  constructor
  · intro h
    by_contra hn
    have hlong : 2 * (70 + 1) * (70 + 2) ≤ 2 * (n + 1) * (n + 2) :=
      Nat.mul_le_mul (by omega) (by omega)
    exact absurd (hlong.trans h) (by decide)
  · intro h
    calc
      2 * (n + 1) * (n + 2) ≤ 2 * (69 + 1) * (69 + 2) := Nat.mul_le_mul (by omega) (by omega)
      _ ≤ defaultCeiling := by decide

end Copying

namespace Catalog

open Copying

/-- The preset copies every word over its alphabet behind a separator. Its default ceiling leaves
room for that up to a length of 69. -/
theorem copyString_copies : ∃ m, Builds "copy_string" m ∧
    ∀ w : String, (∀ c ∈ w.toList, c = 'a' ∨ c = 'b' ∨ c = 'c') →
      m.Finishes w (2 * (w.length + 1) * (w.length + 2)) .accepted (w ++ "#" ++ w) ∧
      (((m.loadTape w).run none).verdict = .accepted ∧
        ((m.loadTape w).run none).content = w ++ "#" ++ w ↔ w.length ≤ 69) := by
  refine ⟨_, builds, fun w hw => ?_⟩
  have hletters : ∀ c ∈ w.toList, c ∈ ['a', 'b', 'c'] := by simpa using hw
  have hends := ends_copy hletters
  have hblank : '_' ∉ [].reverse ++ (w.toList ++ '#' :: w.toList) := by
    have hword : '_' ∉ w.toList := fun hmem => absurd (hletters _ hmem) (by decide)
    simp [hword]
  have hcontent : String.ofList ([].reverse ++ (w.toList ++ '#' :: w.toList)) =
      w ++ "#" ++ w :=
    String.toList_inj.mp (by simp)
  have hfinishes := Machine.finishes_of_ends (m := Program.copy.start) hends hblank
  rw [hcontent, String.length_toList] at hfinishes
  refine ⟨hfinishes, fun h => ?_, fun h => ?_⟩
  · by_contra hlength
    have hbeyond := hfinishes.run_none_beyond (by decide)
      (Nat.lt_of_not_le fun hle => hlength (steps_le_ceiling_iff.mp hle))
    rw [hbeyond.1] at h
    exact absurd h.1 nofun
  · have hwithin := hfinishes.run_none_within (by decide) (steps_le_ceiling_iff.mpr h)
    exact ⟨hwithin.1, hwithin.2.2⟩

theorem copyString_copies_short_words : ∃ m, Builds "copy_string" m ∧
    (∀ c ∈ "".toList, c = 'a' ∨ c = 'b' ∨ c = 'c') ∧ m.Finishes "" 4 .accepted "#" ∧
    (∀ c ∈ "cab".toList, c = 'a' ∨ c = 'b' ∨ c = 'c') ∧
      m.Finishes "cab" 40 .accepted "cab#cab" := by
  obtain ⟨m, hbuilds, hcopies⟩ := copyString_copies
  have hnone : ∀ c ∈ "".toList, c = 'a' ∨ c = 'b' ∨ c = 'c' := by simp
  have hword : ∀ c ∈ "cab".toList, c = 'a' ∨ c = 'b' ∨ c = 'c' := by simp
  exact ⟨m, hbuilds, hnone, (hcopies "" hnone).1, hword, (hcopies "cab" hword).1⟩

end Catalog

end TapeMachine
