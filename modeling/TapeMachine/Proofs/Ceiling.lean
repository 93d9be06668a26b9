import TapeMachine.Proofs.Textbook

namespace TapeMachine

namespace Infinite

/-- The textbook machine stops on an input in no configuration that fewer than `k` steps lead
to. -/
def GoesOn (p : Program) (input : List Char) (k : Nat) : Prop :=
  ∀ j < k, ∀ d, after? p j (start p input) = some d → ¬ d.Stops p j

/-- The textbook machine first stops on an input after `k` steps, in a given configuration. -/
structure FirstStop (p : Program) (input : List Char) (k : Nat) (c : Infinite) : Prop where
  reached : after? p k (start p input) = some c
  stops : c.Stops p k
  first : GoesOn p input k

/-- A stop after `k` steps is noticed under a ceiling: a stopping state as it is entered, a missing
rule only in the attempt at one more step. -/
def Noticed (p : Program) (ceiling k : Nat) (c : Infinite) : Prop :=
  ((0 < k ∧ c.Decided p) ∧ k ≤ ceiling) ∨ (c.next? p = none ∧ k < ceiling)

theorem after?_succ (p : Program) (n : Nat) (c : Infinite) :
    after? p (n + 1) c = (after? p n c).bind (next? p) := by
  induction n generalizing c with
  | zero => cases hnext : c.next? p <;> simp [after?, hnext]
  | succ n ih =>
      rw [after?]
      cases hnext : c.next? p with
      | none => simp [after?, hnext]
      | some d => simpa [after?, hnext] using ih d

theorem verdict_of_decided {p : Program} {c : Infinite} (h : c.Decided p) :
    c.verdict p = if c.state ∈ p.accept then .accepted else .rejected := by
  unfold verdict
  split
  · rfl
  · exact if_pos (h.resolve_left ‹_›)

theorem goesOn_of_not_noticed {p : Program} {input : List Char} {ceiling : Nat}
    (h : ∀ k c, FirstStop p input k c → ¬ c.Noticed p ceiling k) : GoesOn p input ceiling := by
  intro j hj
  induction j using Nat.strongRecOn with
  | ind j ih =>
      intro c hreached hstops
      have hfirst : FirstStop p input j c :=
        ⟨hreached, hstops, fun i hi => ih i hi (Nat.lt_trans hi hj)⟩
      apply h j c hfirst
      rcases hstops with hdecided | hnext
      · exact .inl ⟨hdecided, Nat.le_of_lt hj⟩
      · exact .inr ⟨hnext, hj⟩

end Infinite

namespace Machine

variable {m : Machine} {input : String} {k ceiling : Nat} {c : Infinite}

theorem running_of_not_decided {status : Status} (hk : k < ceiling)
    (hundecided : ¬ (0 < k ∧ c.Decided m.toProgram))
    (hstatus : status =
      if 0 < k then (m.setCeiling ceiling).statusAfter c.state k else .running) :
    status = .running := by
  rw [hstatus]
  split
  · rename_i hpos
    have hstay : ¬ c.Decided m.toProgram := fun hdecided => hundecided ⟨hpos, hdecided⟩
    rw [statusAfter_of_not_decided (m := m.setCeiling ceiling) hstay]
    exact if_neg (Nat.not_le_of_lt hk)
  · rfl

/-- Below the ceiling and before the textbook machine stops, the machine is where that machine is,
and the state it has just entered decides how it goes on. -/
theorem agrees_iterate_step (hk : k ≤ ceiling)
    (hgoes : Infinite.GoesOn m.toProgram input.toList k) :
    ∃ c, Infinite.after? m.toProgram k (.start m.toProgram input.toList) = some c ∧
      (step^[k] ((m.setCeiling ceiling).loadTape input)).Agrees k c ∧
      (step^[k] ((m.setCeiling ceiling).loadTape input)).status =
        if 0 < k then (m.setCeiling ceiling).statusAfter c.state k else .running := by
  induction k with
  | zero => exact ⟨_, rfl, agrees_loadTape (m.setCeiling ceiling) input, rfl⟩
  | succ k ih =>
      obtain ⟨c, hreached, hagrees, hstatus⟩ :=
        ih (by omega) fun j hj => hgoes j (by omega)
      have hstay := hgoes k (by omega) c hreached
      obtain ⟨d, hnext⟩ := Option.ne_none_iff_exists'.mp fun hnone => hstay (.inr hnone)
      have hrunning := running_of_not_decided hk (fun hdecided => hstay (.inl hdecided)) hstatus
      have hprogram := toProgram_iterate_step k ((m.setCeiling ceiling).loadTape input)
      rw [Function.iterate_succ_apply']
      generalize step^[k] ((m.setCeiling ceiling).loadTape input) = before at *
      obtain ⟨hafter, hstatus⟩ := hagrees.step_of_next? hrunning (by rw [hprogram]; exact hnext)
      refine ⟨d, ?_, hafter, ?_⟩
      · rw [Infinite.after?_succ, hreached]
        exact hnext
      · rw [hstatus, if_pos (Nat.succ_pos k)]
        unfold statusAfter
        rw [hprogram]
        rfl

theorem run_loadTape_eq_iterate {n : Nat} (hceiling : 1 ≤ ceiling)
    (hhalted : (step^[n] ((m.setCeiling ceiling).loadTape input)).isHalted = true) :
    (m.loadTape input).run (some ceiling) =
      step^[n] ((m.setCeiling ceiling).loadTape input) := by
  have hstart : (m.loadTape input).withCeiling (some ceiling) =
      (m.setCeiling ceiling).loadTape input := withCeiling_some hceiling _
  rw [← hstart] at hhalted
  rw [run_eq_iterate hhalted, hstart]

theorem run_of_status {n : Nat} {outcome : Outcome} (hceiling : 1 ≤ ceiling)
    (hstatus : (step^[n] ((m.setCeiling ceiling).loadTape input)).status = .halted outcome)
    (hsteps : (step^[n] ((m.setCeiling ceiling).loadTape input)).steps = k) :
    ((m.loadTape input).run (some ceiling)).verdict = outcome ∧
      ((m.loadTape input).run (some ceiling)).steps = k := by
  rw [run_loadTape_eq_iterate hceiling (isHalted_of_status hstatus)]
  exact ⟨verdict_of_status hstatus, hsteps⟩

theorem agrees_run_of_decided (hceiling : 1 ≤ ceiling)
    (hstop : Infinite.FirstStop m.toProgram input.toList k c)
    (hdecided : 0 < k ∧ c.Decided m.toProgram) (hk : k ≤ ceiling) :
    ((m.loadTape input).run (some ceiling)).Agrees k c ∧
      ((m.loadTape input).run (some ceiling)).status = .halted (c.verdict m.toProgram) := by
  obtain ⟨d, hreached, hagrees, hstatus⟩ := agrees_iterate_step hk hstop.first
  obtain rfl : c = d := Option.some.inj (hstop.reached.symm.trans hreached)
  rw [if_pos hdecided.1, statusAfter_of_decided (m := m.setCeiling ceiling) hdecided.2] at hstatus
  rw [run_loadTape_eq_iterate hceiling (isHalted_of_status hstatus)]
  exact ⟨hagrees, hstatus⟩

theorem run_of_decided (hceiling : 1 ≤ ceiling)
    (hstop : Infinite.FirstStop m.toProgram input.toList k c)
    (hdecided : 0 < k ∧ c.Decided m.toProgram) (hk : k ≤ ceiling) :
    ((m.loadTape input).run (some ceiling)).verdict = c.verdict m.toProgram ∧
      ((m.loadTape input).run (some ceiling)).steps = k := by
  obtain ⟨hagrees, hstatus⟩ := agrees_run_of_decided hceiling hstop hdecided hk
  exact ⟨verdict_of_status hstatus, hagrees.steps⟩

theorem run_of_next?_eq_none (hceiling : 1 ≤ ceiling)
    (hstop : Infinite.FirstStop m.toProgram input.toList k c)
    (hundecided : ¬ (0 < k ∧ c.Decided m.toProgram)) (hnext : c.next? m.toProgram = none)
    (hk : k < ceiling) :
    ((m.loadTape input).run (some ceiling)).verdict = c.verdict m.toProgram ∧
      ((m.loadTape input).run (some ceiling)).steps = k := by
  obtain ⟨d, hreached, hagrees, hstatus⟩ := agrees_iterate_step (Nat.le_of_lt hk) hstop.first
  obtain rfl : c = d := Option.some.inj (hstop.reached.symm.trans hreached)
  have hrunning := running_of_not_decided hk hundecided hstatus
  have hprogram := toProgram_iterate_step k ((m.setCeiling ceiling).loadTape input)
  obtain ⟨hafter, hhalted⟩ :=
    hagrees.step_of_next?_eq_none hrunning (by rw [hprogram]; exact hnext)
  rw [← Function.iterate_succ_apply' step] at hafter hhalted
  rw [hprogram] at hhalted
  exact run_of_status hceiling hhalted hafter.steps

theorem run_of_goesOn (hceiling : 1 ≤ ceiling)
    (hgoes : Infinite.GoesOn m.toProgram input.toList ceiling)
    (hundecided : ∀ d,
      Infinite.after? m.toProgram ceiling (.start m.toProgram input.toList) = some d →
        ¬ d.Decided m.toProgram) :
    ((m.loadTape input).run (some ceiling)).verdict = .timeout ∧
      ((m.loadTape input).run (some ceiling)).steps = ceiling := by
  obtain ⟨c, hreached, hagrees, hstatus⟩ := agrees_iterate_step (Nat.le_refl ceiling) hgoes
  rw [if_pos (show 0 < ceiling from hceiling),
    statusAfter_of_not_decided (m := m.setCeiling ceiling) (hundecided c hreached),
    if_pos (show (m.setCeiling ceiling).ceiling ≤ ceiling from Nat.le_refl ceiling)] at hstatus
  exact run_of_status hceiling hstatus hagrees.steps

/-- What ends a run under a ceiling, told by where the textbook machine first stops. A run that is
not ended by the ceiling is the same under every higher one. -/
theorem run_under_ceiling (m : Machine) (input : String) {ceiling : Nat} (hceiling : 1 ≤ ceiling) :
    (∀ k c, Infinite.FirstStop m.toProgram input.toList k c →
      ((0 < k ∧ c.Decided m.toProgram) → k ≤ ceiling →
        ((m.loadTape input).run (some ceiling)).verdict =
            (if c.state ∈ m.accept then .accepted else .rejected) ∧
          ((m.loadTape input).run (some ceiling)).steps = k) ∧
      (c.next? m.toProgram = none → k < ceiling →
        ((m.loadTape input).run (some ceiling)).verdict = c.verdict m.toProgram ∧
          ((m.loadTape input).run (some ceiling)).steps = k)) ∧
    ((∀ k c, Infinite.FirstStop m.toProgram input.toList k c →
        ¬ c.Noticed m.toProgram ceiling k) →
      ((m.loadTape input).run (some ceiling)).verdict = .timeout ∧
        ((m.loadTape input).run (some ceiling)).steps = ceiling) ∧
    ∀ higher, ceiling ≤ higher → ((m.loadTape input).run (some ceiling)).verdict ≠ .timeout →
      (m.loadTape input).run (some higher) =
        { (m.loadTape input).run (some ceiling) with ceiling := higher } := by
  refine ⟨fun k c hstop => ⟨fun hdecided hk => ?_, fun hnext hk => ?_⟩, fun hunnoticed => ?_, ?_⟩
  · rw [← Infinite.verdict_of_decided hdecided.2]
    exact run_of_decided hceiling hstop hdecided hk
  · rcases Decidable.em (0 < k ∧ c.Decided m.toProgram) with hdecided | hundecided
    · exact run_of_decided hceiling hstop hdecided (Nat.le_of_lt hk)
    · exact run_of_next?_eq_none hceiling hstop hundecided hnext hk
  · have hgoes := Infinite.goesOn_of_not_noticed hunnoticed
    refine run_of_goesOn hceiling hgoes fun c hreached hdecided => ?_
    have hstop : Infinite.FirstStop m.toProgram input.toList ceiling c :=
      ⟨hreached, .inl ⟨hceiling, hdecided⟩, hgoes⟩
    exact hunnoticed ceiling c hstop (.inl ⟨⟨hceiling, hdecided⟩, Nat.le_refl ceiling⟩)
  · intro higher hle hverdict
    exact run_some_of_le hceiling hle hverdict

theorem marker_firstStop :
    Infinite.FirstStop marker.toProgram ['x'] 1
      ((Infinite.start marker.toProgram ['x']).follow ⟨"walk", 'x', 'x', .stay, "stop"⟩) where
  reached := rfl
  stops := .inl (by decide)
  first j hj d hd := by
    obtain rfl : j = 0 := by omega
    obtain rfl := Option.some.inj hd
    rintro (⟨hpos, -⟩ | hnext)
    · contradiction
    · have hsome : ((Infinite.start marker.toProgram ['x']).next? marker.toProgram).isSome := by
        decide
      rw [hnext] at hsome
      contradiction

/-- A stopping state that is entered with the last step allowed. -/
theorem marker_run_under_ceiling :
    1 ≤ 1 ∧ ((marker.loadTape "x").run (some 1)).verdict = .accepted ∧
      ((marker.loadTape "x").run (some 1)).steps = 1 :=
  ⟨Nat.le_refl 1,
    ((run_under_ceiling marker "x" (Nat.le_refl 1)).1 1 _ marker_firstStop).1 (by decide)
      (Nat.le_refl 1)⟩

end Machine

end TapeMachine
