import Mathlib.Data.List.GetD
import TapeMachine.Infinite
import TapeMachine.Proofs.Stepping

namespace TapeMachine

namespace Tape

/-- The symbol in a numbered cell. The cells outside of the row are blank. -/
def cellAt (t : Tape) (i : Int) : Char :=
  if 0 ≤ i ∧ i < t.length then t.cells.getD i.toNat t.blank else t.blank

theorem cellAt_of_neg {t : Tape} {i : Int} (h : i < 0) : t.cellAt i = t.blank :=
  if_neg (by omega)

theorem cellAt_natCast (t : Tape) (n : Nat) : t.cellAt n = t.cells.getD n t.blank := by
  unfold cellAt
  rcases Nat.lt_or_ge n t.length with hlt | hge
  · rw [if_pos (by omega), Int.toNat_natCast]
  · rw [if_neg (by omega), List.getD_eq_default _ _ (by rw [length_cells]; exact hge)]

theorem getD_cells_head_add (t : Tape) (n : Nat) (blank : Char) :
    t.cells.getD (t.head + n) blank = (t.symbol :: t.right).getD n blank := by
  have hlength : t.left.reverse.length = t.head := List.length_reverse
  unfold cells
  rw [List.getD_append_right _ _ _ _ (by omega), hlength, Nat.add_sub_cancel_left]

theorem getD_cells_head_sub (t : Tape) {n : Nat} (hn : n < t.head) (blank : Char) :
    t.cells.getD (t.head - (n + 1)) blank = t.left.getD n blank := by
  have hlength : t.left.length = t.head := rfl
  have hindex : t.left.length - 1 - (t.head - (n + 1)) = n := by omega
  unfold cells
  rw [List.getD_append _ _ _ _ (by rw [List.length_reverse]; omega),
    List.getD_reverse _ (by omega), hindex]

theorem symbolAt_eq_cellAt (t : Tape) (d : Int) : t.symbolAt d = t.cellAt (t.head + d) := by
  match d with
  | .ofNat 0 =>
      change t.symbol = t.cellAt ((t.head + 0 : Nat) : Int)
      rw [cellAt_natCast, getD_cells_head_add, List.getD_cons_zero]
  | .ofNat (n + 1) =>
      change t.right.getD n t.blank = t.cellAt ((t.head + (n + 1) : Nat) : Int)
      rw [cellAt_natCast, getD_cells_head_add, List.getD_cons_succ]
  | .negSucc n =>
      change t.left.getD n t.blank = _
      rcases Nat.lt_or_ge n t.head with hlt | hge
      · have hindex : (t.head : Int) + .negSucc n = ((t.head - (n + 1) : Nat) : Int) := by omega
        rw [hindex, cellAt_natCast, getD_cells_head_sub t hlt]
      · rw [cellAt_of_neg (by omega), List.getD_eq_default _ _ hge]

theorem getD_append_padding (l : List Char) (k n : Nat) (x : Char) :
    (l ++ List.replicate k x).getD n x = l.getD n x := by
  rcases Nat.lt_or_ge n l.length with hlt | hge
  · exact List.getD_append _ _ _ _ hlt
  · rw [List.getD_append_right _ _ _ _ hge, List.getD_eq_default _ _ hge]
    simp

end Tape

namespace Infinite

variable (p : Program)

/-- The state is one in which the machine stops when it is entered. -/
def Decided (c : Infinite) : Prop :=
  c.state ∈ p.accept ∨ c.state ∈ p.reject

/-- The textbook machine stops in a configuration that `k` steps have led to: its state has just
been entered and is a stopping state, or no rule applies. -/
def Stops (k : Nat) (c : Infinite) : Prop :=
  (0 < k ∧ c.Decided p) ∨ c.next? p = none

instance (c : Infinite) : Decidable (c.Decided p) :=
  inferInstanceAs (Decidable (_ ∨ _))

/-- The textbook machine has stopped already or stops in its next attempt. -/
def GivesUp (k : Nat) (c : Infinite) : Prop :=
  c.Stops p k ∨ ∃ d, c.next? p = some d ∧ d.Decided p

/-- What it means to stop in a configuration. A state that both accepts and rejects accepts. -/
def verdict (c : Infinite) : Outcome :=
  if c.state ∈ p.accept then .accepted
  else if c.state ∈ p.reject then .rejected
  else .halted

/-- One attempt of the textbook machine, which has made `k` steps. It stays where it stops. -/
def attempt : Nat × Infinite → Nat × Infinite
  | (k, c) =>
      if 0 < k ∧ c.Decided p then (k, c)
      else (c.next? p).elim (k, c) fun d => (k + 1, d)

/-- The steps that the textbook machine has made after `n` attempts, and its configuration. -/
def tried (input : List Char) (n : Nat) : Nat × Infinite :=
  (attempt p)^[n] (0, start p input)

variable {p} {c d : Infinite} {k : Nat}

theorem classify_of_not_decided (h : ¬ c.Decided p) : p.classify c.state = none :=
  Program.classify_eq_none_iff.mpr (not_or.mp h)

theorem classify_getD (p : Program) (c : Infinite) :
    (p.classify c.state).getD .halted = c.verdict p := by
  obtain ⟨haccept, h⟩ | ⟨haccept, hreject, h⟩ | ⟨haccept, hreject, h⟩ :=
    p.classify_cases c.state <;> simp [verdict, *]

theorem classify_of_decided (h : c.Decided p) : p.classify c.state = some (c.verdict p) := by
  rw [← classify_getD]
  cases hclassify : p.classify c.state with
  | none => exact absurd h (not_or.mpr (Program.classify_eq_none_iff.mp hclassify))
  | some outcome => rfl

theorem attempt_of_stops (h : c.Stops p k) : attempt p (k, c) = (k, c) := by
  rcases h with hdecided | hnext
  · exact if_pos hdecided
  · simp [attempt, hnext]

theorem attempt_of_next? (h : ¬ (0 < k ∧ c.Decided p)) (hnext : c.next? p = some d) :
    attempt p (k, c) = (k + 1, d) := by
  simp [attempt, if_neg h, hnext]

theorem symbolAt_start (p : Program) (input : List Char) (d : Int) :
    (start p input).symbolAt d = (Tape.ofContent input p.blank).symbolAt d := by
  have hposition : (start p input).symbolAt d = (start p input).cells d :=
    congrArg (start p input).cells (Int.zero_add d)
  rw [hposition]
  cases input with
  | nil =>
      match d with
      | .ofNat 0 => rfl
      | .ofNat (n + 1) => exact (Tape.getD_append_padding [] (Tape.padding - 1) n p.blank).symm
      | .negSucc n => exact (Tape.getD_append_padding [] Tape.padding n p.blank).symm
  | cons a rest =>
      match d with
      | .ofNat 0 => rfl
      | .ofNat (n + 1) => exact (Tape.getD_append_padding rest Tape.padding n p.blank).symm
      | .negSucc n => exact (Tape.getD_append_padding [] Tape.padding n p.blank).symm

end Infinite

namespace Machine

/-- A machine agrees with the textbook machine that `k` steps have led to a configuration: in the
state, in the number of steps, and in the symbols around the head, where the cells outside of the
row are taken to be blank. -/
structure Agrees (m : Machine) (k : Nat) (c : Infinite) : Prop where
  state : m.state = c.state
  steps : m.steps = k
  tape : ∃ t, m.tape = some t ∧ t.blank = m.blank ∧
    ∀ d : Int, c.cells (c.position + d) = t.cellAt (t.head + d)

variable {m : Machine} {k : Nat} {c d : Infinite}

theorem agrees_of_shows {t : Tape} (hsteps : m.steps = k) (htape : m.tape = some t)
    (hblank : t.blank = m.blank) (hshows : c.Shows m.state t) : m.Agrees k c :=
  ⟨hshows.1.symm, hsteps, t, htape, hblank,
    fun d => (hshows.2 d).trans (t.symbolAt_eq_cellAt d)⟩

theorem Agrees.shows (h : m.Agrees k c) :
    ∃ t, m.tape = some t ∧ t.blank = m.blank ∧ c.Shows m.state t := by
  obtain ⟨t, htape, hblank, hcells⟩ := h.tape
  exact ⟨t, htape, hblank, h.state.symm, fun d => (hcells d).trans (t.symbolAt_eq_cellAt d).symm⟩

theorem agrees_loadTape (m : Machine) (input : String) :
    (m.loadTape input).Agrees 0 (.start m.toProgram input.toList) :=
  agrees_of_shows rfl rfl (Tape.blank_ofContent _ _)
    ⟨rfl, Infinite.symbolAt_start m.toProgram input.toList⟩

theorem rule?_of_shows {t : Tape} (htape : m.tape = some t) (hshows : c.Shows m.state t) :
    m.rule? = m.table.lookup c.state (c.cells c.position) := by
  have hsymbol : c.cells c.position = t.symbol := by
    have hhere := hshows.2 0
    simpa [Infinite.symbolAt, Tape.symbolAt] using hhere
  rw [rule?, currentTape_of_tape htape, hsymbol, hshows.1]

theorem Agrees.step_of_next? (h : m.Agrees k c) (hrunning : m.status = .running)
    (hnext : c.next? m.toProgram = some d) :
    m.step.Agrees (k + 1) d ∧ m.step.status = m.statusAfter d.state (k + 1) := by
  obtain ⟨t, htape, hblank, hshows⟩ := h.shows
  obtain ⟨r, hlookup, rfl⟩ := Option.map_eq_some_iff.mp hnext
  have hrule : m.rule? = some r := (rule?_of_shows htape hshows).trans hlookup
  have hafter : (m.record.follow r).tape = some (r.apply t) :=
    congrArg (fun current => some (r.apply current)) (currentTape_of_tape (m := m) htape)
  have hsteps : m.steps + 1 = k + 1 := congrArg (· + 1) h.steps
  rw [step_of_rule? hrunning hrule]
  constructor
  · exact agrees_of_shows hsteps hafter ((r.blank_apply t).trans hblank)
      (Infinite.shows_follow hshows r)
  · rw [← hsteps]
    rfl

theorem Agrees.step_of_next?_eq_none (h : m.Agrees k c) (hrunning : m.status = .running)
    (hnext : c.next? m.toProgram = none) :
    m.step.Agrees k c ∧ m.step.status = .halted (c.verdict m.toProgram) := by
  obtain ⟨t, htape, hblank, hshows⟩ := h.shows
  have hrule : m.rule? = none :=
    (rule?_of_shows htape hshows).trans (Option.map_eq_none_iff.mp hnext)
  have hafter : m.record.halt.tape = some t := congrArg some (currentTape_of_tape htape)
  rw [step_of_rule?_eq_none hrunning hrule]
  constructor
  · exact agrees_of_shows h.steps hafter hblank hshows
  · rw [← Infinite.classify_getD, ← h.state]
    rfl

theorem statusAfter_of_decided {steps : Nat} (h : d.Decided m.toProgram) :
    m.statusAfter d.state steps = .halted (d.verdict m.toProgram) := by
  simp [statusAfter, Infinite.classify_of_decided h]

theorem statusAfter_of_not_decided {steps : Nat} (h : ¬ d.Decided m.toProgram) :
    m.statusAfter d.state steps =
      if m.ceiling ≤ steps then .halted .timeout else .running := by
  simp [statusAfter, Infinite.classify_of_not_decided h]

/-- A machine keeps pace with the textbook machine of a program: it agrees with it, and has halted
only where the textbook machine stops. -/
structure Tracks (p : Program) (m : Machine) (k : Nat) (c : Infinite) : Prop
    extends m.Agrees k c where
  program : m.toProgram = p
  status : (m.status = .running ∧ ¬ (0 < k ∧ c.Decided p)) ∨
    (m.status = .halted (c.verdict p) ∧ c.Stops p k)

theorem tracks_loadTape (m : Machine) (input : String) :
    Tracks m.toProgram (m.loadTape input) 0 (.start m.toProgram input.toList) :=
  ⟨agrees_loadTape m input, rfl, .inl ⟨rfl, by omega⟩⟩

theorem Tracks.step_cases {p : Program} (h : Tracks p m k c)
    (htimeout : m.step.status ≠ .halted .timeout) :
    (c.Stops p k ∧ m.step.isHalted = true ∧ Tracks p m.step k c) ∨
      ∃ d, ¬ c.Stops p k ∧ c.next? p = some d ∧
        (m.step.isHalted = true ↔ d.Decided p) ∧ Tracks p m.step (k + 1) d := by
  obtain rfl := h.program
  have hprogram := toProgram_step m
  rcases h.status with ⟨hrunning, hundecided⟩ | ⟨hhalted, hstops⟩
  · cases hnext : c.next? m.toProgram with
    | none =>
        obtain ⟨hagrees, hstatus⟩ := h.toAgrees.step_of_next?_eq_none hrunning hnext
        exact .inl ⟨.inr hnext, isHalted_of_status hstatus,
          hagrees, hprogram, .inr ⟨hstatus, .inr hnext⟩⟩
    | some d =>
        obtain ⟨hagrees, hstatus⟩ := h.toAgrees.step_of_next? hrunning hnext
        have hgoes : ¬ c.Stops m.toProgram k := by
          rintro (hdecided | hnone)
          · exact hundecided hdecided
          · rw [hnext] at hnone
            contradiction
        refine .inr ⟨d, hgoes, rfl, ?_⟩
        rcases Decidable.em (d.Decided m.toProgram) with hdecided | hdecided
        · rw [statusAfter_of_decided hdecided] at hstatus
          exact ⟨iff_of_true (isHalted_of_status hstatus) hdecided,
            hagrees, hprogram, .inr ⟨hstatus, .inl ⟨Nat.succ_pos k, hdecided⟩⟩⟩
        · rw [statusAfter_of_not_decided hdecided] at hstatus
          split at hstatus
          · contradiction
          · refine ⟨iff_of_false ?_ hdecided, hagrees, hprogram, .inl ⟨hstatus, ?_⟩⟩
            · simp [isHalted, Status.isHalted, hstatus]
            · exact fun h => hdecided h.2
  · have hhalts := isHalted_of_status hhalted
    rw [step_of_isHalted hhalts]
    exact .inl ⟨hstops, hhalts, h⟩

theorem Tracks.step {p : Program} (h : Tracks p m k c)
    (htimeout : m.step.status ≠ .halted .timeout) :
    Tracks p m.step (Infinite.attempt p (k, c)).1 (Infinite.attempt p (k, c)).2 := by
  obtain ⟨hstops, -, hstep⟩ | ⟨d, hgoes, hnext, -, hstep⟩ := h.step_cases htimeout
  · rw [Infinite.attempt_of_stops hstops]
    exact hstep
  · rw [Infinite.attempt_of_next? (fun hdecided => hgoes (.inl hdecided)) hnext]
    exact hstep

theorem Tracks.isHalted_step_iff {p : Program} (h : Tracks p m k c)
    (htimeout : m.step.status ≠ .halted .timeout) :
    m.step.isHalted = true ↔ c.GivesUp p k := by
  obtain ⟨hstops, hhalts, -⟩ | ⟨d, hgoes, hnext, hhalts, -⟩ := h.step_cases htimeout
  · exact iff_of_true hhalts (.inl hstops)
  · rw [hhalts]
    constructor
    · intro hdecided
      exact .inr ⟨d, hnext, hdecided⟩
    · rintro (hstops | ⟨e, hnext', hdecided⟩)
      · contradiction
      · obtain rfl : d = e := Option.some.inj (hnext.symm.trans hnext')
        exact hdecided

theorem tracks_iterate_step (m : Machine) (input : String) {n : Nat}
    (h : (step^[n] (m.loadTape input)).status ≠ .halted .timeout) :
    Tracks m.toProgram (step^[n] (m.loadTape input))
      (Infinite.tried m.toProgram input.toList n).1
      (Infinite.tried m.toProgram input.toList n).2 := by
  induction n with
  | zero => exact tracks_loadTape m input
  | succ n ih =>
      have hbefore := ih (status_ne_timeout_of_le h n.le_succ)
      unfold Infinite.tried at hbefore ⊢
      rw [Function.iterate_succ_apply'] at h ⊢
      rw [Function.iterate_succ_apply']
      exact hbefore.step h

theorem attempt_eq_false_iff_givesUp {m : Machine} {input : String} {n j : Nat}
    (h : (step^[n] (m.loadTape input)).status ≠ .halted .timeout) (hj : j < n) :
    (step^[j] (m.loadTape input)).attempt.1 = false ↔
      (Infinite.tried m.toProgram input.toList j).2.GivesUp m.toProgram
        (Infinite.tried m.toProgram input.toList j).1 := by
  have hnow := tracks_iterate_step m input (status_ne_timeout_of_le h (Nat.le_of_lt hj))
  have hafter := status_ne_timeout_of_le h (Nat.succ_le_of_lt hj)
  rw [Function.iterate_succ_apply'] at hafter
  rw [attempt_fst, Bool.not_eq_false']
  exact hnow.isHalted_step_iff hafter

/-- A machine on an input refines the textbook machine as long as the ceiling has not stopped it, in
particular while fewer steps than the ceiling have been attempted. -/
theorem refines_textbook (m : Machine) (input : String) (n : Nat)
    (hceiling : (step^[n] (m.loadTape input)).status ≠ .halted .timeout) :
    Tracks m.toProgram (step^[n] (m.loadTape input))
        (Infinite.tried m.toProgram input.toList n).1
        (Infinite.tried m.toProgram input.toList n).2 ∧
      ∀ j < n, ((step^[j] (m.loadTape input)).attempt.1 = false ↔
        (Infinite.tried m.toProgram input.toList j).2.GivesUp m.toProgram
          (Infinite.tried m.toProgram input.toList j).1) := by
  refine ⟨tracks_iterate_step m input hceiling, ?_⟩
  intro j hj
  exact attempt_eq_false_iff_givesUp hceiling hj

/-- The first ten steps use up the stored cells on the left, and the row grows with every other. -/
theorem marker_refines_textbook :
    (step^[12] (marker.loadTape "")).status ≠ .halted .timeout ∧
      Tracks marker.toProgram (step^[12] (marker.loadTape ""))
        (Infinite.tried marker.toProgram [] 12).1 (Infinite.tried marker.toProgram [] 12).2 :=
  have hceiling : (step^[12] (marker.loadTape "")).status ≠ .halted .timeout :=
    status_iterate_step_ne_timeout (by decide) (by decide)
  ⟨hceiling, (refines_textbook marker "" 12 hceiling).1⟩

/-- A machine refines the textbook machine while it has made fewer attempts than its ceiling. -/
theorem refines_textbook_below_ceiling (m : Machine) (input : String) {n : Nat}
    (h : n < m.ceiling) :
    Tracks m.toProgram (step^[n] (m.loadTape input))
        (Infinite.tried m.toProgram input.toList n).1
        (Infinite.tried m.toProgram input.toList n).2 ∧
      ∀ j < n, ((step^[j] (m.loadTape input)).attempt.1 = false ↔
        (Infinite.tried m.toProgram input.toList j).2.GivesUp m.toProgram
          (Infinite.tried m.toProgram input.toList j).1) := by
  have hstart : (m.loadTape input).status ≠ .halted .timeout := by
    simp [loadTape, restart]
  have hroom : (m.loadTape input).steps + n < (m.loadTape input).ceiling := by
    rw [← Nat.zero_add n] at h
    exact h
  have hceiling := status_iterate_step_ne_timeout hstart hroom
  refine ⟨tracks_iterate_step m input hceiling, ?_⟩
  intro j hj
  exact attempt_eq_false_iff_givesUp hceiling hj

end Machine

end TapeMachine
