import TapeMachine.Machine.Operation
import TapeMachine.Proofs.Stepping

namespace TapeMachine

theorem Tape.blank_seek (blank : Char) (n : Nat) (left : List Char) (c : Char)
    (right : List Char) : (seek blank n left c right).blank = blank := by
  induction n generalizing left c right with
  | zero => rfl
  | succ n ih =>
      cases right with
      | nil => rfl
      | cons d right => exact ih (c :: left) d right

@[simp] theorem Snapshot.blank_restore (s : Snapshot) (blank : Char) :
    (s.restore blank).blank = blank := by
  unfold restore Tape.restore
  cases s.cells with
  | nil => exact Tape.blank_ofContent [] blank
  | cons c rest => exact Tape.blank_seek blank s.head [] c rest

/-- What holds of every configuration in which a machine attempts a step. -/
structure Snapshot.Sound (p : Program) (s : Snapshot) : Prop where
  blank : s.tape.blank = p.blank
  initial : s.step = 0 → s.state = p.initial
  undecided : 0 < s.step → p.classify s.state = none

namespace Machine

/-- What every operation keeps. A halted machine has either carried out a rule in its latest
attempt, or recorded an attempt without carrying out anything. -/
structure Invariant (m : Machine) : Prop where
  past : ∀ s ∈ m.past, s.Sound m.toProgram
  numbered : m.history.map Snapshot.step = List.range m.past.length
  blank : m.currentTape.blank = m.blank
  untouched : m.tape = none → m.status = .running ∧ m.past = []
  running : m.status = .running → m.past.length = m.steps ∧ m.snapshot.Sound m.toProgram
  halted : ∀ outcome, m.status = .halted outcome →
    (m.past.length = m.steps ∧ 1 ≤ m.steps ∧
      (m.classify m.state = some outcome ∨ m.classify m.state = none ∧ outcome = .timeout)) ∨
    (m.past.length = m.steps + 1 ∧
      (m.classify m.state = some outcome ∧ m.steps = 0 ∧ m.state = m.initial ∨
        m.classify m.state = none ∧ outcome = .halted))

variable {m : Machine}

theorem invariant_restart (hblank : m.currentTape.blank = m.blank) : m.restart.Invariant where
  past := by
    intro s hs
    contradiction
  numbered := rfl
  blank := hblank
  untouched _ := ⟨rfl, rfl⟩
  running _ := ⟨rfl, hblank, fun _ => rfl, fun h => absurd h (Nat.lt_irrefl 0)⟩
  halted := by
    intro outcome hstatus
    contradiction

theorem blank_currentTape (h : ∀ t, m.tape = some t → t.blank = m.blank) :
    m.currentTape.blank = m.blank := by
  unfold currentTape
  cases htape : m.tape with
  | none => exact Tape.blank_ofContent [] m.blank
  | some t => exact h t htape

theorem invariant_new (name description : String) : (new name description).Invariant :=
  invariant_restart (m := new name description) rfl

theorem invariant_configure (m : Machine) (initial : String) (accept reject : List String)
    (blank : Char) : (m.configure initial accept reject blank).Invariant :=
  invariant_restart (Tape.blank_ofContent [] blank)

theorem invariant_loadTape (m : Machine) (input : String) : (m.loadTape input).Invariant :=
  invariant_restart (Tape.blank_ofContent input.toList m.blank)

theorem Invariant.blank_tape (h : m.Invariant) {t : Tape} (htape : m.tape = some t) :
    t.blank = m.blank := by
  rw [← currentTape_of_tape htape]
  exact h.blank

theorem Invariant.reset (h : m.Invariant) (keepTape : Bool) : (m.reset keepTape).Invariant := by
  apply invariant_restart
  apply blank_currentTape
  change ∀ t, (if keepTape then m.past.getLast? else none).elim (m.tape.map (·.reset []))
    (fun first => some (first.restore m.blank)) = some t → t.blank = m.blank
  intro t htape
  cases hfirst : (if keepTape then m.past.getLast? else none) with
  | some first =>
      rw [hfirst] at htape
      obtain rfl := Option.some.inj htape
      exact first.blank_restore m.blank
  | none =>
      rw [hfirst] at htape
      obtain ⟨loaded, hloaded, rfl⟩ := Option.map_eq_some_iff.mp htape
      exact (Tape.blank_ofContent [] loaded.blank).trans (h.blank_tape hloaded)

theorem Invariant.reprogram (h : m.Invariant) (table : Table) (ceiling : Nat) :
    ({ m with table, ceiling } : Machine).Invariant where
  past s hs := ⟨(h.past s hs).blank, (h.past s hs).initial, (h.past s hs).undecided⟩
  numbered := h.numbered
  blank := h.blank
  untouched := h.untouched
  running hstatus :=
    have hsound := (h.running hstatus).2
    ⟨(h.running hstatus).1, hsound.blank, hsound.initial, hsound.undecided⟩
  halted := h.halted

theorem Invariant.numbered_record (h : m.Invariant) (hrunning : m.status = .running) :
    m.record.history.map Snapshot.step = List.range (m.past.length + 1) := by
  have hlength : m.snapshot.step = m.past.length := (h.running hrunning).1.symm
  change (m.snapshot :: m.past).reverse.map Snapshot.step = _
  rw [List.reverse_cons, List.map_append, List.range_succ, List.map_singleton, hlength]
  exact congrArg (· ++ [m.past.length]) h.numbered

theorem Invariant.past_record (h : m.Invariant) (hrunning : m.status = .running) :
    ∀ s ∈ m.record.past, s.Sound m.toProgram := by
  intro s hs
  rcases List.mem_cons.mp hs with rfl | hs
  · exact (h.running hrunning).2
  · exact h.past s hs

theorem Invariant.follow (h : m.Invariant) (hrunning : m.status = .running) (r : Rule) :
    (m.record.follow r).Invariant where
  past := h.past_record hrunning
  numbered := h.numbered_record hrunning
  blank := (r.blank_apply m.record.currentTape).trans h.blank
  untouched htape := by contradiction
  running hstatus := by
    obtain ⟨hlength, -⟩ := h.running hrunning
    obtain ⟨hclassify, -⟩ := statusAfter_eq_running_iff.mp hstatus
    exact ⟨congrArg (· + 1) hlength, (r.blank_apply m.record.currentTape).trans h.blank,
      fun hzero => absurd hzero (Nat.succ_ne_zero m.steps), fun _ => hclassify⟩
  halted outcome hstatus := by
    obtain ⟨hlength, -⟩ := h.running hrunning
    refine .inl ⟨congrArg (· + 1) hlength, Nat.succ_pos m.steps, ?_⟩
    rcases statusAfter_eq_halted_iff.mp hstatus with hsome | ⟨hnone, -, houtcome⟩
    · exact .inl hsome
    · exact .inr ⟨hnone, houtcome⟩

theorem Invariant.halt (h : m.Invariant) (hrunning : m.status = .running) :
    m.record.halt.Invariant where
  past := h.past_record hrunning
  numbered := h.numbered_record hrunning
  blank := h.blank
  untouched htape := by contradiction
  running hstatus := by contradiction
  halted outcome hstatus := by
    obtain ⟨hlength, hsound⟩ := h.running hrunning
    refine .inr ⟨congrArg (· + 1) hlength, ?_⟩
    have houtcome : (m.classify m.state).getD .halted = outcome := by injection hstatus
    change m.classify m.state = some outcome ∧ m.steps = 0 ∧ m.state = m.initial ∨
      m.classify m.state = none ∧ outcome = .halted
    cases hclassify : m.classify m.state with
    | none =>
        rw [hclassify] at houtcome
        exact .inr ⟨rfl, houtcome.symm⟩
    | some decided =>
        rw [hclassify] at houtcome
        -- A state that was entered by a step has not been classified, or the machine had halted.
        have hzero : m.steps = 0 := by
          apply Nat.eq_zero_of_not_pos
          intro hpos
          rw [show m.classify m.state = none from hsound.undecided hpos] at hclassify
          contradiction
        exact .inl ⟨congrArg some houtcome, hzero, hsound.initial hzero⟩

theorem Invariant.step (h : m.Invariant) : m.step.Invariant := by
  obtain ⟨outcome, -, hstep⟩ | ⟨hrunning, r, -, hstep⟩ | ⟨hrunning, -, hstep⟩ := step_cases m
  · rw [hstep]
    exact h
  · rw [hstep]
    exact h.follow hrunning r
  · rw [hstep]
    exact h.halt hrunning

theorem Invariant.iterate_step (h : m.Invariant) (n : Nat) : (Machine.step^[n] m).Invariant := by
  induction n with
  | zero => exact h
  | succ n ih =>
      rw [Function.iterate_succ_apply']
      exact ih.step

theorem Invariant.run (h : m.Invariant) (ceiling : Option Nat) : (m.run ceiling).Invariant :=
  run_induct (fun m ceiling hm => hm.reprogram m.table ceiling) (fun _ hm => hm.step) h ceiling

theorem numbered_of_cons {last : Snapshot} {rest : List Snapshot}
    (h : (last :: rest).reverse.map Snapshot.step = List.range (last :: rest).length) :
    rest.reverse.map Snapshot.step = List.range rest.length ∧ last.step = rest.length := by
  rw [List.reverse_cons, List.map_append, List.length_cons, List.range_succ] at h
  obtain ⟨hrest, hlast⟩ := List.append_inj' h rfl
  exact ⟨hrest, List.singleton_inj.mp hlast⟩

theorem Invariant.rewind? {before : Machine} (h : m.Invariant)
    (hrewind : m.rewind? = some before) : before.Invariant := by
  obtain ⟨last, rest, hpast, rfl⟩ := exists_of_rewind? hrewind
  have hnumbered := h.numbered
  have hsound := h.past
  unfold history at hnumbered
  rw [hpast] at hnumbered hsound
  obtain ⟨hrest, hlast⟩ := numbered_of_cons hnumbered
  have hblank := last.blank_restore m.blank
  have hlastSound := hsound last List.mem_cons_self
  exact {
    past := fun s hs => hsound s (List.mem_cons_of_mem last hs)
    numbered := hrest
    blank := hblank
    untouched := by
      intro htape
      contradiction
    running := fun _ => ⟨hlast.symm, hblank, hlastSound.initial, hlastSound.undecided⟩
    halted := by
      intro outcome hstatus
      contradiction }

theorem Invariant.perform (h : m.Invariant) (operation : Operation) :
    (m.perform operation).Invariant := by
  cases operation with
  | configure initial accept reject blank => exact invariant_configure m initial accept reject blank
  | loadTape input => exact invariant_loadTape m input
  | addRule state read write move next =>
      rcases m.perform_addRule state read write move next with hsame | ⟨table, hset⟩
      · rw [hsame]
        exact h
      · rw [hset]
        exact h.reprogram table m.ceiling
  | setTable table => exact h.reprogram table m.ceiling
  | setCeiling ceiling => exact h.reprogram m.table ceiling
  | step => exact h.step
  | run ceiling => exact h.run ceiling
  | rewind =>
      rcases m.perform_rewind with hsame | hrewind
      · rw [hsame]
        exact h
      · exact h.rewind? hrewind
  | reset keepTape => exact h.reset keepTape

theorem Reachable.invariant (h : m.Reachable) : m.Invariant :=
  h.induct Invariant invariant_new fun _ operation hm => hm.perform operation

/-- The status, the state, the counter, the tape and the history of a machine fit together. -/
structure Consistent (m : Machine) : Prop where
  without_tape : m.tape = none →
    m.status = .running ∧ m.steps = 0 ∧ m.history = [] ∧ m.state = m.initial
  with_tape : ∀ t, m.tape = some t → t.blank = m.blank ∧ t.head < t.cells.length
  snapshot : ∀ (i : Nat) (s : Snapshot), m.history[i]? = some s →
    s.step = i ∧ s.head < s.cells.length ∧ s.cells[s.head]? = some s.symbol
  first_snapshot : ∀ s : Snapshot, m.history[0]? = some s → s.state = m.initial
  running : m.status = .running →
    m.history.length = m.steps ∧ (1 ≤ m.steps → m.state ∉ m.accept ∧ m.state ∉ m.reject)
  accepted : m.status = .halted .accepted → m.state ∈ m.accept
  rejected : m.status = .halted .rejected → m.state ∈ m.reject ∧ m.state ∉ m.accept
  undecided : m.status = .halted .timeout ∨ m.status = .halted .halted →
    m.state ∉ m.accept ∧ m.state ∉ m.reject
  history_timeout : m.status = .halted .timeout → m.history.length = m.steps ∧ 1 ≤ m.steps
  history_halted : m.status = .halted .halted → m.history.length = m.steps + 1
  history_decided : m.status = .halted .accepted ∨ m.status = .halted .rejected →
    m.history.length = m.steps ∨
      (m.history.length = m.steps + 1 ∧ m.steps = 0 ∧ m.state = m.initial)

theorem Invariant.without_tape (h : m.Invariant) (htape : m.tape = none) :
    m.status = .running ∧ m.steps = 0 ∧ m.history = [] ∧ m.state = m.initial := by
  obtain ⟨hrunning, hpast⟩ := h.untouched htape
  obtain ⟨hlength, hsound⟩ := h.running hrunning
  rw [hpast] at hlength
  refine ⟨hrunning, hlength.symm, ?_, hsound.initial hlength.symm⟩
  rw [history, hpast, List.reverse_nil]

theorem Invariant.step_of_getElem? (h : m.Invariant) {i : Nat} {s : Snapshot}
    (hs : m.history[i]? = some s) : s.step = i ∧ s ∈ m.past := by
  obtain ⟨hi, rfl⟩ := List.getElem?_eq_some_iff.mp hs
  refine ⟨?_, List.mem_reverse.mp (List.getElem_mem hi)⟩
  have hstep : (m.history.map Snapshot.step)[i]? = some m.history[i].step := by
    rw [List.getElem?_map, hs]
    rfl
  rw [h.numbered] at hstep
  obtain ⟨hrange, hstep⟩ := List.getElem?_eq_some_iff.mp hstep
  rw [← hstep, List.getElem_range]

theorem Invariant.classify_of_halted (h : m.Invariant) {outcome : Outcome}
    (hstatus : m.status = .halted outcome) :
    m.classify m.state = some outcome ∨
      m.classify m.state = none ∧ (outcome = .timeout ∨ outcome = .halted) := by
  obtain ⟨-, -, hsome | ⟨hnone, houtcome⟩⟩ | ⟨-, ⟨hsome, -⟩ | ⟨hnone, houtcome⟩⟩ :=
    h.halted outcome hstatus
  · exact .inl hsome
  · exact .inr ⟨hnone, .inl houtcome⟩
  · exact .inl hsome
  · exact .inr ⟨hnone, .inr houtcome⟩

theorem Invariant.consistent (h : m.Invariant) : m.Consistent where
  without_tape := h.without_tape
  with_tape t htape := ⟨h.blank_tape htape, by
    rw [Tape.length_cells]
    exact t.head_lt_length⟩
  snapshot i s hs := by
    refine ⟨(h.step_of_getElem? hs).1, ?_, s.tape.getElem?_cells_head⟩
    exact s.tape.length_cells ▸ s.tape.head_lt_length
  first_snapshot s hs := by
    obtain ⟨hstep, hmem⟩ := h.step_of_getElem? hs
    exact (h.past s hmem).initial hstep
  running hstatus := by
    obtain ⟨hlength, hsound⟩ := h.running hstatus
    exact ⟨m.length_history.trans hlength,
      fun hpos => Program.classify_eq_none_iff.mp (hsound.undecided hpos)⟩
  accepted hstatus := by
    rcases h.classify_of_halted hstatus with hsome | ⟨-, houtcome⟩
    · simpa [Program.classify_eq_some_iff] using hsome
    · simp at houtcome
  rejected hstatus := by
    rcases h.classify_of_halted hstatus with hsome | ⟨-, houtcome⟩
    · simpa [Program.classify_eq_some_iff] using hsome
    · simp at houtcome
  undecided := by
    rintro (hstatus | hstatus)
    all_goals
      rcases h.classify_of_halted hstatus with hsome | ⟨hnone, -⟩
      · simp [Program.classify_eq_some_iff] at hsome
      · exact Program.classify_eq_none_iff.mp hnone
  history_timeout hstatus := by
    obtain ⟨hlength, hpos, -⟩ | ⟨-, ⟨hsome, -⟩ | ⟨-, houtcome⟩⟩ := h.halted _ hstatus
    · exact ⟨m.length_history.trans hlength, hpos⟩
    · simp [Program.classify_eq_some_iff] at hsome
    · contradiction
  history_halted hstatus := by
    obtain ⟨-, -, hsome | ⟨-, houtcome⟩⟩ | ⟨hlength, -⟩ := h.halted _ hstatus
    · simp [Program.classify_eq_some_iff] at hsome
    · contradiction
    · exact m.length_history.trans hlength
  history_decided := by
    rintro (hstatus | hstatus)
    all_goals
      obtain ⟨hlength, -⟩ | ⟨hlength, ⟨-, hzero, hinitial⟩ | ⟨-, houtcome⟩⟩ := h.halted _ hstatus
      · exact .inl (m.length_history.trans hlength)
      · exact .inr ⟨m.length_history.trans hlength, hzero, hinitial⟩
      · contradiction

theorem consistent_performAll (name description : String) (operations : List Operation) :
    ((new name description).performAll operations).Consistent :=
  Invariant.consistent (Reachable.invariant ⟨name, description, operations, rfl⟩)

end Machine

end TapeMachine
