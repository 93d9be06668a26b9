import TapeMachine.Proofs.Rewinding

namespace TapeMachine

/-- Whether an operation begins a new run, on this tape or on another. -/
def Operation.restarts : Operation → Bool
  | .configure .. | .loadTape _ | .reset _ => true
  | _ => false

namespace Machine

/-- The tape before the first attempt on record, the present one if there is none. -/
def origin (m : Machine) : Tape :=
  m.past.getLast?.elim m.currentTape Snapshot.tape

/-- The machine with the rules and the ceiling of another one. -/
def withRulesOf (m other : Machine) : Machine :=
  (m.setTable other.table).setCeiling other.ceiling

/-- What stays of a machine and its input until the next restart: all but the rules and the ceiling
of the program, and the tape on which the run has begun. -/
structure Loaded (p : Program) (input : String) (m : Machine) : Prop extends m.Invariant where
  program : m.toProgram = { p with table := m.table, ceiling := m.ceiling }
  loaded : m.tape.isSome
  origin : m.origin = Tape.ofContent input.toList p.blank

variable {m : Machine} {p : Program} {input : String}

theorem origin_of_getLast? {first : Snapshot} (h : m.past.getLast? = some first) :
    m.origin = first.tape := by
  rw [Machine.origin, h, Option.elim_some]

theorem origin_of_past {after : Machine} (h : after.past = m.snapshot :: m.past) :
    after.origin = m.origin := by
  unfold Machine.origin
  rw [h, List.getLast?_cons]
  cases m.past.getLast? with
  | none => rfl
  | some first => rfl

theorem origin_step (m : Machine) : m.step.origin = m.origin := by
  cases hstatus : m.status with
  | halted outcome => rw [step_of_isHalted (isHalted_of_status hstatus)]
  | running => exact origin_of_past (past_step hstatus)

theorem origin_rewind? {before : Machine} (h : m.Invariant) (hrewind : m.rewind? = some before) :
    before.origin = m.origin := by
  obtain ⟨last, rest, hpast, rfl⟩ := exists_of_rewind? hrewind
  have hsound : last.Sound m.toProgram := h.past last (by simp [hpast])
  cases rest with
  | nil =>
      have hlast : m.past.getLast? = some last := by rw [hpast, List.getLast?_singleton]
      rw [origin_of_getLast? hlast]
      exact Snapshot.restore_eq hsound.blank
  | cons earlier rest =>
      unfold Machine.origin
      rw [hpast, List.getLast?_cons_cons, List.getLast?_cons]
      rfl

theorem loaded_loadTape (m : Machine) (input : String) :
    Loaded m.toProgram input (m.loadTape input) :=
  ⟨invariant_loadTape m input, rfl, rfl, rfl⟩

theorem Loaded.blank_eq (h : Loaded p input m) : m.blank = p.blank := by
  rw [h.program]

theorem Loaded.reprogram (h : Loaded p input m) (table : Table) (ceiling : Nat) :
    Loaded p input { m with table, ceiling } where
  toInvariant := h.toInvariant.reprogram table ceiling
  program := congrArg (fun q : Program => { q with table, ceiling }) h.program
  loaded := h.loaded
  origin := h.origin

theorem Loaded.step (h : Loaded p input m) : Loaded p input m.step where
  toInvariant := h.toInvariant.step
  program := by
    rw [toProgram_step]
    exact h.program
  loaded := isSome_tape_step h.loaded
  origin := (origin_step m).trans h.origin

theorem Loaded.run (h : Loaded p input m) (ceiling : Option Nat) :
    Loaded p input (m.run ceiling) :=
  run_induct (fun m ceiling hm => hm.reprogram m.table ceiling) (fun _ hm => hm.step) h ceiling

theorem Loaded.rewind? {before : Machine} (h : Loaded p input m)
    (hrewind : m.rewind? = some before) : Loaded p input before := by
  have hinvariant := h.toInvariant.rewind? hrewind
  have horigin := (origin_rewind? h.toInvariant hrewind).trans h.origin
  obtain ⟨last, rest, -, rfl⟩ := exists_of_rewind? hrewind
  exact ⟨hinvariant, h.program, rfl, horigin⟩

theorem Loaded.perform (h : Loaded p input m) {operation : Operation}
    (hkeeps : operation.restarts = false) : Loaded p input (m.perform operation) := by
  cases operation with
  | configure | loadTape | reset => contradiction
  | addRule state read write move next =>
      rcases m.perform_addRule state read write move next with hsame | ⟨table, hset⟩
      · rw [hsame]
        exact h
      · rw [hset]
        exact h.reprogram table m.ceiling
  | setTable table => exact h.reprogram table m.ceiling
  | setCeiling ceiling => exact h.reprogram m.table ceiling
  | step => exact h.step
  | run ceiling => exact h.run ceiling
  | rewind =>
      rcases m.perform_rewind with hsame | hrewind
      · rw [hsame]
        exact h
      · exact h.rewind? hrewind

theorem loaded_performAll (m : Machine) (input : String) {operations : List Operation}
    (h : ∀ operation ∈ operations, operation.restarts = false) :
    Loaded m.toProgram input ((m.loadTape input).performAll operations) :=
  List.foldlRecOn operations perform (loaded_loadTape m input)
    fun _ hm operation hoperation => hm.perform (h operation hoperation)

theorem loadTape_congr {other : Machine} (h : m.toProgram = other.toProgram) (input : String) :
    m.loadTape input = other.loadTape input := by
  simp only [loadTape, restart, h]

theorem Loaded.reset_of_ne_nil (h : Loaded p input m) (hpast : m.past ≠ []) :
    m.reset true = m.loadTape input := by
  have hfirst := List.getLast?_eq_some_getLast hpast
  have hsound := h.past _ (List.getLast_mem hpast)
  have htape : (m.past.getLast hpast).restore m.blank = Tape.ofContent input.toList m.blank := by
    rw [Snapshot.restore_eq hsound.blank, ← origin_of_getLast? hfirst, h.origin, h.blank_eq]
  simp only [reset, loadTape, if_true, hfirst, Option.elim_some, htape]

theorem Loaded.reset_blank (h : Loaded p input m) {keepTape : Bool}
    (hnone : (if keepTape then m.past.getLast? else none) = none) :
    m.reset keepTape = m.loadTape "" := by
  obtain ⟨t, htape⟩ := Option.isSome_iff_exists.mp h.loaded
  simp only [reset, loadTape, hnone, Option.elim_none, htape, Option.map_some, Tape.reset,
    h.blank_tape htape, String.toList_empty]

/-- Resetting a machine with its tape loads the input again, if an attempt is on record. Otherwise,
and without the tape in any case, it loads a blank tape. -/
theorem reset_after_use (m : Machine) (input : String) {operations : List Operation}
    (h : ∀ operation ∈ operations, operation.restarts = false) :
    let used := (m.loadTape input).performAll operations
    (used.history ≠ [] → used.reset true = (m.withRulesOf used).loadTape input ∧
      ∀ ceiling, (used.reset true).run ceiling =
        ((m.withRulesOf used).loadTape input).run ceiling) ∧
    (used.history = [] → used.reset true = (m.withRulesOf used).loadTape "") ∧
    used.reset false = (m.withRulesOf used).loadTape "" := by
  intro used
  have hused : Loaded m.toProgram input used := loaded_performAll m input h
  have hprogram : used.toProgram = (m.withRulesOf used).toProgram := hused.program
  refine ⟨?_, ?_, ?_⟩
  · intro hhistory
    have hpast : used.past ≠ [] := fun hnil => hhistory (List.reverse_eq_nil_iff.mpr hnil)
    have hreset : used.reset true = (m.withRulesOf used).loadTape input :=
      (hused.reset_of_ne_nil hpast).trans (loadTape_congr hprogram input)
    exact ⟨hreset, fun ceiling => congrArg (run · ceiling) hreset⟩
  · intro hhistory
    have hpast : used.past = [] := List.reverse_eq_nil_iff.mp hhistory
    exact (hused.reset_blank (by simp [hpast])).trans (loadTape_congr hprogram "")
  · exact (hused.reset_blank rfl).trans (loadTape_congr hprogram "")

/-- A run that grows the row is rewound in part and goes on with other rules. -/
theorem marker_reset_after_use :
    let operations : List Operation := [.run (some 11), .rewind, .rewind,
      .addRule "walk" '_' 'y' "R" "walk", .setCeiling 50, .step]
    let used := (marker.loadTape "xx").performAll operations
    (∀ operation ∈ operations, operation.restarts = false) ∧ used.history ≠ [] ∧
      used.reset true = (marker.withRulesOf used).loadTape "xx" := by
  intro operations used
  have hkeeps : ∀ operation ∈ operations, operation.restarts = false := by decide
  have hhistory : used.history ≠ [] := by decide
  exact ⟨hkeeps, hhistory, ((reset_after_use marker "xx" hkeeps).1 hhistory).1⟩

end Machine

end TapeMachine
