import Mathlib.Data.List.Chain
import TapeMachine.Proofs.Resetting

namespace TapeMachine

def Operation.changesRules : Operation → Bool
  | .addRule .. | .setTable _ => true
  | _ => false

/-- A snapshot leads to a state and a tape by the rule that applies in it, carried out on the tape
that is set up again from the record. -/
def Snapshot.LeadsTo (p : Program) (s : Snapshot) (state : String) (t : Tape) : Prop :=
  ∃ r, p.table.lookup s.state s.symbol = some r ∧ state = r.next ∧ t = r.apply (s.restore p.blank)

namespace Machine

/-- A loaded machine whose past is a trace: the snapshots, from the latest to the first, lead to
each other, and the latest leads to the present configuration, unless the latest attempt has found
no rule. -/
structure Traced (p : Program) (input : String) (m : Machine) : Prop extends Loaded p input m where
  rules : m.table = p.table
  chain : m.past.IsChain fun later earlier => earlier.LeadsTo p later.state later.tape
  carried : m.past.length = m.steps → ∀ last ∈ m.past.head?, last.LeadsTo p m.state m.currentTape
  stuck : m.past.length = m.steps + 1 → m.past.head? = some m.snapshot ∧ m.rule? = none

variable {m : Machine} {p : Program} {input : String}

theorem traced_loadTape (m : Machine) (input : String) :
    Traced m.toProgram input (m.loadTape input) where
  toLoaded := loaded_loadTape m input
  rules := rfl
  chain := List.isChain_nil
  carried := by
    intro _ last hlast
    contradiction
  stuck := by
    intro hlength
    contradiction

theorem Traced.setCeiling (h : Traced p input m) (ceiling : Nat) :
    Traced p input (m.setCeiling ceiling) :=
  ⟨h.toLoaded.reprogram m.table ceiling, h.rules, h.chain, h.carried, h.stuck⟩

theorem Traced.leadsTo_of_rule? (h : Traced p input m) {r : Rule} (hrule : m.rule? = some r) :
    m.snapshot.LeadsTo p r.next (r.apply m.currentTape) := by
  refine ⟨r, ?_, rfl, ?_⟩
  · rw [← h.rules]
    exact hrule
  · have hblank : m.snapshot.tape.blank = p.blank := h.toInvariant.blank.trans h.blank_eq
    rw [Snapshot.restore_eq hblank]
    rfl

theorem Traced.chain_record (h : Traced p input m) (hrunning : m.status = .running) :
    m.record.past.IsChain fun later earlier => earlier.LeadsTo p later.state later.tape :=
  List.isChain_cons.mpr ⟨h.carried (h.running hrunning).1, h.chain⟩

theorem Traced.step (h : Traced p input m) : Traced p input m.step := by
  have hloaded := h.toLoaded.step
  obtain ⟨outcome, -, hstep⟩ | ⟨hrunning, r, hrule, hstep⟩ | ⟨hrunning, hrule, hstep⟩ :=
    step_cases m
  · rw [hstep]
    exact h
  · have hlength := (h.running hrunning).1
    rw [hstep] at hloaded ⊢
    exact {
      toLoaded := hloaded
      rules := h.rules
      chain := h.chain_record hrunning
      carried := by
        intro _ last hlast
        obtain rfl := Option.some.inj hlast
        exact h.leadsTo_of_rule? hrule
      stuck := by
        intro hstuck
        change m.past.length + 1 = m.steps + 1 + 1 at hstuck
        omega }
  · have hlength := (h.running hrunning).1
    rw [hstep] at hloaded ⊢
    exact {
      toLoaded := hloaded
      rules := h.rules
      chain := h.chain_record hrunning
      carried := by
        intro hcarried
        change m.past.length + 1 = m.steps at hcarried
        omega
      stuck := fun _ => ⟨rfl, hrule⟩ }

theorem Traced.run (h : Traced p input m) (ceiling : Option Nat) :
    Traced p input (m.run ceiling) :=
  run_induct (fun _ ceiling hm => hm.setCeiling ceiling) (fun _ hm => hm.step) h ceiling

theorem Traced.rewind? {before : Machine} (h : Traced p input m)
    (hrewind : m.rewind? = some before) : Traced p input before := by
  have hloaded := h.toLoaded.rewind? hrewind
  obtain ⟨last, rest, hpast, rfl⟩ := exists_of_rewind? hrewind
  have hchain := h.chain
  have hsound := h.past last (by simp [hpast])
  rw [hpast, List.isChain_cons] at hchain
  exact {
    toLoaded := hloaded
    rules := h.rules
    chain := hchain.2
    carried := by
      intro _ earlier hearlier
      have htape : last.restore m.blank = last.tape := Snapshot.restore_eq hsound.blank
      change earlier.LeadsTo p last.state (last.restore m.blank)
      rw [htape]
      exact hchain.1 earlier hearlier
    stuck := by
      -- A machine that has been rewound is running, so every attempt on record has been counted.
      intro hstuck
      have hlength := (hloaded.running rfl).1
      change rest.length = last.step + 1 at hstuck
      change rest.length = last.step at hlength
      omega }

theorem Traced.perform (h : Traced p input m) {operation : Operation}
    (hkeeps : operation.restarts = false ∧ operation.changesRules = false) :
    Traced p input (m.perform operation) := by
  obtain ⟨hrestarts, hrules⟩ := hkeeps
  cases operation with
  | configure | loadTape | reset => contradiction
  | addRule | setTable => contradiction
  | setCeiling ceiling => exact h.setCeiling ceiling
  | step => exact h.step
  | run ceiling => exact h.run ceiling
  | rewind =>
      rcases m.perform_rewind with hsame | hrewind
      · rw [hsame]
        exact h
      · exact h.rewind? hrewind

theorem traced_performAll (m : Machine) (input : String) {operations : List Operation}
    (h : ∀ operation ∈ operations,
      operation.restarts = false ∧ operation.changesRules = false) :
    Traced m.toProgram input ((m.loadTape input).performAll operations) :=
  List.foldlRecOn operations perform (traced_loadTape m input)
    fun _ hm operation hoperation => hm.perform (h operation hoperation)

/-- The history of a machine tells how a program has come from an input to the present
configuration. -/
structure Recounts (p : Program) (input : String) (m : Machine) : Prop where
  first : ∀ s : Snapshot, m.history[0]? = some s →
    s = ⟨0, p.initial, Tape.ofContent input.toList p.blank⟩
  next : ∀ (i : Nat) (s s' : Snapshot), m.history[i]? = some s → m.history[i + 1]? = some s' →
    s.LeadsTo p s'.state s'.tape
  length : m.history.length = m.steps ∨ m.history.length = m.steps + 1
  carried : m.history.length = m.steps → 1 ≤ m.steps → ∃ last t,
    m.history.getLast? = some last ∧ m.tape = some t ∧ last.LeadsTo p m.state t
  stuck : m.history.length = m.steps + 1 → ∃ last : Snapshot,
    m.history.getLast? = some last ∧ m.state = last.state ∧ m.tape = some last.tape ∧
      p.table.lookup last.state last.symbol = none
  undecided : ∀ (i : Nat) (s : Snapshot), 1 ≤ i → m.history[i]? = some s →
    s.state ∉ p.accept ∧ s.state ∉ p.reject

theorem Loaded.first_snapshot (h : Loaded p input m) {s : Snapshot}
    (hs : m.history[0]? = some s) :
    s = ⟨0, p.initial, Tape.ofContent input.toList p.blank⟩ := by
  obtain ⟨hstep, hmem⟩ := h.step_of_getElem? hs
  have hfirst : m.past.getLast? = some s := by
    rw [← hs, history, ← List.head?_eq_getElem?, List.head?_reverse]
  have htape : s.tape = Tape.ofContent input.toList p.blank :=
    (origin_of_getLast? hfirst).symm.trans h.origin
  have hstate : s.state = p.initial := by
    rw [(h.past s hmem).initial hstep, h.program]
  rw [← hstep, ← hstate, ← htape]

theorem Traced.next_snapshot (h : Traced p input m) {i : Nat} {s s' : Snapshot}
    (hs : m.history[i]? = some s) (hs' : m.history[i + 1]? = some s') :
    s.LeadsTo p s'.state s'.tape := by
  have hchain : m.history.IsChain fun s s' => s.LeadsTo p s'.state s'.tape :=
    List.isChain_reverse.mpr h.chain
  obtain ⟨hlt, rfl⟩ := List.getElem?_eq_some_iff.mp hs'
  obtain ⟨hlt', rfl⟩ := List.getElem?_eq_some_iff.mp hs
  exact List.isChain_iff_getElem.mp hchain i hlt

theorem getLast?_history (m : Machine) : m.history.getLast? = m.past.head? := by
  rw [history, List.getLast?_reverse]

theorem Invariant.length_past (h : m.Invariant) :
    m.past.length = m.steps ∨ m.past.length = m.steps + 1 := by
  cases hstatus : m.status with
  | running => exact .inl (h.running hstatus).1
  | halted outcome =>
      rcases h.halted outcome hstatus with ⟨hlength, -⟩ | ⟨hlength, -⟩
      · exact .inl hlength
      · exact .inr hlength

theorem Traced.recounts (h : Traced p input m) : m.Recounts p input where
  first s hs := h.first_snapshot hs
  next i s s' hs hs' := h.next_snapshot hs hs'
  length := by
    rw [length_history]
    exact h.toInvariant.length_past
  carried hlength hpos := by
    rw [length_history] at hlength
    rw [getLast?_history]
    obtain ⟨t, htape⟩ := Option.isSome_iff_exists.mp h.loaded
    obtain ⟨last, rest, hpast⟩ := List.exists_cons_of_length_pos (hlength ▸ hpos)
    have hlast : m.past.head? = some last := by rw [hpast, List.head?_cons]
    have hleads := h.carried hlength last hlast
    rw [currentTape_of_tape htape] at hleads
    exact ⟨last, t, hlast, htape, hleads⟩
  stuck hlength := by
    rw [length_history] at hlength
    rw [getLast?_history]
    obtain ⟨hlast, hrule⟩ := h.stuck hlength
    obtain ⟨t, htape⟩ := Option.isSome_iff_exists.mp h.loaded
    refine ⟨m.snapshot, hlast, rfl, ?_, ?_⟩
    · exact htape.trans (congrArg some (currentTape_of_tape htape).symm)
    · rw [← h.rules]
      exact hrule
  undecided i s hi hs := by
    obtain ⟨hstep, hmem⟩ := h.step_of_getElem? hs
    have hnone := Program.classify_eq_none_iff.mp ((h.past s hmem).undecided (by omega))
    rw [h.program] at hnone
    exact hnone

/-- Whatever has been attempted, undone and attempted again since an input was loaded, the history
tells how the rules have led from the input to the present configuration. -/
theorem history_recounts (m : Machine) (input : String) {operations : List Operation}
    (h : ∀ operation ∈ operations,
      operation.restarts = false ∧ operation.changesRules = false) :
    ((m.loadTape input).performAll operations).Recounts m.toProgram input :=
  (traced_performAll m input h).recounts

theorem marker_history_recounts :
    let operations : List Operation :=
      [.setCeiling 7, .run (some 12), .rewind, .rewind, .run (some 0), .rewind, .step]
    let used := (marker.loadTape "").performAll operations
    (∀ operation ∈ operations, operation.restarts = false ∧ operation.changesRules = false) ∧
      used.history.length = 12 ∧ used.steps = 12 ∧ used.Recounts marker.toProgram "" := by
  intro operations used
  have hkeeps : ∀ operation ∈ operations,
      operation.restarts = false ∧ operation.changesRules = false := by decide
  exact ⟨hkeeps, by decide, by decide, history_recounts marker "" hkeeps⟩

end Machine

end TapeMachine
