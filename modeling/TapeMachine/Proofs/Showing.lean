import TapeMachine.Command.Run
import TapeMachine.Proofs.Interleaving
import TapeMachine.Proofs.Resuming

namespace TapeMachine

namespace Snapshot

/-- The position of the first cell that a window of a given size shows: half of the size before the
head, but not so far to the right that the row ends before the window. -/
def firstShown (size : Nat) (s : Snapshot) : Nat :=
  min (s.head - size / 2) (s.cells.length - size)

/-- A configuration with a window of its tape, and a caret under the head. -/
def shown (size : Nat) (s : Snapshot) : String :=
  let first := s.firstShown size
  "Step: " ++ toString s.step ++ ", State: " ++ s.state ++ ", Head: " ++ toString s.head ++ "\n" ++
    ("  " ++ String.ofList ((s.cells.drop first).take size) ++ "\n  " ++
      String.ofList (List.replicate (s.head - first) ' ' ++ ['^']) ++ "\n")

theorem firstShown_eq (size : Nat) (s : Snapshot) :
    s.firstShown size = s.tape.windowStart size := by
  rw [firstShown, Tape.windowStart_eq_min, cells, Tape.length_cells]
  rfl

end Snapshot

namespace Command

open Machine

variable {seen : List Machine} {m : Machine}

theorem block_eq_shown (size : Nat) (htape : m.tape.isSome) :
    block size m = m.snapshot.shown size := by
  obtain ⟨t, ht⟩ := Option.isSome_iff_exists.mp htape
  have hcells : (t.window size).cells = (m.snapshot.cells.drop (m.snapshot.firstShown size)).take
      size := by
    rw [Snapshot.firstShown_eq, Snapshot.cells, snapshot, currentTape_of_tape ht]
    exact t.window_cells_eq_take size
  have hhead : (t.window size).head = m.snapshot.head - m.snapshot.firstShown size := by
    rw [Snapshot.firstShown_eq, Snapshot.head, snapshot, currentTape_of_tape ht]
    rfl
  rw [block, ht, Option.elim_some, Window.display, hcells, hhead, Snapshot.shown]
  have hposition : t.head = m.snapshot.head := by
    rw [Snapshot.head, snapshot, currentTape_of_tape ht]
  rw [hposition]
  rfl

/-- What a loop has seen before it comes to a machine: a stage for each snapshot of the machine,
and none of them without a tape. -/
structure Precede (seen : List Machine) (m : Machine) : Prop where
  past : seen.map snapshot = m.past
  tape : m.tape.isSome
  tapes : ∀ stage ∈ seen, stage.tape.isSome

theorem Precede.step (h : Precede seen m) (hrunning : m.status = .running) :
    Precede (m :: seen) m.step where
  past := by rw [List.map_cons, h.past, past_step hrunning]
  tape := isSome_tape_step h.tape
  tapes := List.forall_mem_cons.mpr ⟨h.tape, h.tapes⟩

theorem exists_stagesFrom_eq {n : Nat} (h : Precede seen m) (hrunning : m.status = .running)
    (hroom : m.ceiling - m.steps < n) :
    ∃ before, stagesFrom seen n m = advance n m :: before ∧ Precede before (advance n m) := by
  induction n generalizing seen m with
  | zero => exact absurd hroom (Nat.not_lt_zero _)
  | succ n ih =>
      have hnext := h.step hrunning
      rw [stagesFrom, advance_succ]
      by_cases hhalted : m.step.isHalted = true
      · rw [if_pos hhalted, advance_of_isHalted hhalted]
        exact ⟨m :: seen, rfl, hnext⟩
      · rw [if_neg hhalted]
        obtain ⟨hsteps, hceiling, hlt⟩ := steps_step_of_running (by simpa using hhalted)
        exact ih hnext (status_of_not_isHalted hhalted) (by omega)

/-- What debugging shows of a run that ends in a given machine. -/
def blocks (size : Nat) (last : Machine) : List String :=
  (last.history ++ [last.snapshot]).map (Snapshot.shown size)

theorem Precede.map_block (h : Precede seen m) (size : Nat) :
    (m :: seen).reverse.map (block size) = blocks size m := by
  have hseen : seen.map (block size) = (seen.map snapshot).map (Snapshot.shown size) := by
    rw [List.map_map]
    exact List.map_congr_left fun stage hstage => block_eq_shown size (h.tapes stage hstage)
  rw [List.map_reverse, List.map_cons, hseen, h.past, block_eq_shown size h.tape,
    List.reverse_cons, blocks, List.map_append, history, List.map_reverse]
  rfl

/-- Both ways of carrying out a run end in the same machine, and the stages that one of them shows
are the snapshots of that machine. -/
theorem stages_loadTape (m : Machine) (input : String) (ceiling : Option Nat) :
    ∃ before, stages (m.loadTape input) ceiling = (m.loadTape input).run ceiling :: before ∧
      Precede before ((m.loadTape input).run ceiling) := by
  have hstart : Precede [] ((m.loadTape input).withCeiling ceiling) ∧
      ((m.loadTape input).withCeiling ceiling).status = .running := by
    unfold withCeiling
    split <;> exact ⟨⟨rfl, rfl, List.forall_mem_nil _⟩, rfl⟩
  exact exists_stagesFrom_eq hstart.1 hstart.2 (Nat.lt_succ_self _)

theorem execute_loadTape (o : Options) (m : Machine) (input : String) :
    execute o (m.loadTape input) =
      let last := (m.loadTape input).run o.maxSteps
      ⟨exitCode last.verdict,
        (if o.debug then String.join (blocks o.window last) else "") ++ summary o last, ""⟩ := by
  obtain ⟨before, hstages, hbefore⟩ := stages_loadTape m input o.maxSteps
  cases hdebug : o.debug with
  | false => simp [execute, hdebug]
  | true => simp [execute, hdebug, hstages, ← hbefore.map_block o.window]

theorem respond_of_definition {o : Options} {s : Supply} {d : Definition} (hlist : o.list = false)
    (hcheck : o.check = false) (hd : definition o s = .ok d) :
    respond o s = execute o (d.machine.loadTape (o.input.getD d.input)) := by
  simp [respond, hlist, hcheck, hd]

/-- The blocks of a run that ends in a given machine: one for each snapshot in its history, in
order, and one for the machine itself. -/
structure ShowsRun (size : Nat) (last : Machine) (blocks : List String) : Prop where
  length : blocks.length = last.history.length + 1
  recorded : ∀ (i : Nat) (s : Snapshot), last.history[i]? = some s →
    s.step = i ∧ blocks[i]? = some (s.shown size)
  final : blocks[last.history.length]? =
    some (Snapshot.shown size ⟨last.steps, last.state, last.currentTape⟩)
  tape : last.tape = some last.currentTape

theorem showsRun_blocks (size : Nat) {last : Machine} (h : last.Invariant)
    (htape : last.tape.isSome) : ShowsRun size last (blocks size last) where
  length := by rw [blocks, List.length_map, List.length_append, List.length_singleton]
  recorded i s hs := by
    obtain ⟨hi, -⟩ := List.getElem?_eq_some_iff.mp hs
    refine ⟨(h.step_of_getElem? hs).1, ?_⟩
    rw [blocks, List.getElem?_map, List.getElem?_append_left hi, hs]
    rfl
  final := by
    rw [blocks, List.getElem?_map, List.getElem?_append_right (Nat.le_refl _), Nat.sub_self]
    rfl
  tape := by
    obtain ⟨t, ht⟩ := Option.isSome_iff_exists.mp htape
    rw [currentTape_of_tape ht, ht]

/-- With the option for debugging the command carries out the same run. It answers what it answers
without the option, behind one block for each configuration that the run has recorded and one for
the machine that it ends in. -/
theorem debug_shows_history {o : Options} {s : Supply} {d : Definition} (hlist : o.list = false)
    (hcheck : o.check = false) (hd : definition o s = .ok d) :
    let start := d.machine.loadTape (o.input.getD d.input)
    let last := start.run o.maxSteps
    let quiet := respond { o with debug := false } s
    let shown := respond { o with debug := true } s
    (stages start o.maxSteps).head? = some last ∧
      ∃ blocks, ShowsRun o.window last blocks ∧ shown.exit = quiet.exit ∧ shown.err = quiet.err ∧
        shown.out = String.join blocks ++ quiet.out := by
  intro start last quiet shown
  obtain ⟨before, hstages, hbefore⟩ :=
    stages_loadTape d.machine (o.input.getD d.input) o.maxSteps
  have hquiet : quiet = ⟨exitCode last.verdict, "" ++ summary o last, ""⟩ :=
    (respond_of_definition (o := { o with debug := false }) hlist hcheck hd).trans
      (execute_loadTape { o with debug := false } d.machine _)
  have hshown : shown =
      ⟨exitCode last.verdict, String.join (blocks o.window last) ++ summary o last, ""⟩ :=
    (respond_of_definition (o := { o with debug := true }) hlist hcheck hd).trans
      (execute_loadTape { o with debug := true } d.machine _)
  refine ⟨congrArg List.head? hstages, blocks o.window last, showsRun_blocks o.window ?_ ?_, ?_⟩
  · exact (invariant_loadTape d.machine _).run o.maxSteps
  · exact hbefore.tape
  · rw [hquiet, hshown, String.empty_append]
    exact ⟨rfl, rfl, rfl⟩

/-- A machine that moves right over ones and stops at the blank behind them. -/
def runner : String :=
  Preset.textOf ["[config]", "initial_state: go", "[input]", "1", "[transitions]",
    "go, 1 -> 1, R, go"]

theorem runner_debug_shows_history :
    ∃ d, definition { maxSteps := some 0, json := true }
        ⟨.error .notFound, some (.ok runner)⟩ = .ok d ∧
      ∃ blocks, ShowsRun defaultWindowSize ((d.machine.loadTape d.input).run (some 0)) blocks ∧
        (respond { maxSteps := some 0, json := true, debug := true }
            ⟨.error .notFound, some (.ok runner)⟩).out =
          String.join blocks ++ (respond { maxSteps := some 0, json := true }
            ⟨.error .notFound, some (.ok runner)⟩).out := by
  have hread : (definition { maxSteps := some 0, json := true }
      ⟨.error .notFound, some (.ok runner)⟩).toOption.isSome = true := by
    rw [runner, Preset.textOf]
    decide +kernel
  obtain ⟨d, hd⟩ := exists_ok_of_isSome hread
  obtain ⟨-, blocks, hblocks, -, -, hout⟩ := debug_shows_history rfl rfl hd
  exact ⟨d, hd, blocks, hblocks, hout⟩

example : (respond { debug := true, window := 4 } ⟨.error .notFound, some (.ok runner)⟩).out =
    "Step: 0, State: go, Head: 10\n  __1_\n    ^\n" ++
      "Step: 1, State: go, Head: 11\n  _1__\n    ^\n" ++
      "Step: 1, State: go, Head: 11\n  _1__\n    ^\n" ++
      "Custom Machine: HALTED\nSteps: 1\nState: go\nTape: 1\n" := by
  rw [runner, Preset.textOf]
  decide +kernel

end Command

end TapeMachine
