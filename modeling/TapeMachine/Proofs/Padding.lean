import Mathlib.Data.List.TakeWhile
import TapeMachine.Proofs.Textbook

namespace TapeMachine

theorem Text.exists_eq_append_strip (p : Char → Bool) (s : List Char) :
    ∃ front back, s = front ++ strip p s ++ back ∧ (∀ c ∈ front, p c = true) ∧
      ∀ c ∈ back, p c = true := by
  refine ⟨s.takeWhile p, ((s.dropWhile p).reverse.takeWhile p).reverse, ?_, ?_, ?_⟩
  · rw [strip, List.append_assoc, ← List.reverse_append, List.takeWhile_append_dropWhile,
      List.reverse_reverse, List.takeWhile_append_dropWhile]
  · intro c hc
    exact List.mem_takeWhile_imp hc
  · intro c hc
    exact List.mem_takeWhile_imp (List.mem_reverse.mp hc)

namespace Tape

/-- Two tapes are alike if they have the same blank and the same symbols at every distance from
their heads. The cells outside of a row are blank. -/
structure Alike (t t' : Tape) : Prop where
  blank : t.blank = t'.blank
  cells : ∀ d : Int, t.cellAt (t.head + d) = t'.cellAt (t'.head + d)

/-- What a program can do to a tape. -/
inductive Edit where
  | write (symbol : Char)
  | moveLeft
  | moveRight
  deriving DecidableEq, Repr

def Edit.isMove : Edit → Bool
  | .write _ => false
  | _ => true

def edit (t : Tape) : Edit → Tape
  | .write symbol => t.write symbol
  | .moveLeft => t.moveLeft
  | .moveRight => t.moveRight

def editAll (t : Tape) (edits : List Edit) : Tape :=
  edits.foldl edit t

/-- The word in numbered cells: what stands from the first to the last cell that is not blank, and
nothing if there is none. -/
inductive Spells (blank : Char) (cells : Int → Char) : List Char → Prop
  | nothing (none : ∀ i, cells i = blank) : Spells blank cells []
  | word (first : Int) (n : Nat) (start : cells first ≠ blank) (stop : cells (first + n) ≠ blank)
      (outside : ∀ i, i < first ∨ first + n < i → cells i = blank) :
      Spells blank cells ((List.range (n + 1)).map fun j : Nat => cells (first + j))

section Spelling

variable {blank : Char} {cells : Int → Char} {s s' : List Char}

theorem Spells.unique (h : Spells blank cells s) (h' : Spells blank cells s') : s = s' := by
  cases h with
  | nothing none =>
      cases h' with
      | nothing => rfl
      | word first n start => exact absurd (none first) start
  | word first n start stop outside =>
      cases h' with
      | nothing none => exact absurd (none first) start
      | word first' n' start' stop' outside' =>
          obtain rfl : first = first' := by
            have hge : ¬ first < first' := fun hlt => start (outside' first (.inl hlt))
            have hle : ¬ first' < first := fun hlt => start' (outside first' (.inl hlt))
            omega
          obtain rfl : n = n' := by
            have hge : ¬ first + n' < first + n := fun hlt => stop (outside' _ (.inr hlt))
            have hle : ¬ first + n < first + n' := fun hlt => stop' (outside _ (.inr hlt))
            omega
          rfl

theorem Spells.shift (h : Spells blank cells s) (k : Int) :
    Spells blank (fun i => cells (k + i)) s := by
  cases h with
  | nothing none => exact .nothing fun i => none (k + i)
  | word first n start stop outside =>
      have hcells : ∀ j : Nat, cells (k + (first - k + j)) = cells (first + j) := by
        intro j
        congr 1
        omega
      have hword : ((List.range (n + 1)).map fun j : Nat => cells (first + j)) =
          (List.range (n + 1)).map fun j : Nat => cells (k + (first - k + j)) := by
        simp only [hcells]
      rw [hword]
      refine .word (first - k) n ?_ ?_ ?_
      · rw [show k + (first - k) = first by omega]
        exact start
      · rw [hcells]
        exact stop
      · intro i hi
        exact outside (k + i) (by omega)

end Spelling

variable {t t' : Tape}

section Content

variable {front word back : List Char}

theorem getD_eq_blank {l : List Char} {blank : Char} (h : ∀ c ∈ l, c = blank) (n : Nat) :
    l.getD n blank = blank := by
  rcases Nat.lt_or_ge n l.length with hlt | hge
  · rw [List.getD_eq_getElem _ _ hlt]
    exact h _ (List.getElem_mem hlt)
  · exact List.getD_eq_default _ _ hge

theorem cellAt_front (h : t.cells = front ++ word ++ back) (hfront : ∀ c ∈ front, c = t.blank)
    {i : Int} (hi : i < front.length) : t.cellAt i = t.blank := by
  rcases Int.lt_or_le i 0 with hneg | hnat
  · exact cellAt_of_neg hneg
  · obtain ⟨n, rfl⟩ := Int.eq_ofNat_of_zero_le hnat
    rw [cellAt_natCast, h, List.append_assoc, List.getD_append _ _ _ _ (by omega)]
    exact getD_eq_blank hfront n

theorem cellAt_word (h : t.cells = front ++ word ++ back) (j : Nat) :
    t.cellAt (front.length + j) = (word ++ back).getD j t.blank := by
  rw [← Int.natCast_add, cellAt_natCast, h, List.append_assoc,
    List.getD_append_right _ _ _ _ (Nat.le_add_right _ _), Nat.add_sub_cancel_left]

theorem cellAt_back (h : t.cells = front ++ word ++ back) (hback : ∀ c ∈ back, c = t.blank)
    {i : Int} (hi : front.length + word.length ≤ i) : t.cellAt i = t.blank := by
  obtain ⟨j, rfl⟩ : ∃ j : Nat, i = front.length + (word.length + j : Nat) :=
    ⟨(i - front.length - word.length).toNat, by omega⟩
  rw [cellAt_word h, List.getD_append_right _ _ _ _ (Nat.le_add_right _ _)]
  exact getD_eq_blank hback _

theorem spells_of_append (h : t.cells = front ++ word ++ back)
    (hfront : ∀ c ∈ front, c = t.blank) (hback : ∀ c ∈ back, c = t.blank)
    (hfirst : ∀ c, word.head? = some c → c ≠ t.blank)
    (hlast : ∀ c, word.getLast? = some c → c ≠ t.blank) : Spells t.blank t.cellAt word := by
  cases word with
  | nil =>
      refine .nothing fun i => ?_
      rcases Int.lt_or_le i front.length with hlt | hge
      · exact cellAt_front h hfront hlt
      · exact cellAt_back h hback (by simpa using hge)
  | cons c rest =>
      have hcell : ∀ (j : Nat) (hj : j < (c :: rest).length),
          t.cellAt (front.length + j) = (c :: rest)[j] := by
        intro j hj
        rw [cellAt_word h, List.getD_append _ _ _ _ hj, List.getD_eq_getElem _ _ hj]
      have hword : c :: rest =
          (List.range (rest.length + 1)).map fun j : Nat => t.cellAt (front.length + j) := by
        apply List.ext_getElem
        · simp
        · intro j hj _
          simp [hcell j hj]
      rw [hword]
      refine .word front.length rest.length ?_ ?_ ?_
      · have hcell0 := hcell 0 (Nat.succ_pos _)
        rw [Int.natCast_zero, Int.add_zero] at hcell0
        rw [hcell0]
        exact hfirst c rfl
      · rw [hcell rest.length (Nat.lt_succ_self _)]
        exact hlast _ (by simp [List.getLast?_eq_getElem?])
      · rintro i (hlt | hgt)
        · exact cellAt_front h hfront hlt
        · exact cellAt_back h hback (by simp only [List.length_cons]; omega)

theorem spells_content (t : Tape) : Spells t.blank t.cellAt t.content.toList := by
  obtain ⟨front, back, hcells, hfront, hback⟩ :=
    Text.exists_eq_append_strip (· == t.blank) t.cells
  rw [content, String.toList_ofList]
  refine spells_of_append hcells (by simpa using hfront) (by simpa using hback) ?_ ?_
  · intro c hc
    simpa using Text.head?_strip_not _ _ hc
  · intro c hc
    simpa using Text.getLast?_strip_not _ _ hc

end Content

theorem spells_symbolAt (t : Tape) : Spells t.blank t.symbolAt t.content.toList := by
  rw [funext t.symbolAt_eq_cellAt]
  exact t.spells_content.shift t.head

/-- Tapes that show the same cells from different places have the same content. -/
theorem content_eq_of_shift (hblank : t.blank = t'.blank) (k : Int)
    (h : ∀ d, t.symbolAt d = t'.symbolAt (k + d)) : t.content = t'.content := by
  have hspells := t'.spells_symbolAt.shift k
  rw [← hblank, ← funext h] at hspells
  exact String.toList_inj.mp (t.spells_symbolAt.unique hspells)

theorem alike_iff : t.Alike t' ↔ t.blank = t'.blank ∧ ∀ d, t.symbolAt d = t'.symbolAt d := by
  simp only [symbolAt_eq_cellAt]
  constructor
  · rintro ⟨hblank, hcells⟩
    exact ⟨hblank, hcells⟩
  · rintro ⟨hblank, hcells⟩
    exact ⟨hblank, hcells⟩

theorem Alike.symbol (h : t.Alike t') : t.symbol = t'.symbol :=
  (alike_iff.mp h).2 0

theorem Alike.edit (h : t.Alike t') (e : Edit) : (t.edit e).Alike (t'.edit e) := by
  obtain ⟨hblank, hsymbols⟩ := alike_iff.mp h
  rw [alike_iff]
  cases e with
  | write symbol => exact ⟨hblank, fun d => by simp only [Tape.edit, symbolAt_write, hsymbols]⟩
  | moveLeft =>
      refine ⟨?_, fun d => by simp only [Tape.edit, symbolAt_moveLeft, hsymbols]⟩
      simpa only [Tape.edit, blank_moveLeft] using hblank
  | moveRight =>
      refine ⟨?_, fun d => by simp only [Tape.edit, symbolAt_moveRight, hsymbols]⟩
      simpa only [Tape.edit, blank_moveRight] using hblank

theorem Alike.editAll (h : t.Alike t') (edits : List Edit) :
    (t.editAll edits).Alike (t'.editAll edits) := by
  induction edits generalizing t t' with
  | nil => exact h
  | cons e edits ih => exact ih (h.edit e)

theorem Alike.content (h : t.Alike t') : t.content = t'.content := by
  obtain ⟨hblank, hsymbols⟩ := alike_iff.mp h
  refine content_eq_of_shift hblank 0 fun d => ?_
  rw [hsymbols, Int.zero_add]

theorem content_edit_of_isMove (t : Tape) {e : Edit} (he : e.isMove = true) :
    (t.edit e).content = t.content := by
  cases e with
  | write symbol => contradiction
  | moveLeft =>
      refine content_eq_of_shift t.blank_moveLeft (-1) fun d => ?_
      rw [Tape.edit, symbolAt_moveLeft, Int.add_comm, Int.sub_eq_add_neg]
  | moveRight =>
      refine content_eq_of_shift t.blank_moveRight 1 fun d => ?_
      rw [Tape.edit, symbolAt_moveRight, Int.add_comm]

theorem content_editAll_of_isMove (t : Tape) {edits : List Edit}
    (h : ∀ e ∈ edits, e.isMove = true) : (t.editAll edits).content = t.content := by
  induction edits generalizing t with
  | nil => rfl
  | cons e edits ih =>
      rw [List.forall_mem_cons] at h
      exact (ih (t.edit e) h.2).trans (t.content_edit_of_isMove h.1)

end Tape

theorem Rule.alike_apply (r : Rule) {t t' : Tape} (h : t.Alike t') :
    (r.apply t).Alike (r.apply t') := by
  have hwritten := h.edit (.write r.write)
  unfold Rule.apply
  cases r.move with
  | left => exact hwritten.edit .moveLeft
  | right => exact hwritten.edit .moveRight
  | stay => exact hwritten

theorem Rule.head_apply_congr (r : Rule) {t t' : Tape} (h : t.head = t'.head) :
    (r.apply t).head = (r.apply t').head := by
  unfold Rule.apply
  cases r.move with
  | left => simp only [Tape.move, Tape.head_moveLeft, Tape.head_write, h]
  | right => simp only [Tape.move, Tape.head_moveRight, Tape.head_write, h]
  | stay => exact h

theorem Infinite.start_append_blanks (p : Program) (input : List Char) (k : Nat) :
    start p (input ++ List.replicate k p.blank) = start p input := by
  refine Infinite.ext rfl rfl (funext fun i => ?_)
  cases i with
  | ofNat n => exact Tape.getD_append_padding input k n p.blank
  | negSucc n => rfl

namespace Machine

/-- Two machines that differ at most in the number of stored blank cells. -/
structure Mirrors (m m' : Machine) : Prop where
  program : m.toProgram = m'.toProgram
  state : m.state = m'.state
  steps : m.steps = m'.steps
  status : m.status = m'.status
  tape : ∃ t t', m.tape = some t ∧ m'.tape = some t' ∧ t.Alike t' ∧ t.head = t'.head

/-- What can be seen of a machine from outside, apart from the cells in store. -/
structure LooksLike (m m' : Machine) : Prop where
  state : m.state = m'.state
  steps : m.steps = m'.steps
  status : m.status = m'.status
  head : m.head = m'.head
  symbol : m.symbol? = m'.symbol?
  content : m.content = m'.content

variable {m m' : Machine}

theorem Mirrors.looksLike (h : m.Mirrors m') : m.LooksLike m' := by
  obtain ⟨t, t', htape, htape', halike, hhead⟩ := h.tape
  refine ⟨h.state, h.steps, h.status, ?_, ?_, ?_⟩
  · rw [Machine.head, Machine.head, htape, htape', Option.elim_some, Option.elim_some, hhead]
  · rw [symbol?, symbol?, htape, htape', Option.map_some, Option.map_some, halike.symbol]
  · rw [Machine.content, Machine.content, htape, htape', Option.elim_some, Option.elim_some,
      halike.content]

theorem Mirrors.rule? (h : m.Mirrors m') : m.rule? = m'.rule? := by
  obtain ⟨t, t', htape, htape', halike, -⟩ := h.tape
  rw [Machine.rule?, Machine.rule?, currentTape_of_tape htape, currentTape_of_tape htape',
    halike.symbol, h.program, h.state]

theorem Mirrors.statusAfter (h : m.Mirrors m') (state : String) (steps : Nat) :
    m.statusAfter state steps = m'.statusAfter state steps := by
  simp only [Machine.statusAfter, h.program]

theorem Mirrors.step (h : m.Mirrors m') : m.step.Mirrors m'.step := by
  obtain ⟨t, t', htape, htape', halike, hhead⟩ := h.tape
  have hcurrent := currentTape_of_tape htape
  have hcurrent' := currentTape_of_tape htape'
  obtain ⟨outcome, hstatus, hstep⟩ | ⟨hstatus, r, hrule, hstep⟩ | ⟨hstatus, hrule, hstep⟩ :=
    step_cases m
  · rw [hstep, step_of_isHalted (isHalted_of_status (h.status ▸ hstatus))]
    exact h
  · rw [hstep, step_of_rule? (h.status ▸ hstatus) (h.rule? ▸ hrule)]
    exact {
      program := h.program
      state := rfl
      steps := congrArg (· + 1) h.steps
      status := by
        change m.statusAfter r.next (m.steps + 1) = m'.statusAfter r.next (m'.steps + 1)
        rw [h.statusAfter, h.steps]
      tape := ⟨r.apply t, r.apply t', congrArg (some ∘ r.apply) hcurrent,
        congrArg (some ∘ r.apply) hcurrent', r.alike_apply halike, r.head_apply_congr hhead⟩ }
  · rw [hstep, step_of_rule?_eq_none (h.status ▸ hstatus) (h.rule? ▸ hrule)]
    exact {
      program := h.program
      state := h.state
      steps := h.steps
      status := by
        change Status.halted ((m.classify m.state).getD .halted) =
          .halted ((m'.classify m'.state).getD .halted)
        rw [h.program, h.state]
      tape := ⟨t, t', congrArg some hcurrent, congrArg some hcurrent', halike, hhead⟩ }

theorem Mirrors.iterate_step (h : m.Mirrors m') (n : Nat) :
    (Machine.step^[n] m).Mirrors (Machine.step^[n] m') := by
  induction n with
  | zero => exact h
  | succ n ih =>
      rw [Function.iterate_succ_apply', Function.iterate_succ_apply']
      exact ih.step

theorem Mirrors.attempt_fst (h : m.Mirrors m') : m.attempt.1 = m'.attempt.1 := by
  rw [Machine.attempt_fst, Machine.attempt_fst, isHalted, isHalted, h.step.status]

theorem Mirrors.withCeiling (h : m.Mirrors m') (ceiling : Option Nat) :
    (m.withCeiling ceiling).Mirrors (m'.withCeiling ceiling) := by
  rcases ceiling with _ | _ | n
  · exact h
  · exact h
  · exact ⟨congrArg (fun p : Program => { p with ceiling := n + 1 }) h.program, h.state, h.steps,
      h.status, h.tape⟩

theorem Mirrors.run (h : m.Mirrors m') (ceiling : Option Nat) :
    (m.run ceiling).Mirrors (m'.run ceiling) := by
  have hstart := h.withCeiling ceiling
  simp only [Machine.run, advance_eq_iterate, hstart.program, hstart.steps]
  exact hstart.iterate_step _

theorem Mirrors.verdict (h : m.Mirrors m') : m.verdict = m'.verdict := by
  rw [Machine.verdict, Machine.verdict, h.status]

theorem alike_ofContent (p : Program) (input : List Char) (k : Nat) :
    (Tape.ofContent input p.blank).Alike
      (Tape.ofContent (input ++ List.replicate k p.blank) p.blank) := by
  rw [Tape.alike_iff, Tape.blank_ofContent, Tape.blank_ofContent]
  refine ⟨rfl, fun d => ?_⟩
  rw [← Infinite.symbolAt_start, ← Infinite.symbolAt_start, Infinite.start_append_blanks]

/-- The input with blanks behind it. -/
def padded (m : Machine) (input : String) (k : Nat) : String :=
  input ++ String.ofList (List.replicate k m.blank)

theorem mirrors_loadTape (m : Machine) (input : String) (k : Nat) :
    (m.loadTape input).Mirrors (m.loadTape (m.padded input k)) where
  program := rfl
  state := rfl
  steps := rfl
  status := rfl
  tape := by
    refine ⟨_, _, rfl, rfl, ?_, ?_⟩
    · rw [padded, String.toList_append, String.toList_ofList]
      exact alike_ofContent m.toProgram input.toList k
    · rw [Tape.head_ofContent, Tape.head_ofContent]

/-- Blank cells in store cannot be observed: tapes that differ in nothing else stay alike whatever
is written and wherever the head goes, the content of a tape is the word in its cells and is not
changed by moves, and blanks behind its input make no difference to a machine. -/
theorem padding_unobservable :
    (∀ t t' : Tape, t.Alike t' → ∀ edits, (t.editAll edits).Alike (t'.editAll edits) ∧
      (t.editAll edits).symbol = (t'.editAll edits).symbol ∧
      (t.editAll edits).content = (t'.editAll edits).content) ∧
    (∀ t : Tape, Tape.Spells t.blank t.cellAt t.content.toList) ∧
    (∀ (t : Tape) (edits : List Tape.Edit), (∀ e ∈ edits, e.isMove = true) →
      (t.editAll edits).content = t.content) ∧
    ∀ (m : Machine) (input : String) (k : Nat),
      (∀ n, (step^[n] (m.loadTape input)).LooksLike (step^[n] (m.loadTape (m.padded input k))) ∧
        (step^[n] (m.loadTape input)).attempt.1 =
          (step^[n] (m.loadTape (m.padded input k))).attempt.1) ∧
      ∀ ceiling, ((m.loadTape input).run ceiling).LooksLike
          ((m.loadTape (m.padded input k)).run ceiling) ∧
        ((m.loadTape input).run ceiling).verdict =
          ((m.loadTape (m.padded input k)).run ceiling).verdict := by
  refine ⟨?_, Tape.spells_content, ?_, ?_⟩
  · intro t t' halike edits
    have hedited := halike.editAll edits
    exact ⟨hedited, hedited.symbol, hedited.content⟩
  · intro t edits hmoves
    exact t.content_editAll_of_isMove hmoves
  · intro m input k
    have hstart := mirrors_loadTape m input k
    constructor
    · intro n
      have hmirrors := hstart.iterate_step n
      exact ⟨hmirrors.looksLike, hmirrors.attempt_fst⟩
    · intro ceiling
      have hmirrors := hstart.run ceiling
      exact ⟨hmirrors.looksLike, hmirrors.verdict⟩

/-- A machine that marks the blank cells to its right. -/
def rightMarker : Machine :=
  ((new "" "").configure "walk" [] [] '_').setTable ⟨[⟨"walk", '_', 'x', .right, "walk"⟩]⟩

/-- The shorter row has grown after ten steps, the longer one has not. -/
theorem rightMarker_padding_unobservable :
    let t := Tape.ofContent [] '_'
    let t' := Tape.ofContent ([] ++ List.replicate 3 '_') '_'
    let moves : List Tape.Edit := List.replicate 11 .moveLeft
    t.Alike t' ∧ (t.editAll (moves ++ [.write 'x'])).content =
        (t'.editAll (moves ++ [.write 'x'])).content ∧
      (∀ e ∈ moves, e.isMove = true) ∧ (t.editAll moves).content = t.content ∧
      (step^[10] (rightMarker.loadTape "")).LooksLike
        (step^[10] (rightMarker.loadTape (rightMarker.padded "" 3))) ∧
      ((rightMarker.loadTape "").run (some 10)).LooksLike
        ((rightMarker.loadTape (rightMarker.padded "" 3)).run (some 10)) := by
  intro t t' moves
  have halike : t.Alike t' := alike_ofContent rightMarker.toProgram [] 3
  have hmoves : ∀ e ∈ moves, e.isMove = true := by decide
  have ⟨hedits, _, hcontent, hmachine⟩ := padding_unobservable
  obtain ⟨hsteps, hruns⟩ := hmachine rightMarker "" 3
  exact ⟨halike, (hedits t t' halike _).2.2, hmoves, hcontent t moves hmoves, (hsteps 10).1,
    (hruns (some 10)).1⟩

end Machine

end TapeMachine
