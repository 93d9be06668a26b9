import Mathlib.Data.Stream.Init
import TapeMachine.Proofs.Ceiling
import TapeMachine.Proofs.Padding

/-!
Programs as they are seen from the head: single steps, sweeps over words, and how they end. What
leads the textbook machine to a stopping state is what every run does whose ceiling leaves room for
it.
-/

namespace TapeMachine

/-- A state, the symbols behind the head, from the nearest on, and those ahead of it, from the one
under the head on. -/
@[ext] structure Scene where
  state : String
  behind : Stream' Char
  ahead : Stream' Char

namespace Scene

/-- The scene from the nearest cell behind. -/
def back (state : String) (behind ahead : Stream' Char) : Scene :=
  ⟨state, behind.tail, .cons behind.head ahead⟩

/-- The scene between two words, beyond which all cells are blank. -/
def around (blank : Char) (state : String) (behind ahead : List Char) : Scene :=
  ⟨state, behind ++ₛ .const blank, ahead ++ₛ .const blank⟩

def start (p : Program) (input : List Char) : Scene :=
  around p.blank p.initial [] input

def rule? (p : Program) (s : Scene) : Option Rule :=
  p.table.lookup s.state s.ahead.head

def follow (s : Scene) (r : Rule) : Scene :=
  match r.move with
  | .left => back r.next s.behind (.cons r.write s.ahead.tail)
  | .right => ⟨r.next, .cons r.write s.behind, s.ahead.tail⟩
  | .stay => ⟨r.next, s.behind, .cons r.write s.ahead.tail⟩

/-- A program gets from one scene to another in a number of steps, none of which enters a stopping
state. -/
inductive Passes (p : Program) : Nat → Scene → Scene → Prop
  | nil (s : Scene) : Passes p 0 s s
  | cons {n : Nat} {s t : Scene} {r : Rule} (rule : s.rule? p = some r)
      (undecided : p.classify r.next = none) (rest : Passes p n (s.follow r) t) :
      Passes p (n + 1) s t

/-- A program enters a stopping state with the last of a number of steps. -/
inductive Ends (p : Program) : Nat → Outcome → Scene → Scene → Prop
  | step {n : Nat} {s t : Scene} {r : Rule} {outcome : Outcome} (passes : Passes p n s t)
      (rule : t.rule? p = some r) (decided : p.classify r.next = some outcome) :
      Ends p (n + 1) outcome s (t.follow r)

variable {p : Program} {n k : Nat} {s t u : Scene} {r : Rule} {outcome : Outcome}

theorem Passes.one (rule : p.table.lookup r.state r.read = some r)
    (undecided : p.classify r.next = none) (behind ahead : Stream' Char) :
    Passes p 1 ⟨r.state, behind, .cons r.read ahead⟩
      (follow ⟨r.state, behind, .cons r.read ahead⟩ r) :=
  .cons rule undecided (.nil _)

theorem Ends.one (rule : p.table.lookup r.state r.read = some r)
    (decided : p.classify r.next = some outcome) (behind ahead : Stream' Char) :
    Ends p 1 outcome ⟨r.state, behind, .cons r.read ahead⟩
      (follow ⟨r.state, behind, .cons r.read ahead⟩ r) :=
  .step (.nil _) rule decided

theorem Passes.trans (h : Passes p n s t) (h' : Passes p k t u) : Passes p (n + k) s u := by
  induction h with
  | nil s =>
      rw [Nat.zero_add]
      exact h'
  | cons rule undecided rest ih =>
      rw [Nat.add_right_comm]
      exact .cons rule undecided (ih h')

theorem Passes.ends (h : Passes p n s t) (h' : Ends p k outcome t u) :
    Ends p (n + k) outcome s u := by
  cases h' with
  | step passes rule decided => exact .step (h.trans passes) rule decided

instance : Trans (Passes p n) (Passes p k) (Passes p (n + k)) :=
  ⟨Passes.trans⟩

instance : Trans (Passes p n) (Ends p k outcome) (Ends p (n + k) outcome) :=
  ⟨Passes.ends⟩

theorem Passes.upTo (h : Passes p n s t) (hrule : t.rule? p = some r) (hk : k ≤ n) :
    ∃ u r', Passes p k s u ∧ u.rule? p = some r' := by
  induction h generalizing k with
  | nil s =>
      obtain rfl := Nat.le_zero.mp hk
      exact ⟨s, r, .nil s, hrule⟩
  | @cons n s t first rule undecided rest ih =>
      cases k with
      | zero => exact ⟨s, first, .nil s, rule⟩
      | succ k =>
          obtain ⟨u, r', hpasses, hnext⟩ := ih hrule (Nat.le_of_succ_le_succ hk)
          exact ⟨u, r', .cons rule undecided hpasses, hnext⟩

theorem get_append_const (l : List Char) (blank : Char) (i : Nat) :
    (l ++ₛ .const blank : Stream' Char).get i = l.getD i blank := by
  rcases Nat.lt_or_ge i l.length with hlt | hge
  · rw [Stream'.get_append_left i l _ hlt, List.getD_eq_getElem _ _ hlt]
  · obtain ⟨j, rfl⟩ := Nat.exists_eq_add_of_le hge
    rw [Stream'.get_append_right, Stream'.get_const, List.getD_eq_default _ _ hge]

end Scene

/-- The rule that passes over a symbol. -/
def Rule.pass (move : Move) (state : String) (symbol : Char) : Rule :=
  ⟨state, symbol, symbol, move, state⟩

namespace Program

/-- In a state, a program passes over the symbols of an alphabet and replaces each of them. -/
def Sweeps (p : Program) (move : Move) (state : String) (replace : Char → Char)
    (alphabet : List Char) : Prop :=
  p.classify state = none ∧
    ∀ c ∈ alphabet, p.table.lookup state c = some ⟨state, c, replace c, move, state⟩

instance (p : Program) (move : Move) (state : String) (replace : Char → Char)
    (alphabet : List Char) : Decidable (p.Sweeps move state replace alphabet) :=
  @instDecidableAnd _ _ _ (List.decidableBAll _ _)

end Program

namespace Scene

variable {p : Program} {state : String} {replace : Char → Char} {alphabet word : List Char}

theorem Passes.sweepRight (h : p.Sweeps .right state replace alphabet)
    (hword : ∀ c ∈ word, c ∈ alphabet) (behind ahead : Stream' Char) :
    Passes p word.length ⟨state, behind, word ++ₛ ahead⟩
      ⟨state, (word.map replace).reverse ++ₛ behind, ahead⟩ := by
  induction word generalizing behind with
  | nil => exact .nil _
  | cons c word ih =>
      rw [List.forall_mem_cons] at hword
      rw [List.map_cons, List.reverse_cons, Stream'.append_append_stream]
      exact .cons (h.2 c hword.1) h.1 (ih hword.2 (.cons (replace c) behind))

theorem Passes.sweepLeft (h : p.Sweeps .left state replace alphabet)
    (hword : ∀ c ∈ word, c ∈ alphabet) (behind ahead : Stream' Char) :
    Passes p word.length (back state (word ++ₛ behind) ahead)
      (back state behind ((word.map replace).reverse ++ₛ ahead)) := by
  induction word generalizing ahead with
  | nil => exact .nil _
  | cons c word ih =>
      rw [List.forall_mem_cons] at hword
      rw [List.map_cons, List.reverse_cons, Stream'.append_append_stream]
      exact .cons (h.2 c hword.1) h.1 (ih hword.2 (.cons (replace c) ahead))

theorem Passes.overRight (h : p.Sweeps .right state id alphabet)
    (hword : ∀ c ∈ word, c ∈ alphabet) (behind ahead : Stream' Char) :
    Passes p word.length ⟨state, behind, word ++ₛ ahead⟩
      ⟨state, word.reverse ++ₛ behind, ahead⟩ := by
  have hsweep := Passes.sweepRight h hword behind ahead
  rw [List.map_id] at hsweep
  exact hsweep

theorem Passes.overLeft (h : p.Sweeps .left state id alphabet)
    (hword : ∀ c ∈ word, c ∈ alphabet) (behind ahead : Stream' Char) :
    Passes p word.length (back state (word.reverse ++ₛ behind) ahead)
      (back state behind (word ++ₛ ahead)) := by
  have hreverse : ∀ c ∈ word.reverse, c ∈ alphabet :=
    fun c hc => hword c (List.mem_reverse.mp hc)
  have hsweep := Passes.sweepLeft h hreverse behind ahead
  rw [List.map_id, List.reverse_reverse, List.length_reverse] at hsweep
  exact hsweep

theorem Passes.appendLeft {blank write : Char} {next : String}
    (rule : p.table.lookup state blank = some ⟨state, blank, write, .left, next⟩)
    (undecided : p.classify next = none) (behind : Stream' Char) :
    Passes p 1 ⟨state, behind, .const blank⟩
      (back next behind (.cons write (.const blank))) := by
  have hstep : Passes p 1 ⟨state, behind, .cons blank (.const blank)⟩
      (back next behind (.cons write (.const blank))) :=
    .one (r := ⟨state, blank, write, .left, next⟩) rule undecided _ _
  rw [← Stream'.const_eq blank] at hstep
  exact hstep

theorem Passes.turnLeft {blank : Char} {next : String}
    (rule : p.table.lookup state blank = some ⟨state, blank, blank, .left, next⟩)
    (undecided : p.classify next = none) (behind : Stream' Char) :
    Passes p 1 ⟨state, behind, .const blank⟩ (back next behind (.const blank)) := by
  have hturn := Passes.appendLeft rule undecided behind
  rw [← Stream'.const_eq blank] at hturn
  exact hturn

theorem Passes.turnRight {blank : Char} {next : String}
    (rule : p.table.lookup state blank = some ⟨state, blank, blank, .right, next⟩)
    (undecided : p.classify next = none) (ahead : Stream' Char) :
    Passes p 1 (back state (.const blank) ahead) ⟨next, .const blank, ahead⟩ := by
  rw [Stream'.const_eq blank]
  exact .one (r := ⟨state, blank, blank, .right, next⟩) rule undecided _ _

theorem Ends.atEnd {blank : Char} {next : String} {outcome : Outcome}
    (rule : p.table.lookup state blank = some ⟨state, blank, blank, .stay, next⟩)
    (decided : p.classify next = some outcome) (behind : Stream' Char) :
    Ends p 1 outcome ⟨state, behind, .const blank⟩ ⟨next, behind, .const blank⟩ := by
  rw [Stream'.const_eq blank]
  exact .one (r := ⟨state, blank, blank, .stay, next⟩) rule decided _ _

end Scene

namespace Infinite

variable {p : Program} {c : Infinite} {r : Rule} {s t : Scene} {n k : Nat} {outcome : Outcome}

/-- What there is to see from the head of the textbook machine. -/
def scene (c : Infinite) : Scene where
  state := c.state
  behind n := c.symbolAt (.negSucc n)
  ahead n := c.symbolAt (.ofNat n)

theorem scene_follow (c : Infinite) (r : Rule) : (c.follow r).scene = c.scene.follow r := by
  have hsymbol := symbolAt_follow c r
  rcases r with ⟨state, read, write, move, next⟩
  cases move with
  | left =>
      refine Scene.ext rfl (funext fun i => (hsymbol _).trans rfl) (funext fun i => ?_)
      rcases i with _ | _ | i
      · exact (hsymbol 0).trans rfl
      · exact (hsymbol 1).trans rfl
      · have hpred : Int.ofNat (i + 2) + Move.left.offset = Int.ofNat (i + 1) := by
          simp only [Int.ofNat_eq_natCast, Move.offset]
          omega
        refine (hsymbol (.ofNat (i + 2))).trans ?_
        rw [hpred]
        rfl
  | right =>
      refine Scene.ext rfl (funext fun i => ?_) (funext fun i => (hsymbol _).trans rfl)
      rcases i with _ | i
      · exact (hsymbol (.negSucc 0)).trans rfl
      · exact (hsymbol (.negSucc (i + 1))).trans rfl
  | stay =>
      refine Scene.ext rfl (funext fun i => (hsymbol _).trans rfl) (funext fun i => ?_)
      rcases i with _ | i
      · exact (hsymbol 0).trans rfl
      · exact (hsymbol (.ofNat (i + 1))).trans rfl

theorem scene_start (p : Program) (input : List Char) :
    (start p input).scene = Scene.start p input := by
  refine Scene.ext rfl (funext fun i => ?_) (funext fun i => ?_)
  · exact congrArg (start p input).cells (Int.zero_add (.negSucc i))
  · refine (congrArg (start p input).cells (Int.zero_add (.ofNat i))).trans ?_
    exact (Scene.get_append_const input p.blank i).symm

theorem next?_of_rule? (h : c.scene.rule? p = some r) : c.next? p = some (c.follow r) := by
  have hsymbol : c.scene.ahead.head = c.cells c.position :=
    congrArg c.cells (Int.add_zero c.position)
  rw [Scene.rule?, hsymbol] at h
  exact congrArg (Option.map c.follow) h

theorem not_decided_of_classify (h : p.classify c.state = none) : ¬ c.Decided p :=
  not_or.mpr (Program.classify_eq_none_iff.mp h)

theorem exists_after?_of_passes (h : c.scene.Passes p n s) :
    ∃ d, after? p n c = some d ∧ d.scene = s ∧ (0 < n → ¬ d.Decided p) := by
  generalize hscene : c.scene = first at h
  induction h generalizing c with
  | nil => exact ⟨c, rfl, hscene, fun hpos => absurd hpos (Nat.lt_irrefl 0)⟩
  | @cons n first s r rule undecided rest ih =>
      subst hscene
      obtain ⟨d, hafter, hd, hundecided⟩ := ih (scene_follow c r)
      refine ⟨d, ?_, hd, fun _ => ?_⟩
      · rw [after?, next?_of_rule? rule]
        exact hafter
      · rcases Nat.eq_zero_or_pos n with rfl | hpos
        · obtain rfl := Option.some.inj hafter
          exact not_decided_of_classify undecided
        · exact hundecided hpos

theorem goesOn_of_passes {input : List Char} (h : (Scene.start p input).Passes p n s)
    (hrule : s.rule? p = some r) : GoesOn p input (n + 1) := by
  intro j hj d hafter hstops
  obtain ⟨u, r', hpasses, hnext⟩ := h.upTo hrule (Nat.le_of_lt_succ hj)
  rw [← scene_start] at hpasses
  obtain ⟨e, he, hscene, hundecided⟩ := exists_after?_of_passes hpasses
  obtain rfl : d = e := Option.some.inj (hafter.symm.trans he)
  rcases hstops with ⟨hpos, hdecided⟩ | hnone
  · exact hundecided hpos hdecided
  · rw [← hscene] at hnext
    rw [next?_of_rule? hnext] at hnone
    contradiction

theorem decided_of_classify (h : p.classify c.state = some outcome) : c.Decided p := by
  by_contra hundecided
  rw [classify_of_not_decided hundecided] at h
  contradiction

theorem exists_firstStop_of_ends {input : List Char}
    (h : (Scene.start p input).Ends p n outcome s) :
    ∃ d, FirstStop p input n d ∧ d.scene = s ∧ 0 < n ∧ p.classify d.state = some outcome := by
  cases h with
  | @step n _ t r _ passes rule decided =>
      have hgoes := goesOn_of_passes passes rule
      rw [← scene_start] at passes
      obtain ⟨c, hafter, rfl, -⟩ := exists_after?_of_passes passes
      have hreached : after? p (n + 1) (start p input) = some (c.follow r) := by
        rw [after?_succ, hafter]
        exact next?_of_rule? rule
      have hdecided : (c.follow r).Decided p := decided_of_classify decided
      exact ⟨c.follow r, ⟨hreached, .inl ⟨Nat.succ_pos n, hdecided⟩, hgoes⟩, scene_follow c r,
        Nat.succ_pos n, decided⟩

end Infinite

namespace Machine

variable {m : Machine} {input : String} {n k : Nat} {outcome : Outcome} {content : String}
  {c : Infinite} {s : Scene} {state : String} {behind ahead : List Char}

theorem symbolAt_of_scene {blank : Char} (h : c.scene = .around blank state behind ahead)
    (d : Int) :
    c.symbolAt d = (⟨behind, ahead.headD blank, ahead.tail, blank⟩ : Tape).symbolAt d := by
  match d with
  | .negSucc i =>
      exact (congrArg (·.behind i) h).trans (Scene.get_append_const behind blank i)
  | .ofNat i =>
      refine (congrArg (·.ahead i) h).trans ((Scene.get_append_const ahead blank i).trans ?_)
      cases i <;> cases ahead <;> rfl

/-- The content is what there is to see on both sides of the head, if no blanks are among it. -/
theorem content_of_agrees (h : m.Agrees k c)
    (hscene : c.scene = .around m.blank state behind ahead)
    (hword : m.blank ∉ behind.reverse ++ ahead) :
    m.content = String.ofList (behind.reverse ++ ahead) := by
  obtain ⟨t, htape, hblank, hshows⟩ := h.shows
  have hseen : t.content = (⟨behind, ahead.headD m.blank, ahead.tail, m.blank⟩ : Tape).content := by
    refine Tape.content_eq_of_shift hblank 0 fun d => ?_
    rw [Int.zero_add, ← symbolAt_of_scene hscene, hshows.2]
  have hcells : (⟨behind, ahead.headD m.blank, ahead.tail, m.blank⟩ : Tape).cells =
      [] ++ (behind.reverse ++ ahead) ++ (if ahead = [] then [m.blank] else []) := by
    cases ahead <;> simp [Tape.cells]
  have hspells := Tape.spells_of_append hcells (fun _ hx => absurd hx List.not_mem_nil)
    (by split <;> simp) (fun x hx => ne_of_mem_of_not_mem (List.mem_of_mem_head? hx) hword)
    (fun x hx => ne_of_mem_of_not_mem (List.mem_of_mem_getLast? hx) hword)
  rw [content, htape, Option.elim_some, hseen, ← (Tape.spells_content _).unique hspells,
    String.ofList_toList]

theorem blank_run (m : Machine) (ceiling : Option Nat) : (m.run ceiling).blank = m.blank := by
  refine @run_induct (fun after => after.blank = m.blank) (fun _ _ h => h) ?_ m rfl ceiling
  intro after h
  rw [toProgram_step]
  exact h

/-- On an input a machine finishes after a number of steps: a run whose ceiling leaves room for them
has a given outcome and a given content, and every other run is stopped by its ceiling. -/
structure Finishes (m : Machine) (input : String) (n : Nat) (outcome : Outcome)
    (content : String) : Prop where
  within : ∀ ceiling, n ≤ ceiling →
    ((m.loadTape input).run (some ceiling)).verdict = outcome ∧
      ((m.loadTape input).run (some ceiling)).steps = n ∧
      ((m.loadTape input).run (some ceiling)).content = content
  beyond : ∀ ceiling, 1 ≤ ceiling → ceiling < n →
    ((m.loadTape input).run (some ceiling)).verdict = .timeout ∧
      ((m.loadTape input).run (some ceiling)).steps = ceiling

theorem run_of_lt_ends {ceiling : Nat}
    (h : (Scene.start m.toProgram input.toList).Ends m.toProgram n outcome s)
    (hceiling : 1 ≤ ceiling) (hn : ceiling < n) :
    ((m.loadTape input).run (some ceiling)).verdict = .timeout ∧
      ((m.loadTape input).run (some ceiling)).steps = ceiling := by
  cases h with
  | step passes rule decided =>
      obtain ⟨u, r', hpasses, hrule⟩ := passes.upTo rule (Nat.le_of_lt_succ hn)
      have hgoes := Infinite.goesOn_of_passes hpasses hrule
      rw [← Infinite.scene_start] at hpasses
      obtain ⟨e, he, -, hundecided⟩ := Infinite.exists_after?_of_passes hpasses
      refine run_of_goesOn hceiling (fun j hj => hgoes j (Nat.lt_succ_of_lt hj)) ?_
      intro d hd
      obtain rfl := Option.some.inj (he.symm.trans hd)
      exact hundecided hceiling

theorem finishes_of_ends
    (h : (Scene.start m.toProgram input.toList).Ends m.toProgram n outcome
      (.around m.blank state behind ahead))
    (hword : m.blank ∉ behind.reverse ++ ahead) :
    m.Finishes input n outcome (String.ofList (behind.reverse ++ ahead)) where
  within := by
    intro ceiling hn
    obtain ⟨d, hstop, hscene, hpos, hclassify⟩ := Infinite.exists_firstStop_of_ends h
    have hdecided := Infinite.decided_of_classify hclassify
    have hceiling := Nat.le_trans hpos hn
    have hverdict : d.verdict m.toProgram = outcome :=
      Option.some.inj ((Infinite.classify_of_decided hdecided).symm.trans hclassify)
    obtain ⟨hagrees, hstatus⟩ := agrees_run_of_decided hceiling hstop ⟨hpos, hdecided⟩ hn
    have hblank : ((m.loadTape input).run (some ceiling)).blank = m.blank :=
      blank_run (m.loadTape input) (some ceiling)
    rw [← hblank] at hscene hword
    exact ⟨(verdict_of_status hstatus).trans hverdict, hagrees.steps,
      content_of_agrees hagrees hscene hword⟩
  beyond := fun _ hceiling hn => run_of_lt_ends h hceiling hn

theorem run_none (h : 1 ≤ m.ceiling) : m.run none = m.run (some m.ceiling) := by
  have hceiling : m.withCeiling (some m.ceiling) = m := withCeiling_some h m
  unfold run
  rw [hceiling]
  rfl

theorem Finishes.run_none_within (h : m.Finishes input n outcome content) (hpos : 1 ≤ m.ceiling)
    (hn : n ≤ m.ceiling) :
    ((m.loadTape input).run none).verdict = outcome ∧
      ((m.loadTape input).run none).steps = n ∧
      ((m.loadTape input).run none).content = content := by
  rw [run_none (m := m.loadTape input) hpos]
  exact h.within m.ceiling hn

theorem Finishes.run_none_beyond (h : m.Finishes input n outcome content) (hpos : 1 ≤ m.ceiling)
    (hn : m.ceiling < n) :
    ((m.loadTape input).run none).verdict = .timeout ∧
      ((m.loadTape input).run none).steps = m.ceiling := by
  rw [run_none (m := m.loadTape input) hpos]
  exact h.beyond m.ceiling hpos hn

end Machine

end TapeMachine
