import Mathlib.Data.List.Nodup
import TapeMachine.Machine.Operation
import TapeMachine.Proofs.LastWritten
import TapeMachine.Proofs.Stepping

namespace TapeMachine

namespace Keyed

variable {α κ : Type} [DecidableEq κ] {key : α → κ}

theorem last?_cons (k : κ) (a : α) (l : List α) :
    last? key k (a :: l) = (last? key k l).or (if key a = k then some a else none) := by
  unfold last?
  by_cases hkey : key a = k
  · rw [List.filter_cons_of_pos (by simpa using hkey), List.getLast?_cons, if_pos hkey]
    cases (l.filter fun a => key a = k).getLast? <;> rfl
  · rw [List.filter_cons_of_neg (by simpa using hkey), if_neg hkey, Option.or_none]

theorem isSome_last?_iff {k : κ} {l : List α} : (last? key k l).isSome ↔ k ∈ l.map key := by
  rw [last?, List.getLast?_isSome, ne_eq, List.filter_eq_nil_iff, List.mem_map]
  simp

theorem last?_eq_some_iff {k : κ} {l : List α} {a : α} (hnodup : (l.map key).Nodup) :
    last? key k l = some a ↔ a ∈ l ∧ key a = k := by
  constructor
  · exact last?_eq_some
  · rintro ⟨ha, rfl⟩
    obtain ⟨b, hb⟩ := Option.isSome_iff_exists.mp
      (isSome_last?_iff.mpr (List.mem_map_of_mem (f := key) ha))
    obtain ⟨hmem, hkey⟩ := last?_eq_some hb
    rw [hb, List.inj_on_of_nodup_map hnodup hmem ha hkey]

theorem last?_of_perm {l l' : List α} (hnodup : (l.map key).Nodup) (h : l.Perm l') (k : κ) :
    last? key k l = last? key k l' := by
  have hnodup' : (l'.map key).Nodup := (h.map key).nodup_iff.mp hnodup
  ext a
  rw [last?_eq_some_iff hnodup, last?_eq_some_iff hnodup', h.mem_iff]

/-- The elements of a list that no later element replaces. -/
def survivors (key : α → κ) : List α → List α
  | [] => []
  | a :: rest =>
      if key a ∈ rest.map key then survivors key rest else a :: survivors key rest

theorem last?_survivors (k : κ) (l : List α) : last? key k (survivors key l) = last? key k l := by
  induction l with
  | nil => rfl
  | cons a rest ih =>
      rw [survivors, last?_cons]
      split
      · rename_i hlater
        rw [ih]
        by_cases hkey : key a = k
        · obtain ⟨b, hb⟩ := Option.isSome_iff_exists.mp (isSome_last?_iff.mpr (hkey ▸ hlater))
          rw [hb, Option.some_or]
        · rw [if_neg hkey, Option.or_none]
      · rw [last?_cons, ih]

end Keyed

namespace Table

theorem lookup_ofRules (rules : List Rule) (state : String) (symbol : Char) :
    (ofRules rules).lookup state symbol = Keyed.last? Rule.key (state, symbol) rules :=
  (keepsLast_ofRules rules).last (state, symbol)

theorem lookup_insert_congr {t t' : Table} {state : String} {symbol : Char}
    (h : t.lookup state symbol = t'.lookup state symbol) (r : Rule) :
    (t.insert r).lookup state symbol = (t'.insert r).lookup state symbol := by
  by_cases hkey : (state, symbol) = r.key
  · obtain ⟨rfl, rfl⟩ := Prod.mk.inj hkey
    rw [lookup_insert_self, lookup_insert_self]
  · rw [lookup_insert_of_ne t r hkey, lookup_insert_of_ne t' r hkey, h]

end Table

/-- What an operation gives back. -/
inductive Reply where
  | nothing
  | flag (value : Bool)
  | outcome (value : Outcome)
  | refusal (cause : Error)
  deriving DecidableEq, Repr

namespace Machine

def reply (m : Machine) : Operation → Reply
  | .addRule state read write move next =>
      match m.addRule state read write move next with
      | .ok _ => .nothing
      | .error cause => .refusal cause
  | .step => .flag m.attempt.1
  | .run ceiling => .outcome (m.run ceiling).verdict
  | .rewind => .flag m.rewind?.isSome
  | .configure .. | .loadTape _ | .setTable _ | .setCeiling _ | .reset _ => .nothing

/-- Two machines that nothing but a look at their programs can tell apart. -/
structure Indistinct (m m' : Machine) : Prop where
  state : m.state = m'.state
  steps : m.steps = m'.steps
  status : m.status = m'.status
  tape : m.tape = m'.tape
  history : m.history = m'.history
  reply : ∀ operation, m.reply operation = m'.reply operation

/-- Two machines that are the same but for the way in which their rules are listed. -/
def Relisted (m m' : Machine) : Prop :=
  ∃ t : Table, (∀ state symbol, m.table.lookup state symbol = t.lookup state symbol) ∧
    m' = m.setTable t

theorem setTable_withCeiling (m : Machine) (t : Table) (ceiling : Option Nat) :
    (m.setTable t).withCeiling ceiling = (m.withCeiling ceiling).setTable t := by
  rcases ceiling with _ | _ | n <;> rfl

theorem table_withCeiling (m : Machine) (ceiling : Option Nat) :
    (m.withCeiling ceiling).table = m.table := by
  rcases ceiling with _ | _ | n <;> rfl

theorem table_run (m : Machine) (ceiling : Option Nat) : (m.run ceiling).table = m.table := by
  obtain ⟨n, hrun⟩ := exists_run_eq_iterate m ceiling
  rw [hrun, toProgram_iterate_step, table_withCeiling]

theorem rewind?_setTable (m : Machine) (t : Table) :
    (m.setTable t).rewind? = m.rewind?.map (·.setTable t) := by
  cases hpast : m.past <;> simp only [rewind?, setTable, hpast] <;> rfl

variable {m m' : Machine}

section Relisting

variable {t : Table} (h : ∀ state symbol, m.table.lookup state symbol = t.lookup state symbol)

include h

theorem rule?_setTable : (m.setTable t).rule? = m.rule? :=
  (h m.state m.currentTape.symbol).symm

theorem step_setTable : (m.setTable t).step = m.step.setTable t := by
  obtain ⟨outcome, hstatus, hstep⟩ | ⟨hstatus, r, hrule, hstep⟩ | ⟨hstatus, hrule, hstep⟩ :=
    step_cases m
  · rw [hstep]
    exact step_of_isHalted (isHalted_of_status (m := m.setTable t) hstatus)
  · rw [hstep, step_of_rule? (m := m.setTable t) hstatus ((rule?_setTable h).trans hrule)]
    rfl
  · rw [hstep, step_of_rule?_eq_none (m := m.setTable t) hstatus ((rule?_setTable h).trans hrule)]
    rfl

theorem iterate_step_setTable (n : Nat) : step^[n] (m.setTable t) = (step^[n] m).setTable t := by
  induction n with
  | zero => rfl
  | succ n ih =>
      rw [Function.iterate_succ_apply', Function.iterate_succ_apply', ih]
      apply step_setTable
      rw [toProgram_iterate_step]
      exact h

theorem run_setTable (ceiling : Option Nat) :
    (m.setTable t).run ceiling = (m.run ceiling).setTable t := by
  have hstart : ∀ state symbol,
      (m.withCeiling ceiling).table.lookup state symbol = t.lookup state symbol := by
    rw [table_withCeiling]
    exact h
  simp only [run, advance_eq_iterate, setTable_withCeiling]
  exact iterate_step_setTable hstart _

end Relisting

theorem Relisted.perform (h : m.Relisted m') (operation : Operation) :
    (m.perform operation).Relisted (m'.perform operation) := by
  obtain ⟨t, h, rfl⟩ := h
  cases operation with
  | configure | loadTape | setCeiling | reset => exact ⟨t, h, rfl⟩
  | setTable table => exact ⟨table, fun _ _ => rfl, rfl⟩
  | addRule state read write move next =>
      simp only [Machine.perform, addRule, Table.add]
      cases Table.ruleOf state read write move next with
      | error cause => exact ⟨t, h, rfl⟩
      | ok r => exact ⟨t.insert r, fun state symbol => Table.lookup_insert_congr (h state symbol) r,
          rfl⟩
  | step =>
      refine ⟨t, ?_, step_setTable h⟩
      change ∀ state symbol, m.step.table.lookup state symbol = t.lookup state symbol
      rw [toProgram_step]
      exact h
  | run ceiling =>
      refine ⟨t, ?_, run_setTable h ceiling⟩
      change ∀ state symbol, (m.run ceiling).table.lookup state symbol = t.lookup state symbol
      rw [table_run]
      exact h
  | rewind =>
      simp only [Machine.perform, rewind?_setTable]
      cases hrewind : m.rewind? with
      | none => exact ⟨t, h, rfl⟩
      | some before =>
          obtain ⟨last, rest, -, rfl⟩ := exists_of_rewind? hrewind
          exact ⟨t, h, rfl⟩

theorem Relisted.performAll (h : m.Relisted m') (operations : List Operation) :
    (m.performAll operations).Relisted (m'.performAll operations) := by
  induction operations generalizing m m' with
  | nil => exact h
  | cons operation rest ih => exact ih (h.perform operation)

theorem Relisted.reply (h : m.Relisted m') (operation : Operation) :
    m.reply operation = m'.reply operation := by
  obtain ⟨t, h, rfl⟩ := h
  cases operation with
  | configure | loadTape | setTable | setCeiling | reset => rfl
  | addRule state read write move next =>
      simp only [Machine.reply, addRule, Table.add]
      cases Table.ruleOf state read write move next <;> rfl
  | step =>
      simp only [Machine.reply, attempt_fst, step_setTable h]
      rfl
  | run ceiling =>
      simp only [Machine.reply, run_setTable h]
      rfl
  | rewind => simp only [Machine.reply, rewind?_setTable, Option.isSome_map]

theorem Relisted.indistinct (h : m.Relisted m') : m.Indistinct m' := by
  have hreply := h.reply
  obtain ⟨t, -, rfl⟩ := h
  exact ⟨rfl, rfl, rfl, rfl, rfl, hreply⟩

/-- Two lists of rules make machines that cannot be told apart, whatever has been done with them. -/
def Interchangeable (rules others : List Rule) : Prop :=
  ∀ (m : Machine) (operations : List Operation),
    ((m.setTable (.ofRules rules)).performAll operations).Indistinct
      ((m.setTable (.ofRules others)).performAll operations)

theorem interchangeable_of_last? {rules others : List Rule}
    (h : ∀ k, Keyed.last? Rule.key k rules = Keyed.last? Rule.key k others) :
    Interchangeable rules others := by
  intro m operations
  have hstart : (m.setTable (.ofRules rules)).Relisted (m.setTable (.ofRules others)) := by
    refine ⟨.ofRules others, ?_, rfl⟩
    intro state symbol
    exact (Table.lookup_ofRules rules state symbol).trans
      ((h (state, symbol)).trans (Table.lookup_ofRules others state symbol).symm)
  exact (hstart.performAll operations).indistinct

/-- Only the last rule for each state and symbol matters to what a machine does, not where it is
listed: rules with distinct keys may be listed in any order, and those that a later rule replaces
may be left out. -/
theorem rule_order_unobservable :
    (∀ rules others : List Rule,
      (∀ k, Keyed.last? Rule.key k rules = Keyed.last? Rule.key k others) →
        Interchangeable rules others) ∧
    (∀ rules others : List Rule, (rules.map Rule.key).Nodup → rules.Perm others →
      Interchangeable rules others) ∧
    ∀ rules, Interchangeable rules (Keyed.survivors Rule.key rules) := by
  refine ⟨fun _ _ => interchangeable_of_last?, ?_, ?_⟩
  · intro rules others hnodup hperm
    exact interchangeable_of_last? (Keyed.last?_of_perm hnodup hperm)
  · intro rules
    exact interchangeable_of_last? fun k => (Keyed.last?_survivors k rules).symm

theorem marker_rule_order_unobservable :
    let left : Rule := ⟨"walk", '_', 'x', .left, "walk"⟩
    let stay : Rule := ⟨"walk", 'x', 'x', .stay, "stop"⟩
    let replaced : Rule := ⟨"walk", '_', 'y', .right, "gone"⟩
    (∀ k, Keyed.last? Rule.key k [replaced, stay, left] = Keyed.last? Rule.key k [left, stay]) ∧
      ([left, stay].map Rule.key).Nodup ∧ [left, stay].Perm [stay, left] ∧
      (((marker.setTable (.ofRules [replaced, stay, left])).performAll
          [.loadTape "", .run (some 12), .rewind]).Indistinct
        ((marker.setTable (.ofRules [left, stay])).performAll
          [.loadTape "", .run (some 12), .rewind])) ∧
      Interchangeable [left, stay] [stay, left] ∧
      Interchangeable [replaced, stay, left] [stay, left] := by
  intro left stay replaced
  have ⟨hlast, hperm, hsurvivors⟩ := rule_order_unobservable
  have hsame : ∀ k, Keyed.last? Rule.key k [replaced, stay, left] =
      Keyed.last? Rule.key k [left, stay] := by
    intro k
    simp only [Keyed.last?_cons]
    by_cases hleft : left.key = k
    · have hstay : stay.key ≠ k := hleft ▸ by decide
      rw [if_pos hleft, if_neg hstay]
      rfl
    · have hreplaced : replaced.key ≠ k := hleft
      rw [if_neg hleft, if_neg hreplaced]
      simp
  have hnodup : ([left, stay].map Rule.key).Nodup := by decide
  have hswap : [left, stay].Perm [stay, left] := .swap stay left []
  exact ⟨hsame, hnodup, hswap, hlast _ _ hsame marker _, hperm _ _ hnodup hswap,
    hsurvivors [replaced, stay, left]⟩

end Machine

end TapeMachine
