import Mathlib.Data.List.Nodup
import TapeMachine.Definition.Basic
import TapeMachine.Proofs.Defects
import TapeMachine.Proofs.LastWritten

namespace TapeMachine

namespace Item

variable {mode : Mode} {lines : List ContentLine} {e : Error}

theorem ofLines_cons (mode : Mode) (l : ContentLine) (lines : List ContentLine) :
    ofLines mode (l :: lines) =
      (ofLine mode l).bind fun items => (ofLines mode lines).map (items ++ ·) := by
  unfold ofLines
  rw [List.mapM_cons]
  cases ofLine mode l with
  | error e => rfl
  | ok items =>
      cases lines.mapM (ofLine mode) with
      | error e => rfl
      | ok rest => rfl

theorem ofLines_append_congr (before : List ContentLine) {lines' : List ContentLine}
    (h : ofLines mode lines = ofLines mode lines') :
    ofLines mode (before ++ lines) = ofLines mode (before ++ lines') := by
  induction before with
  | nil => exact h
  | cons l before ih => rw [List.cons_append, List.cons_append, ofLines_cons, ofLines_cons, ih]

theorem ofLines_eq_ok_iff {items : List Item} :
    ofLines mode lines = .ok items ↔
      (∀ l ∈ lines, ∀ e, ¬ Defect mode l e) ∧ items = lines.flatMap ContentLine.items := by
  induction lines generalizing items with
  | nil =>
      constructor
      · intro h
        exact ⟨fun l hl => by contradiction, (Except.ok.inj h).symm⟩
      · rintro ⟨-, rfl⟩
        rfl
  | cons l lines ih =>
      rw [ofLines_cons, List.forall_mem_cons, List.flatMap_cons]
      rcases Defect.or_ofLine mode l with ⟨e, hdefect⟩ | hok
      · rw [hdefect.ofLine]
        constructor
        · intro h
          contradiction
        · rintro ⟨⟨hnone, -⟩, -⟩
          exact absurd hdefect (hnone e)
      · have hnone := (Defect.ofLine_eq_ok_iff.mp hok).1
        rw [hok]
        change (ofLines mode lines).map (l.items ++ ·) = .ok items ↔ _
        constructor
        · intro h
          cases hrest : ofLines mode lines with
          | error e =>
              rw [hrest] at h
              contradiction
          | ok rest =>
              obtain ⟨hlines, rfl⟩ := ih.mp hrest
              rw [hrest] at h
              exact ⟨⟨hnone, hlines⟩, (Except.ok.inj h).symm⟩
        · rintro ⟨⟨-, hlines⟩, rfl⟩
          rw [ih.mpr ⟨hlines, rfl⟩]
          rfl

theorem ofLines_eq_error_iff :
    ofLines mode lines = .error e ↔ ∃ before l after, lines = before ++ l :: after ∧
      (∀ earlier ∈ before, ∀ e', ¬ Defect mode earlier e') ∧ Defect mode l e := by
  induction lines with
  | nil =>
      constructor
      · intro h
        contradiction
      · rintro ⟨before, l, after, happend, -⟩
        simp at happend
  | cons first lines ih =>
      rw [ofLines_cons, exists_eq_append_cons_iff (P := fun before l _ =>
        (∀ earlier ∈ before, ∀ e', ¬ Defect mode earlier e') ∧ Defect mode l e)]
      rcases Defect.or_ofLine mode first with ⟨e', hdefect⟩ | hok
      · rw [hdefect.ofLine]
        constructor
        · intro h
          obtain rfl : e' = e := by injection h
          exact .inl ⟨fun _ h => by contradiction, hdefect⟩
        · rintro (⟨-, hfirst⟩ | ⟨before, l, after, -, hbefore, -⟩)
          · obtain rfl := Except.error.inj (hdefect.ofLine.symm.trans hfirst.ofLine)
            rfl
          · exact absurd hdefect (hbefore first List.mem_cons_self e')
      · have hnone := (Defect.ofLine_eq_ok_iff.mp hok).1
        have hmap : (Except.ok first.items : Except Error (List Item)).bind
            (fun items => (ofLines mode lines).map (items ++ ·)) = .error e ↔
            ofLines mode lines = .error e := by
          cases ofLines mode lines <;> simp [Except.bind, Except.map]
        rw [hok, hmap, ih]
        constructor
        · rintro ⟨before, l, after, happend, hbefore, hl⟩
          exact .inr ⟨before, l, after, happend, List.forall_mem_cons.mpr ⟨hnone, hbefore⟩, hl⟩
        · rintro (⟨-, hfirst⟩ | ⟨before, l, after, happend, hbefore, hl⟩)
          · exact absurd hfirst (hnone e)
          · exact ⟨before, l, after, happend, (List.forall_mem_cons.mp hbefore).2, hl⟩

end Item

namespace RuleLine

variable {blank : Char} {lines : List RuleLine} {l : RuleLine}

def key (blank : Char) (l : RuleLine) : String × Char :=
  (l.rule blank).key

/-- The first of the rule lines whose key an earlier one has. -/
def FirstRepeat (blank : Char) (lines : List RuleLine) (l : RuleLine) : Prop :=
  ∃ before after, lines = before ++ l :: after ∧ (before.map (key blank)).Nodup ∧
    l.key blank ∈ before.map (key blank)

theorem FirstRepeat.not_nodup (h : FirstRepeat blank lines l) :
    ¬ (lines.map (key blank)).Nodup := by
  obtain ⟨before, after, rfl, -, hmem⟩ := h
  rw [List.map_append]
  intro hnodup
  exact List.disjoint_of_nodup_append hnodup hmem List.mem_cons_self

theorem nodup_or_firstRepeat (blank : Char) (lines : List RuleLine) :
    (lines.map (key blank)).Nodup ∨ ∃ l, FirstRepeat blank lines l := by
  induction lines using List.reverseRecOn with
  | nil => exact .inl List.nodup_nil
  | append_singleton lines last ih =>
      rcases ih with hnodup | ⟨l, before, after, rfl, hbefore, hmem⟩
      · by_cases hlast : last.key blank ∈ lines.map (key blank)
        · exact .inr ⟨last, lines, [], rfl, hnodup, hlast⟩
        · left
          rw [List.map_append, List.map_singleton, ← List.concat_eq_append]
          exact hnodup.concat hlast
      · exact .inr ⟨l, before, after ++ [last], by simp, hbefore, hmem⟩

end RuleLine

namespace Table

def keys (t : Table) : List (String × Char) :=
  t.rules.map Rule.key

theorem contains_iff {t : Table} {r : Rule} :
    t.contains r.state r.read = true ↔ r.key ∈ t.keys := by
  rw [contains, lookup, Option.isSome_iff_ne_none, ne_eq, Keyed.find?_eq_none_iff, not_not]
  rfl

theorem keys_insert_of_not_mem {t : Table} {r : Rule} (h : r.key ∉ t.keys) :
    (t.insert r).keys = t.keys ++ [r.key] := by
  unfold keys at h ⊢
  rw [rules_insert, Keyed.map_put, if_neg h]

end Table

namespace Definition

variable {mode : Mode} {blank : Char} {lines : List RuleLine} {e : Error}

theorem initialOf_eq_ok_iff {config : List (String × String)} {state : String} :
    initialOf config = .ok state ↔ valueOf? "initial_state" config = some state ∧ state ≠ "" := by
  unfold initialOf
  cases valueOf? "initial_state" config with
  | none => simp
  | some written =>
      dsimp only
      split
      · rename_i hempty
        simp [hempty, eq_comm]
      · rename_i hne
        constructor
        · intro h
          obtain rfl := Except.ok.inj h
          exact ⟨rfl, hne⟩
        · rintro ⟨h, -⟩
          exact congrArg Except.ok (Option.some.inj h)

theorem initialOf_eq_error_iff {config : List (String × String)} :
    initialOf config = .error e ↔ (valueOf? "initial_state" config = none ∨
      valueOf? "initial_state" config = some "") ∧ e = .missingInitialState := by
  unfold initialOf
  cases valueOf? "initial_state" config with
  | none => simp [eq_comm]
  | some written => by_cases hempty : written = "" <;> simp [hempty, eq_comm]

theorem insertLine_strict_of_mem {t : Table} {l : RuleLine} (h : l.key blank ∈ t.keys) :
    insertLine .strict blank t l =
      .error (.duplicateRule l.state (l.rule blank).read (some l.line)) :=
  if_pos (Table.contains_iff.mpr h)

theorem insertLine_strict_of_not_mem {t : Table} {l : RuleLine} (h : l.key blank ∉ t.keys) :
    insertLine .strict blank t l = .ok (t.insert (l.rule blank)) :=
  if_neg fun hcontains => h (Table.contains_iff.mp hcontains)

theorem insertLines_normal (blank : Char) (lines : List RuleLine) (t : Table) :
    lines.foldlM (insertLine .normal blank) t =
      .ok ((lines.map (RuleLine.rule · blank)).foldl Table.insert t) := by
  induction lines generalizing t with
  | nil => rfl
  | cons l lines ih => exact ih (t.insert (l.rule blank))

theorem insertLines_strict {t : Table}
    (h : (t.keys ++ lines.map (RuleLine.key blank)).Nodup) :
    lines.foldlM (insertLine .strict blank) t =
        .ok ((lines.map (RuleLine.rule · blank)).foldl Table.insert t) ∧
      ((lines.map (RuleLine.rule · blank)).foldl Table.insert t).keys =
        t.keys ++ lines.map (RuleLine.key blank) := by
  -- The keys of the table and those of the lines to come stay distinct.
  induction lines generalizing t with
  | nil => exact ⟨rfl, by simp⟩
  | cons l lines ih =>
      rw [List.map_cons] at h
      have hnew : l.key blank ∉ t.keys :=
        fun hmem => List.disjoint_of_nodup_append h hmem List.mem_cons_self
      have hkeys := Table.keys_insert_of_not_mem hnew
      have hrest : ((t.insert (l.rule blank)).keys ++ lines.map (RuleLine.key blank)).Nodup := by
        rw [hkeys, List.append_assoc]
        exact h
      obtain ⟨hfold, hfinal⟩ := ih hrest
      rw [hkeys, List.append_assoc] at hfinal
      refine ⟨?_, hfinal⟩
      rw [List.foldlM_cons, insertLine_strict_of_not_mem hnew]
      exact hfold

theorem insertLines_strict_of_firstRepeat {l : RuleLine}
    (h : RuleLine.FirstRepeat blank lines l) :
    lines.foldlM (insertLine .strict blank) Table.empty =
      .error (.duplicateRule l.state (l.rule blank).read (some l.line)) := by
  obtain ⟨before, after, rfl, hnodup, hmem⟩ := h
  obtain ⟨hfold, hkeys⟩ := insertLines_strict (t := .empty) hnodup
  rw [List.foldlM_append, hfold]
  show (l :: after).foldlM (insertLine .strict blank) _ = Except.error _
  rw [List.foldlM_cons, insertLine_strict_of_mem (hkeys ▸ hmem)]
  rfl

theorem tableOf_of_ne_nil (h : lines ≠ []) :
    tableOf mode blank lines = lines.foldlM (insertLine mode blank) Table.empty :=
  if_neg fun hempty => h (List.isEmpty_iff.mp hempty)

theorem tableOf_of_firstRepeat {l : RuleLine} (h : RuleLine.FirstRepeat blank lines l) :
    tableOf .strict blank lines =
      .error (.duplicateRule l.state (l.rule blank).read (some l.line)) := by
  rw [tableOf_of_ne_nil, insertLines_strict_of_firstRepeat h]
  rintro rfl
  exact h.not_nodup List.nodup_nil

theorem tableOf_of_nodup (hne : lines ≠ [])
    (hkeys : mode = .strict → (lines.map (RuleLine.key blank)).Nodup) :
    tableOf mode blank lines = .ok (.ofRules (lines.map (RuleLine.rule · blank))) := by
  rw [tableOf_of_ne_nil hne]
  cases mode with
  | normal => exact insertLines_normal blank lines .empty
  | strict => exact (insertLines_strict (t := .empty) (hkeys rfl)).1

theorem tableOf_cases (mode : Mode) (blank : Char) (lines : List RuleLine) :
    lines = [] ∨ (lines ≠ [] ∧ (mode = .strict → (lines.map (RuleLine.key blank)).Nodup)) ∨
      (mode = .strict ∧ ∃ l, RuleLine.FirstRepeat blank lines l) := by
  by_cases hne : lines = []
  · exact .inl hne
  · right
    cases mode with
    | normal => exact .inl ⟨hne, fun h => by contradiction⟩
    | strict =>
        rcases RuleLine.nodup_or_firstRepeat blank lines with hnodup | hrepeat
        · exact .inl ⟨hne, fun _ => hnodup⟩
        · exact .inr ⟨rfl, hrepeat⟩

theorem tableOf_eq_ok_iff {t : Table} :
    tableOf mode blank lines = .ok t ↔
      lines ≠ [] ∧ (mode = .strict → (lines.map (RuleLine.key blank)).Nodup) ∧
        t = .ofRules (lines.map (RuleLine.rule · blank)) := by
  constructor
  · intro hok
    rcases tableOf_cases mode blank lines with rfl | ⟨hne, hkeys⟩ | ⟨rfl, l, hrepeat⟩
    · contradiction
    · rw [tableOf_of_nodup hne hkeys] at hok
      exact ⟨hne, hkeys, (Except.ok.inj hok).symm⟩
    · rw [tableOf_of_firstRepeat hrepeat] at hok
      contradiction
  · rintro ⟨hne, hkeys, rfl⟩
    exact tableOf_of_nodup hne hkeys

/-- The rules are refused if there is none, and in strict mode for the first key that repeats. -/
theorem tableOf_eq_error_iff :
    tableOf mode blank lines = .error e ↔
      (lines = [] ∧ e = .noRules) ∨ (mode = .strict ∧ ∃ l, RuleLine.FirstRepeat blank lines l ∧
        e = .duplicateRule l.state (l.rule blank).read (some l.line)) := by
  constructor
  · intro herror
    rcases tableOf_cases mode blank lines with rfl | ⟨hne, hkeys⟩ | ⟨rfl, l, hrepeat⟩
    · exact .inl ⟨rfl, (Except.error.inj herror).symm⟩
    · rw [tableOf_of_nodup hne hkeys] at herror
      contradiction
    · rw [tableOf_of_firstRepeat hrepeat] at herror
      exact .inr ⟨rfl, l, hrepeat, (Except.error.inj herror).symm⟩
  · rintro (⟨rfl, rfl⟩ | ⟨rfl, l, hrepeat, rfl⟩)
    · rfl
    · exact tableOf_of_firstRepeat hrepeat

end Definition

end TapeMachine
