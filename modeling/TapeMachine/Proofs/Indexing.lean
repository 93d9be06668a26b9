import TapeMachine.Proofs.Fields
import TapeMachine.Proofs.Reading
import TapeMachine.Table.Indexed

namespace TapeMachine

namespace Keyed

variable {α κ : Type} [DecidableEq κ] {key : α → κ} {l : List α} {a : α}

theorem put_of_getElem? {i : Nat} (hnodup : (l.map key).Nodup)
    (hi : (l.map key)[i]? = some (key a)) : put key a l = l.set i a := by
  induction l generalizing i with
  | nil => simp at hi
  | cons b rest ih =>
      rw [List.map_cons, List.nodup_cons] at hnodup
      rw [put_cons]
      cases i with
      | zero =>
          rw [if_pos (Option.some.inj hi)]
          rfl
      | succ i =>
          have hmem : key a ∈ rest.map key := List.mem_of_getElem? hi
          have hne : key b ≠ key a := by
            intro heq
            rw [heq] at hnodup
            exact hnodup.1 hmem
          rw [if_neg hne, ih hnodup.2 hi]
          rfl

end Keyed

namespace Table

variable {t : Table}

/-- The insertions that fail: of a rule for a state and a symbol that have one, unless it is to be
replaced, and of a rule whose move is given by something else than a letter. -/
inductive Refuses (t : Table) : Insertion → Error → Prop
  | taken {r : Rule} (mem : r.key ∈ t.keys) :
      Refuses t (.insertUnique r) (.duplicateRule r.state r.read none)
  | unknown {state : String} {read write : Char} {move next : String}
      (unknown : ∀ m : Move, ¬ Text.sameLetters move.toList [m.letter] = true) :
      Refuses t (.add state read write move next) (.invalidMove move none)

theorem insertUnique_of_mem {r : Rule} (h : r.key ∈ t.keys) :
    t.insertUnique r = .error (.duplicateRule r.state r.read none) :=
  if_pos (contains_iff.mpr h)

theorem insertUnique_of_not_mem {r : Rule} (h : r.key ∉ t.keys) :
    t.insertUnique r = .ok (t.insert r) :=
  if_neg fun hcontains => h (contains_iff.mp hcontains)

theorem ruleOf_of_unknown {state : String} {read write : Char} {move next : String}
    (h : Move.ofToken? move.toList = none) :
    ruleOf state read write move next = .error (.invalidMove move none) := by
  simp only [ruleOf, Move.ofToken, h]
  rfl

theorem ruleOf_of_known {state : String} {read write : Char} {move next : String} {m : Move}
    (h : Move.ofToken? move.toList = some m) :
    ruleOf state read write move next = .ok ⟨state, read, write, m, next⟩ := by
  simp only [ruleOf, Move.ofToken, h]
  rfl

theorem perform_of_refuses {insertion : Insertion} {e : Error} (h : t.Refuses insertion e) :
    t.perform insertion = (.refused e, t) := by
  cases h with
  | taken mem =>
      rw [perform, insertUnique_of_mem mem]
      rfl
  | unknown unknown =>
      rw [perform, add, ruleOf_of_unknown (Move.ofToken?_eq_none_iff.mpr unknown)]
      rfl

theorem perform_cases (t : Table) (insertion : Insertion) :
    (∃ e, t.Refuses insertion e ∧ t.perform insertion = (.refused e, t)) ∨
    ∃ r, insertion.rule? = some r ∧ (t.perform insertion).1.isRefusal = false ∧
      (t.perform insertion).2 = t.insert r := by
  cases insertion with
  | add state read write move next =>
      cases hmove : Move.ofToken? move.toList with
      | none =>
          have hrefuses : t.Refuses (.add state read write move next) (.invalidMove move none) :=
            .unknown (Move.ofToken?_eq_none_iff.mp hmove)
          exact .inl ⟨_, hrefuses, perform_of_refuses hrefuses⟩
      | some m =>
          refine .inr ⟨_, congrArg Except.toOption (ruleOf_of_known hmove), ?_⟩
          rw [perform, add, ruleOf_of_known hmove]
          exact ⟨rfl, rfl⟩
  | insert r => exact .inr ⟨r, rfl, rfl, rfl⟩
  | insertUnique r =>
      by_cases hmem : r.key ∈ t.keys
      · exact .inl ⟨_, .taken hmem, perform_of_refuses (.taken hmem)⟩
      · refine .inr ⟨r, rfl, ?_⟩
        rw [perform, insertUnique_of_not_mem hmem]
        exact ⟨rfl, rfl⟩

theorem perform_refused_iff {insertion : Insertion} {e : Error} :
    (t.perform insertion).1 = .refused e ↔ t.Refuses insertion e := by
  constructor
  · intro h
    obtain ⟨cause, hrefuses, hperform⟩ | ⟨r, -, hdone, -⟩ := t.perform_cases insertion
    · rw [hperform] at h
      exact Answer.refused.inj h ▸ hrefuses
    · rw [h] at hdone
      contradiction
  · intro h
    rw [perform_of_refuses h]

/-- What insertions leave is what inserting the rules leaves that they have written. -/
theorem performAll_snd (t : Table) (insertions : List Insertion) :
    (t.performAll insertions).2 =
      (written insertions (t.performAll insertions).1).foldl insert t := by
  induction insertions generalizing t with
  | nil => rfl
  | cons insertion rest ih =>
      have hrest := ih (t.perform insertion).2
      obtain ⟨e, -, hstep⟩ | ⟨r, hrule, hdone, hstep⟩ := t.perform_cases insertion
      · rw [hstep] at hrest
        simp only [performAll, written, List.zip_cons_cons, List.filterMap_cons, hstep,
          Answer.isRefusal, if_true]
        exact hrest
      · simp only [performAll, written, List.zip_cons_cons, List.filterMap_cons, hdone, hrule,
          Bool.false_eq_true, if_false, List.foldl_cons]
        rw [hrest, hstep]
        rfl

namespace Indexed

variable {t : Indexed}

/-- The index gives exactly the keys of the rules in their slots. -/
def Aligned (t : Indexed) : Prop :=
  ∀ key slot, t.slot? key = some slot ↔ (t.rules.map Rule.key)[slot]? = some key

theorem aligned_empty : empty.Aligned := by
  intro key slot
  simp [slot?, empty, Keyed.find?]

theorem Aligned.nodup (h : t.Aligned) : (t.rules.map Rule.key).Nodup := by
  rw [List.nodup_iff_getElem?_ne_getElem?]
  intro i j hij hj heq
  obtain ⟨key, hkey⟩ : ∃ key, (t.rules.map Rule.key)[j]? = some key :=
    ⟨_, List.getElem?_eq_getElem hj⟩
  have hi := (h key i).mpr (heq.trans hkey)
  have hslot := (h key j).mpr hkey
  rw [hi] at hslot
  exact absurd (Option.some.inj hslot) (Nat.ne_of_lt hij)

theorem Aligned.slot?_eq_none_iff (h : t.Aligned) {key : String × Char} :
    t.slot? key = none ↔ key ∉ t.rules.map Rule.key := by
  rw [Option.eq_none_iff_forall_ne_some, List.mem_iff_getElem?, not_exists]
  exact forall_congr' fun slot => not_congr (h key slot)

theorem Aligned.getElem?_of_slot? (h : t.Aligned) {key : String × Char} {slot : Nat}
    (hslot : t.slot? key = some slot) :
    ∃ r, t.rules[slot]? = some r ∧ r.key = key ∧ Keyed.find? Rule.key key t.rules = some r := by
  have hkey := (h key slot).mp hslot
  rw [List.getElem?_map, Option.map_eq_some_iff] at hkey
  obtain ⟨r, hr, hkey⟩ := hkey
  exact ⟨r, hr, hkey, (Keyed.find?_eq_some_iff h.nodup).mpr ⟨List.mem_of_getElem? hr, hkey⟩⟩

theorem Aligned.lookup?_eq (h : t.Aligned) (state : String) (symbol : Char) :
    t.lookup? state symbol = some (t.table.lookup state symbol) := by
  cases hslot : t.slot? (state, symbol) with
  | none =>
      have hfind := Keyed.find?_eq_none_iff.mpr (h.slot?_eq_none_iff.mp hslot)
      rw [lookup?, hslot]
      exact congrArg some hfind.symm
  | some slot =>
      obtain ⟨r, hr, -, hfind⟩ := h.getElem?_of_slot? hslot
      simp only [lookup?, hslot, hr]
      exact congrArg some hfind.symm

theorem slot?_append (t : Indexed) (r : Rule) (rules : List Rule) (key : String × Char) :
    slot? ⟨rules, Keyed.put Prod.fst (r.key, t.rules.length) t.index⟩ key =
      if key = r.key then some t.rules.length else t.slot? key := by
  by_cases hkey : key = r.key
  · subst hkey
    rw [if_pos rfl, slot?]
    exact congrArg (Option.map Prod.snd) (Keyed.find?_put_self Prod.fst (r.key, _) t.index)
  · rw [if_neg hkey, slot?]
    exact congrArg (Option.map Prod.snd) (Keyed.find?_put_of_ne Prod.fst (r.key, _) hkey t.index)

theorem Aligned.append (h : t.Aligned) {r : Rule} (hnew : r.key ∉ t.rules.map Rule.key) :
    Aligned ⟨t.rules ++ [r], Keyed.put Prod.fst (r.key, t.rules.length) t.index⟩ := by
  intro key slot
  rw [slot?_append, List.map_append, List.map_singleton, List.getElem?_append, List.length_map]
  by_cases hkey : key = r.key
  · subst hkey
    rw [if_pos rfl, Option.some.injEq]
    constructor
    · rintro rfl
      rw [if_neg (Nat.lt_irrefl _), Nat.sub_self]
      rfl
    · intro hslot
      split at hslot
      · exact absurd (List.mem_of_getElem? hslot) hnew
      · rename_i hbehind
        obtain ⟨hlast, -⟩ := List.getElem?_eq_some_iff.mp hslot
        rw [List.length_singleton] at hlast
        omega
  · rw [if_neg hkey, h key slot]
    split
    · rfl
    · rename_i hbehind
      rw [List.getElem?_eq_none (by rw [List.length_map]; omega)]
      constructor
      · intro hnone
        contradiction
      · intro hslot
        exact absurd (List.mem_singleton.mp (List.mem_of_getElem? hslot)) hkey

theorem Aligned.set (h : t.Aligned) {r : Rule} {slot : Nat} (hslot : t.slot? r.key = some slot) :
    Aligned { t with rules := t.rules.set slot r } := by
  have hkeys : (t.rules.set slot r).map Rule.key = t.rules.map Rule.key := by
    obtain ⟨hlt, hkey⟩ := List.getElem?_eq_some_iff.mp ((h r.key slot).mp hslot)
    rw [List.map_set, ← hkey, List.set_getElem_self]
  intro key other
  rw [hkeys]
  exact h key other

theorem Aligned.exchange?_eq (h : t.Aligned) (r : Rule) :
    ∃ t', t.exchange? r = some (t.table.lookup r.state r.read, t') ∧ t'.Aligned ∧
      t'.table = t.table.insert r := by
  cases hslot : t.slot? r.key with
  | none =>
      have hnew := h.slot?_eq_none_iff.mp hslot
      refine ⟨_, ?_, h.append hnew, ?_⟩
      · have hfind : t.table.lookup r.state r.read = none := Keyed.find?_eq_none_iff.mpr hnew
        rw [exchange?, hslot, hfind]
      · have hrules : (t.table.insert r).rules = t.rules ++ [r] := Keyed.put_of_not_mem hnew
        exact congrArg Table.mk hrules.symm
  | some slot =>
      obtain ⟨replaced, hreplaced, -, hfind⟩ := h.getElem?_of_slot? hslot
      refine ⟨_, ?_, h.set hslot, ?_⟩
      · have hlookup : t.table.lookup r.state r.read = some replaced := hfind
        simp only [exchange?, hslot, hreplaced, hlookup]
        rfl
      · have hrules : (t.table.insert r).rules = t.rules.set slot r :=
          Keyed.put_of_getElem? h.nodup ((h r.key slot).mp hslot)
        exact congrArg Table.mk hrules.symm

theorem Aligned.insert?_eq (h : t.Aligned) (r : Rule) :
    ∃ t', t.insert? r = some t' ∧ t'.Aligned ∧ t'.table = t.table.insert r := by
  obtain ⟨t', hexchange, h', htable⟩ := h.exchange?_eq r
  exact ⟨t', congrArg (Option.map Prod.snd) hexchange, h', htable⟩

/-- An insertion finds every slot that it looks into, keeps the index in step with the rules and is
answered as without an index; one that fails changes nothing. -/
theorem Aligned.perform?_eq (h : t.Aligned) (insertion : Insertion) :
    ∃ t', t.perform? insertion = some ((t.table.perform insertion).1, t') ∧ t'.Aligned ∧
      t'.table = (t.table.perform insertion).2 ∧
      ((t.table.perform insertion).1.isRefusal = true → t' = t) := by
  cases insertion with
  | add state read write move next =>
      cases hmove : Move.ofToken? move.toList with
      | none =>
          simp only [perform?, Table.perform, Table.add, ruleOf_of_unknown hmove]
          exact ⟨t, rfl, h, rfl, fun _ => rfl⟩
      | some m =>
          simp only [perform?, Table.perform, Table.add, ruleOf_of_known hmove]
          obtain ⟨t', hinsert, h', htable⟩ := h.insert?_eq ⟨state, read, write, m, next⟩
          exact ⟨t', congrArg (Option.map (Answer.done, ·)) hinsert, h', htable,
            fun hrefused => absurd hrefused Bool.false_ne_true⟩
  | insert r =>
      obtain ⟨t', hexchange, h', htable⟩ := h.exchange?_eq r
      refine ⟨t', ?_, h', htable, fun hrefused => absurd hrefused Bool.false_ne_true⟩
      rw [perform?, hexchange, Table.perform, exchange_replaced]
      rfl
  | insertUnique r =>
      simp only [perform?, h.lookup?_eq, Option.bind_some, Table.perform]
      by_cases hmem : r.key ∈ t.table.keys
      · rw [insertUnique_of_mem hmem]
        exact ⟨t, if_pos (contains_iff.mpr hmem), h, rfl, fun _ => rfl⟩
      · rw [insertUnique_of_not_mem hmem]
        obtain ⟨t', hinsert, h', htable⟩ := h.insert?_eq r
        refine ⟨t', ?_, h', htable, fun hrefused => absurd hrefused Bool.false_ne_true⟩
        exact (if_neg fun hcontains => hmem (contains_iff.mp hcontains)).trans
          (congrArg (Option.map (Answer.done, ·)) hinsert)

theorem Aligned.performAll?_eq (h : t.Aligned) (insertions : List Insertion) :
    ∃ t', t.performAll? insertions = some ((t.table.performAll insertions).1, t') ∧ t'.Aligned ∧
      t'.table = (t.table.performAll insertions).2 := by
  induction insertions generalizing t with
  | nil => exact ⟨t, rfl, h, rfl⟩
  | cons insertion rest ih =>
      obtain ⟨next, hstep, hnext, htable, -⟩ := h.perform?_eq insertion
      obtain ⟨last, hrest, hlast, htable'⟩ := ih hnext
      rw [htable] at hrest htable'
      refine ⟨last, ?_, hlast, htable'⟩
      rw [performAll?, hstep, Option.bind_some]
      exact congrArg (Option.map fun result => (_ :: result.1, result.2)) hrest

/-- What holds of a table with an index when some rules have been written to it: the index is in
step with the rules, the last rule for each state and symbol is found, and the table answers
accordingly. -/
structure Holds (t : Indexed) (writes : List Rule) : Prop where
  index : ∀ key slot, t.slot? key = some slot ↔ (t.rules.map Rule.key)[slot]? = some key
  distinct : (t.rules.map Rule.key).Nodup
  kept : Keyed.KeepsLast Rule.key writes t.rules
  lookup : ∀ state symbol,
    t.lookup? state symbol = some (Keyed.last? Rule.key (state, symbol) writes)
  answered : ∀ insertion, ∃ answer t', t.perform? insertion = some (answer, t')
  insert : ∀ r, ∃ found t', t.lookup? r.state r.read = some found ∧
    t.perform? (.insert r) = some (.replaced found, t')
  refused : ∀ insertion e t', t.perform? insertion = some (.refused e, t') ↔
    t.table.Refuses insertion e ∧ t' = t
  states : ∀ state, state ∈ t.table.states ↔
    ∃ r, Keyed.last? Rule.key r.key writes = some r ∧ (state = r.state ∨ state = r.next)
  symbols : ∀ symbol, symbol ∈ t.table.symbols ↔
    ∃ r, Keyed.last? Rule.key r.key writes = some r ∧ (symbol = r.read ∨ symbol = r.write)

theorem Aligned.perform?_refused_iff (h : t.Aligned) {insertion : Insertion} {e : Error}
    {t' : Indexed} :
    t.perform? insertion = some (.refused e, t') ↔ t.table.Refuses insertion e ∧ t' = t := by
  obtain ⟨next, hperform, -, -, hkept⟩ := h.perform?_eq insertion
  rw [hperform, Option.some.injEq, Prod.mk.injEq, perform_refused_iff]
  refine and_congr_right fun hrefuses => ?_
  rw [hkept (by rw [perform_refused_iff.mpr hrefuses]; rfl)]
  exact eq_comm

theorem Aligned.holds (h : t.Aligned) {writes : List Rule}
    (hwrites : t.table = ofRules writes) : t.Holds writes := by
  have hrules : t.rules = (ofRules writes).rules := congrArg Table.rules hwrites
  have hkept : Keyed.KeepsLast Rule.key writes t.rules := hrules ▸ keepsLast_ofRules writes
  have hmem : ∀ r, r ∈ t.table.rules ↔ Keyed.last? Rule.key r.key writes = some r := by
    intro r
    rw [← hkept.last, Keyed.find?_eq_some_iff h.nodup]
    exact (and_iff_left rfl).symm
  exact {
    index := h
    distinct := h.nodup
    kept := hkept
    lookup := fun state symbol =>
      (h.lookup?_eq state symbol).trans (congrArg some (hkept.last (state, symbol)))
    answered := by
      intro insertion
      obtain ⟨t', hperform, -⟩ := h.perform?_eq insertion
      exact ⟨_, t', hperform⟩
    insert := by
      intro r
      obtain ⟨t', hexchange, -⟩ := h.exchange?_eq r
      refine ⟨_, t', h.lookup?_eq r.state r.read, ?_⟩
      rw [perform?, hexchange]
      rfl
    refused := fun _ _ _ => h.perform?_refused_iff
    states := fun state => mem_states.trans (exists_congr fun r => and_congr_left' (hmem r))
    symbols := fun symbol => mem_symbols.trans (exists_congr fun r => and_congr_left' (hmem r)) }

end Indexed

/-- Insertions into an empty table find every slot that they look into and are answered as without
an index, and the table holds the rules of those that have not failed. -/
theorem insertions_kept_in_order (insertions : List Insertion) :
    ∃ answers t, Indexed.empty.performAll? insertions = some (answers, t) ∧
      empty.performAll insertions = (answers, t.table) ∧
      t.Holds (written insertions answers) := by
  obtain ⟨t, hperform, haligned, htable⟩ := Indexed.aligned_empty.performAll?_eq insertions
  refine ⟨_, t, hperform, Prod.ext rfl htable.symm, haligned.holds ?_⟩
  rw [htable]
  exact empty.performAll_snd insertions

end Table

end TapeMachine
