import TapeMachine.Machine.Operation
import TapeMachine.Proofs.Modes
import TapeMachine.Proofs.Spelling
import TapeMachine.Proofs.Written

namespace TapeMachine

namespace Text

theorem not_mem_of_mem_splitOn {c : Char} {s piece : List Char} (h : piece ∈ s.splitOn c) :
    c ∉ piece := by
  induction s generalizing piece with
  | nil =>
      obtain rfl := List.mem_singleton.mp h
      exact List.not_mem_nil
  | cons d s ih =>
      rw [List.splitOn_cons_eq_if_modifyHead] at h
      split at h
      · rcases List.mem_cons.mp h with rfl | h
        · exact List.not_mem_nil
        · exact ih h
      · rename_i hd
        cases hsplit : s.splitOn c with
        | nil => exact absurd hsplit (List.splitOn_ne_nil c s)
        | cons first rest =>
            rw [hsplit, List.modifyHead_cons] at h
            rcases List.mem_cons.mp h with rfl | h
            · have hfirst : c ∉ first := ih (hsplit ▸ List.mem_cons_self)
              have hne : c ≠ d := fun heq => hd (beq_iff_eq.mpr heq.symm)
              simp [hne, hfirst]
            · exact ih (hsplit ▸ List.mem_cons_of_mem first h)

theorem of_mem_commaFields {s field : List Char} (h : field ∈ commaFields s) :
    trim field = field ∧ ',' ∉ field ∧ field <:+: s := by
  obtain ⟨raw, hraw, rfl⟩ := List.mem_map.mp h
  refine ⟨trim_trim raw, ?_, (trim_isInfix raw).trans (isInfix_of_mem_splitOn hraw)⟩
  exact fun hcomma => not_mem_of_mem_splitOn hraw ((trim_isInfix raw).subset hcomma)

end Text

namespace Keyed

variable {α κ : Type} [DecidableEq κ] {key : α → κ}

theorem nodup_ofList (l : List α) : ((ofList key l).map key).Nodup := by
  induction l using List.reverseRecOn with
  | nil => exact List.nodup_nil
  | append_singleton l a ih =>
      rw [ofList_append_singleton, map_put]
      split
      · exact ih
      · rename_i hnew
        rw [← List.concat_eq_append]
        exact ih.concat hnew

theorem ofList_ne_nil {l : List α} (h : l ≠ []) : ofList key l ≠ [] := by
  intro hnil
  obtain ⟨a, ha⟩ := List.exists_mem_of_ne_nil l h
  have hkey := (keepsLast_ofList l).mem_map_iff.mpr (List.mem_map_of_mem (f := key) ha)
  rw [hnil] at hkey
  contradiction

theorem mem_of_mem_put {a b : α} {l : List α} (h : b ∈ put key a l) : b = a ∨ b ∈ l := by
  induction l with
  | nil => exact .inl (List.mem_singleton.mp h)
  | cons c rest ih =>
      rw [put_cons] at h
      split at h
      · rcases List.mem_cons.mp h with hb | hb
        · exact .inl hb
        · exact .inr (List.mem_cons_of_mem c hb)
      · rcases List.mem_cons.mp h with rfl | hb
        · exact .inr List.mem_cons_self
        · exact (ih hb).imp_right (List.mem_cons_of_mem c)

theorem mem_of_mem_ofList {a : α} {l : List α} (h : a ∈ ofList key l) : a ∈ l := by
  induction l using List.reverseRecOn with
  | nil => exact h
  | append_singleton l b ih =>
      rw [ofList_append_singleton] at h
      rcases mem_of_mem_put h with rfl | h
      · exact List.mem_append_right l (List.mem_singleton_self a)
      · exact List.mem_append_left _ (ih h)

end Keyed

namespace Line

theorem exists_of_rule? {blank : Char} {s : List Char} {r : Rule} (h : rule? blank s = some r) :
    ∃ state read write move next, IsRule s state read write move next ∧
      r.state = .ofList state ∧ r.read = read.head?.getD blank ∧
      r.write = write.head?.getD blank ∧ r.next = .ofList next := by
  by_cases hshape : ∃ state read write move next, IsRule s state read write move next
  · obtain ⟨state, read, write, move, next, hrule⟩ := hshape
    rw [rule?, RuleLine.ofText?_of_isRule hrule, Option.map_map] at h
    obtain ⟨m, -, rfl⟩ := Option.map_eq_some_iff.mp h
    exact ⟨state, read, write, move, next, hrule, rfl, rfl, rfl, rfl⟩
  · have hshapeless : ∀ state read write move next, ¬ IsRule s state read write move next :=
      fun state read write move next hrule => hshape ⟨state, read, write, move, next, hrule⟩
    rw [rule?, RuleLine.ofText?_of_shapeless hshapeless] at h
    contradiction

end Line

namespace Definition

theorem isPlain_ofList_iff {s : List Char} : IsPlain (.ofList s) ↔ Text.trim s = s ∧ '\n' ∉ s := by
  constructor
  · rintro ⟨htrim, hline⟩
    rw [String.toList_ofList] at htrim hline
    exact ⟨htrim, hline⟩
  · rintro ⟨htrim, hline⟩
    constructor <;> rwa [String.toList_ofList]

theorem isState_of_mem_plainSides {s field : List Char} {side : List (List Char)}
    (hline : '\n' ∉ s) (hside : side ∈ Line.plainSides s) (hfield : field ∈ side) :
    IsState (.ofList field) := by
  obtain ⟨piece, hpiece, rfl⟩ := List.mem_map.mp hside
  obtain ⟨harrow, hinside⟩ := Text.noArrow_of_mem_splitArrows hpiece
  obtain ⟨htrim, hcomma, hfield⟩ := Text.of_mem_commaFields hfield
  have hplain : IsPlain (.ofList field) := isPlain_ofList_iff.mpr
    ⟨htrim, fun hnewline => hline ((hfield.trans hinside).subset hnewline)⟩
  refine ⟨hplain, ?_, ?_⟩ <;> rw [String.toList_ofList]
  · exact hcomma
  · exact fun hinner => harrow (hinner.trans hfield)

theorem IsState.blank_or_isSymbol {field : List Char} (h : IsState (.ofList field)) (blank : Char) :
    field.head?.getD blank = blank ∨ IsSymbol (field.head?.getD blank) := by
  have htrim := h.trimmed
  have hcomma := h.noComma
  rw [String.toList_ofList] at htrim hcomma
  cases field with
  | nil => exact .inl rfl
  | cons c rest =>
      right
      refine ⟨(Text.trim_eq_self_iff.mp htrim).1 c rfl, ?_⟩
      rintro rfl
      exact hcomma List.mem_cons_self

structure IsRead (blank : Char) (r : Rule) : Prop where
  state : IsState r.state
  next : IsState r.next
  read : r.read = blank ∨ IsSymbol r.read
  write : r.write = blank ∨ IsSymbol r.write

theorem isRead_of_rule? {blank : Char} {s : List Char} {r : Rule} (hline : '\n' ∉ s)
    (h : Line.rule? blank s = some r) : IsRead blank r := by
  obtain ⟨state, read, write, move, next, hrule, hstate, hread, hwrite, hnext⟩ :=
    Line.exists_of_rule? h
  rw [Line.IsRule] at hrule
  have hleft : ∀ field ∈ [state, read], IsState (.ofList field) :=
    fun _ => isState_of_mem_plainSides hline (by simp [hrule])
  have hright : ∀ field ∈ [write, move, next], IsState (.ofList field) :=
    fun _ => isState_of_mem_plainSides hline (by simp [hrule])
  simp only [List.forall_mem_cons] at hleft hright
  exact {
    state := hstate ▸ hleft.1
    next := hnext ▸ hright.2.2.1
    read := hread ▸ hleft.2.1.blank_or_isSymbol blank
    write := hwrite ▸ hright.1.blank_or_isSymbol blank }

end Definition

namespace Contents

open Definition

variable {source : String} {mode : Mode}

theorem isPlain_of_mem {place : Section} {s : List Char} (h : s ∈ ofText source place) :
    IsPlain (.ofList s) ∧ s ≠ [] := by
  obtain ⟨raw, hraw, hcontent, rfl⟩ := exists_raw_of_mem h
  refine ⟨isPlain_ofList_iff.mpr ⟨Text.trim_trim raw, ?_⟩, hcontent.not_blank⟩
  exact fun hnewline =>
    Text.not_mem_of_mem_splitOn hraw ((Text.trim_isInfix raw).subset hnewline)

theorem isPlain_of_last? {place : Section} {key value : String}
    (h : (ofText source).last? place key = some value) : IsPlain value := by
  obtain ⟨s, hs, before, after, rfl, -, -, hvalue⟩ := isEntry_of_last? h
  have hline := (isPlain_of_mem hs).1.oneLine
  constructor <;> rw [← hvalue]
  · exact Text.trim_trim after
  · intro hnewline
    have hafter : '\n' ∈ after := (Text.trim_isInfix after).subset hnewline
    simp [hafter] at hline

theorem isItem_of_mem_states {key state : String} (h : state ∈ (ofText source).states key) :
    IsItem state := by
  rw [states, Sorted.mem_ofList] at h
  cases hlast : (ofText source).last? .config key with
  | none =>
      rw [hlast] at h
      contradiction
  | some value =>
      rw [hlast] at h
      obtain ⟨item, hitem, rfl⟩ := List.mem_map.mp h
      obtain ⟨hfield, hne⟩ := List.mem_filter.mp hitem
      obtain ⟨htrim, hcomma, hinside⟩ := Text.of_mem_commaFields hfield
      have hline := (isPlain_of_last? hlast).oneLine
      refine ⟨isPlain_ofList_iff.mpr ⟨htrim, ?_⟩, ?_, ?_⟩
      · exact fun hnewline => hline (hinside.subset hnewline)
      · rw [ne_eq, ← String.toList_eq_nil_iff, String.toList_ofList]
        simpa using hne
      · rwa [String.toList_ofList]

theorem isRead_of_mem_rules {r : Rule} (h : r ∈ (ofText source).rules) :
    IsRead (ofText source).blank r := by
  obtain ⟨s, hs, hrule⟩ := List.mem_filterMap.mp h
  exact isRead_of_rule? (isPlain_ofList_iff.mp (isPlain_of_mem hs).1).2 hrule

theorem isPlain_input : IsPlain (ofText source).definition.input := by
  constructor
  · rw [definition, String.toList_ofList, Text.trim_trim]
  · intro hnewline
    rw [input_definition, toList_join_ofList, List.mem_flatten] at hnewline
    obtain ⟨s, hs, hnewline⟩ := hnewline
    exact (isPlain_ofList_iff.mp (isPlain_of_mem hs).1).2 hnewline

theorem Acceptable.isSpace_blank (h : (ofText source).Acceptable mode) :
    Text.isSpace (ofText source).blank = false := by
  rcases h.blank with hlast | ⟨-, hdefault⟩
  · have htrim := (isPlain_of_last? hlast).trimmed
    rw [String.toList_ofList] at htrim
    exact (Text.trim_eq_self_iff.mp htrim).1 _ rfl
  · rw [hdefault]
    rfl

theorem Acceptable.ceiling_pos {contents : Contents} (h : contents.Acceptable mode) :
    1 ≤ contents.definition.program.ceiling := by
  unfold definition
  cases hlast : contents.last? .config "max_steps" with
  | none => exact Nat.le_of_ble_eq_true rfl
  | some value =>
      obtain ⟨limit, hlimit⟩ := h.exists_limit hlast
      simpa [hlimit] using (Item.readLimit?_eq_some_iff.mp hlimit).2.1

variable (contents : Contents)

theorem key_config_ne {key : String} (h : ∀ value, isScalar (key, value) = false) :
    key ∉ contents.definition.config.map Prod.fst := by
  intro hkey
  obtain ⟨⟨_, value⟩, hentry, rfl⟩ := List.mem_map.mp hkey
  have hscalar := (List.mem_filter.mp (Keyed.mem_of_mem_ofList hentry)).2
  rw [h value] at hscalar
  contradiction

theorem valueOf?_config_definition {key : String} (h : ∀ value, isScalar (key, value) = true) :
    valueOf? key contents.definition.config = contents.last? .config key := by
  have hscalar : ∀ entry : String × String, entry.1 = key → isScalar entry = true := by
    rintro ⟨_, value⟩ rfl
    exact h value
  rw [definition, valueOf?_ofList, Keyed.last?_filter hscalar, last?]

end Contents

namespace Definition

section Operations

variable {mode : Mode} {source : String} {d : Definition}

/-- The machine of a definition is a new one that has been given states, a ceiling and a table. -/
theorem machine_of_parse (h : parse mode source = .ok d) :
    d.machine = (((Machine.new d.program.name d.program.description).configure d.program.initial
      d.program.accept d.program.reject d.program.blank).setCeiling d.program.ceiling).setTable
        d.program.table := by
  obtain ⟨-, rfl⟩ := parse_eq_ok_iff.mp h
  exact Machine.start_eq (Sorted.ofList_ofList _) (Sorted.ofList_ofList _)

/-- What holds of reachable machines holds of the machine of a definition, however it is used. -/
theorem reachable_of_parse (h : parse mode source = .ok d) (operations : List Operation) :
    (d.machine.performAll operations).Reachable := by
  have hmachine : d.machine.Reachable :=
    ⟨_, _, [.configure d.program.initial d.program.accept d.program.reject d.program.blank,
      .setCeiling d.program.ceiling, .setTable d.program.table], machine_of_parse h⟩
  exact hmachine.performAll operations

end Operations

structure WellFormed (d : Definition) : Prop where
  program : d.machine.toProgram = d.program
  status : d.machine.status = .running
  tape : d.machine.tape = none
  steps : d.machine.steps = 0
  history : d.machine.history = []
  state : d.machine.state = d.program.initial
  setting : valueOf? "initial_state" d.config = some d.program.initial
  named : d.program.initial ≠ ""
  initial : IsPlain d.program.initial
  ceiling : 1 ≤ d.program.ceiling
  blank : Text.isSpace d.program.blank = false
  nonempty : d.program.table.rules ≠ []
  distinct : d.program.table.keys.Nodup
  rules : ∀ r ∈ d.program.table.rules, IsRead d.program.blank r
  accept : ∀ state ∈ d.program.accept, IsItem state
  reject : ∀ state ∈ d.program.reject, IsItem state
  noLists : "accept_states" ∉ d.config.map Prod.fst ∧ "reject_states" ∉ d.config.map Prod.fst
  input : IsPlain d.input

/-- Every definition that can be read is well formed. -/
theorem wellFormed_of_parse {mode : Mode} {source : String} {d : Definition}
    (h : parse mode source = .ok d) : d.WellFormed := by
  obtain ⟨hacceptable, hd⟩ := parse_eq_ok_iff.mp h
  obtain ⟨state, hstate, hnamed⟩ := hacceptable.initial
  have hinitial : d.program.initial = state := by
    rw [hd, Contents.definition, hstate]
    rfl
  have hblank : d.program.blank = (Contents.ofText source).blank := by
    rw [hd, Contents.definition]
  have hrules : d.program.table.rules = Keyed.ofList Rule.key (Contents.ofText source).rules := by
    rw [hd, Contents.definition, Table.rules_ofRules]
  exact {
    program := rfl
    status := rfl
    tape := rfl
    steps := rfl
    history := rfl
    state := rfl
    setting := by rw [hinitial, hd, Contents.valueOf?_config_definition _ fun _ => rfl, hstate]
    named := hinitial ▸ hnamed
    initial := hinitial ▸ Contents.isPlain_of_last? hstate
    ceiling := hd ▸ hacceptable.ceiling_pos
    blank := hblank ▸ hacceptable.isSpace_blank
    nonempty := hrules ▸ Keyed.ofList_ne_nil hacceptable.rules
    distinct := by
      rw [Table.keys, hrules]
      exact Keyed.nodup_ofList _
    rules := by
      intro r hr
      rw [hrules] at hr
      rw [hblank]
      exact Contents.isRead_of_mem_rules (Keyed.mem_of_mem_ofList hr)
    accept := hd ▸ fun _ => Contents.isItem_of_mem_states
    reject := hd ▸ fun _ => Contents.isItem_of_mem_states
    noLists := hd ▸ ⟨Contents.key_config_ne _ fun _ => rfl, Contents.key_config_ne _ fun _ => rfl⟩
    input := hd ▸ Contents.isPlain_input }

/-- A text with settings that are written twice or left empty, and with a comma for its blank. -/
def overwritten : String :=
  Preset.textOf ["[CONFIG]", "initial_state: s", "accept_states: b, , a", "accept_states:",
    "blank_symbol: x", "max_steps: 7", "[INPUT]", " 1 0 ", "  2", "[TRANSITIONS]",
    "t, -> , R, u", "t, ,-> 1, L, ", "t, -> y, l, v", "[config]", "initial_state:  t  u ",
    "blank_symbol: ,", "max_steps: +9"]

theorem overwritten_wellFormed :
    ∃ d, parse .normal overwritten = .ok d ∧ d.program.initial = "t  u" ∧
      d.program.blank = ',' ∧ d.program.table.rules = [⟨"t", ',', 'y', .left, "v"⟩] ∧
      d.input = "1 02" ∧ d.WellFormed := by
  have hread : (parse .normal overwritten).toOption.map (fun d =>
      (d.program.initial, d.program.blank, d.program.table.rules, d.input)) =
      some ("t  u", ',', [⟨"t", ',', 'y', .left, "v"⟩], "1 02") := by
    rw [overwritten, Preset.textOf, parse, String.toList_ofList]
    decide +kernel
  obtain ⟨d, hparse, hparts⟩ := exists_ok_of_map_eq_some hread
  simp only [Prod.mk.injEq] at hparts
  obtain ⟨hinitial, hblank, hrules, hinput⟩ := hparts
  exact ⟨d, hparse, hinitial, hblank, hrules, hinput, wellFormed_of_parse hparse⟩

end Definition

end TapeMachine
