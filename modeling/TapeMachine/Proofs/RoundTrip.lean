import TapeMachine.Proofs.Interleaving
import TapeMachine.Proofs.Written

namespace TapeMachine

namespace Text

theorem isDigit_of_mem_toString {n : Nat} {c : Char} (h : c ∈ (toString n).toList) :
    c.isDigit = true := by
  rw [Nat.toString_eq_ofList_toDigits, String.toList_ofList] at h
  exact Nat.isDigit_of_mem_toDigits (b := 10) (by decide) (by decide) h

theorem denotes_toString (n : Nat) : Denotes (toString n).toList n := by
  refine ⟨(toString n).toList, ?_, .inl rfl, fun c => isDigit_of_mem_toString, ?_⟩
  · rw [Nat.toString_eq_ofList_toDigits, String.toList_ofList]
    exact Nat.toDigits_ne_nil
  · rw [Nat.toString_eq_ofList_toDigits, String.toList_ofList]
    exact Nat.ofDigitChars_ten_toDigits

theorem isSpace_of_isDigit {c : Char} (h : c.isDigit = true) : isSpace c = false := by
  obtain ⟨hlow, hhigh⟩ := Char.isDigit_iff_toNat.mp h
  have h0 : '0'.toNat = 48 := rfl
  have h9 : '9'.toNat = 57 := rfl
  simp [isSpace]
  omega

end Text

namespace Definition

theorem isPlain_toString (n : Nat) : IsPlain (toString n) := by
  constructor
  · rw [Text.trim_eq_self_iff]
    constructor
    · intro c hc
      exact Text.isSpace_of_isDigit (Text.isDigit_of_mem_toString (List.mem_of_head? hc))
    · intro c hc
      exact Text.isSpace_of_isDigit (Text.isDigit_of_mem_toString (List.mem_of_getLast? hc))
  · intro hnewline
    exact absurd (Text.isDigit_of_mem_toString hnewline) (by decide)

/-- A program and an input that can be read back, where the letters of the moves are chosen. -/
structure Writable (letter : Rule → Char) (p : Program) (input : String) : Prop where
  name : IsPlain p.name
  description : IsPlain p.description
  initial : IsPlain p.initial
  named : p.initial ≠ ""
  accept : ∀ state ∈ p.accept, IsItem state
  reject : ∀ state ∈ p.reject, IsItem state
  blank : Text.isSpace p.blank = false
  positive : 1 ≤ p.ceiling
  bounded : p.ceiling < Text.wordBound
  nonempty : p.table.rules ≠ []
  distinct : p.table.keys.Nodup
  rules : ∀ r ∈ p.table.rules, IsWritable (letter r) r
  visible : ∀ r ∈ p.table.rules, ¬ Hidden (ruleText (letter r) r)
  inputLine : IsPlain input
  inputVisible : ¬ Hidden input.toList

variable (letter : Rule → Char) (p : Program) (input : String)

def metadataOf : List (String × List Char) :=
  [("name", p.name.toList), ("description", p.description.toList)]

def configOf : List (String × List Char) :=
  [("initial_state", p.initial.toList), ("accept_states", listText p.accept),
    ("reject_states", listText p.reject), ("blank_symbol", [p.blank]),
    ("max_steps", (toString p.ceiling).toList)]

def ruleTexts : List (List Char) :=
  p.table.rules.map fun r => ruleText (letter r) r

/-- What the sections of the written text contain. -/
def written : Contents
  | .metadata => (entryLines (metadataOf p)).map Text.trim
  | .config => (entryLines (configOf p)).map Text.trim
  | .transitions => (ruleTexts letter p).map Text.trim
  | .input => if input = "" then [] else [input.toList]
  | .alphabet | .unknown => []

theorem linesOf_append : linesOf letter p input ++ [[]] =
    headerLine "METADATA" :: (entryLines (metadataOf p) ++ headerLine "CONFIG" ::
      (entryLines (configOf p) ++ headerLine "TRANSITIONS" :: (ruleTexts letter p ++
        [headerLine "INPUT", input.toList, []]))) := by
  simp [linesOf, metadataOf, configOf, ruleTexts, entryLines]

theorem isKey_metadataOf : ∀ entry ∈ metadataOf p, IsKey entry.1 := by
  simp only [metadataOf, List.forall_mem_cons]
  refine ⟨?_, ?_, by simp⟩
  all_goals exact ⟨⟨rfl, by decide⟩, ⟨_, _, rfl, by decide, by decide⟩, by decide⟩

theorem isKey_configOf : ∀ entry ∈ configOf p, IsKey entry.1 := by
  simp only [configOf, List.forall_mem_cons]
  refine ⟨?_, ?_, ?_, ?_, ?_, by simp⟩
  all_goals exact ⟨⟨rfl, by decide⟩, ⟨_, _, rfl, by decide, by decide⟩, by decide⟩

variable {letter p input}

theorem trim_blank (h : Writable letter p input) : Text.trim [p.blank] = [p.blank] := by
  rw [Text.trim_eq_self_iff]
  simp [h.blank]

theorem oneLine_configOf (h : Writable letter p input) :
    ∀ entry ∈ configOf p, '\n' ∉ entry.2 := by
  have hblank : '\n' ∉ [p.blank] := by
    intro hnewline
    have hspace := h.blank
    rw [← List.mem_singleton.mp hnewline] at hspace
    exact Bool.noConfusion hspace
  simp only [configOf, List.forall_mem_cons]
  exact ⟨h.initial.oneLine, oneLine_listText h.accept, oneLine_listText h.reject, hblank,
    (isPlain_toString p.ceiling).oneLine, by simp⟩

theorem oneLine_metadataOf (h : Writable letter p input) :
    ∀ entry ∈ metadataOf p, '\n' ∉ entry.2 := by
  simp only [metadataOf, List.forall_mem_cons]
  exact ⟨h.name.oneLine, h.description.oneLine, by simp⟩

theorem oneLine_linesOf (h : Writable letter p input) :
    ∀ line ∈ linesOf letter p input, '\n' ∉ line := by
  have hrules : ∀ line ∈ ruleTexts letter p, '\n' ∉ line := by
    intro line hline
    obtain ⟨r, hr, rfl⟩ := List.mem_map.mp hline
    exact oneLine_ruleText (h.rules r hr)
  have hall : ∀ line ∈ linesOf letter p input ++ [[]], '\n' ∉ line := by
    rw [linesOf_append]
    simp only [List.forall_mem_cons, List.forall_mem_append]
    exact ⟨by decide, oneLine_entryLines (isKey_metadataOf p) (oneLine_metadataOf h), by decide,
      oneLine_entryLines (isKey_configOf p) (oneLine_configOf h), by decide, hrules, by decide,
      h.inputLine.oneLine, by simp, by simp⟩
  exact fun line hline => hall line (List.mem_append_left _ hline)

theorem isContent_ruleTexts (h : Writable letter p input) :
    ∀ line ∈ ruleTexts letter p, Line.IsContent line := by
  intro line hline
  obtain ⟨r, hr, rfl⟩ := List.mem_map.mp hline
  exact isContent_ruleText (h.rules r hr) (h.visible r hr)

/-- The input is the one line that may be empty. -/
theorem ofLines_collect_input (h : Writable letter p input) (place : Section) (number : Nat)
    (q : Section) :
    Contents.ofLines (ContentLine.collect place
        ([headerLine "INPUT", input.toList, []].zipIdx number)) q =
      if Section.input = q then (if input = "" then [] else [input.toList]) else [] := by
  have hinput : Section.ofName "INPUT".toList = .input := by decide
  by_cases hempty : input = ""
  · subst hempty
    rw [← List.nil_append ["".toList, []],
      Contents.ofLines_collect_section "INPUT" (by simp) number, hinput]
    simp [ContentLine.collect, ContentLine.isSilent, Contents.ofLines]
  · have hcontent : ∀ raw ∈ [input.toList], Line.IsContent raw := by
      simp only [List.forall_mem_singleton]
      exact isContent_of_trimmed h.inputLine.trimmed
        (fun hnil => hempty (String.toList_eq_nil_iff.mp hnil)) h.inputVisible
    rw [← List.singleton_append (l := [[]]),
      Contents.ofLines_collect_section "INPUT" hcontent number, hinput]
    simp [ContentLine.collect, ContentLine.isSilent, Contents.ofLines, hempty,
      h.inputLine.trimmed]

theorem ofText_write (h : Writable letter p input) :
    Contents.ofText (write letter p input) = written letter p input := by
  have hmetadata : Section.ofName "METADATA".toList = .metadata := by decide
  have hconfig : Section.ofName "CONFIG".toList = .config := by decide
  have htransitions : Section.ofName "TRANSITIONS".toList = .transitions := by decide
  funext q
  rw [Contents.ofText, write, String.toList_ofList, ContentLine.ofText, Text.numberedLines,
    Text.splitOn_flatMap_lines (oneLine_linesOf h), linesOf_append,
    Contents.ofLines_collect_section "METADATA" (isContent_entryLines (isKey_metadataOf p)),
    Contents.ofLines_collect_section "CONFIG" (isContent_entryLines (isKey_configOf p)),
    Contents.ofLines_collect_section "TRANSITIONS" (isContent_ruleTexts h),
    ofLines_collect_input h, hmetadata, hconfig, htransitions]
  cases q <;> simp [written]

theorem entries_metadata (h : Writable letter p input) :
    (written letter p input).entries .metadata =
      [("name", p.name), ("description", p.description)] := by
  rw [Contents.entries, written, filterMap_entryLines (isKey_metadataOf p)]
  simp [metadataOf, h.name.trimmed, h.description.trimmed]

theorem entries_config (h : Writable letter p input) :
    (written letter p input).entries .config =
      [("initial_state", p.initial),
        ("accept_states", .ofList (Text.trim (listText p.accept))),
        ("reject_states", .ofList (Text.trim (listText p.reject))),
        ("blank_symbol", .ofList [p.blank]), ("max_steps", toString p.ceiling)] := by
  rw [Contents.entries, written, filterMap_entryLines (isKey_configOf p)]
  simp only [configOf, List.map_cons, List.map_nil, h.initial.trimmed, trim_blank h,
    (isPlain_toString p.ceiling).trimmed, String.ofList_toList]

theorem rules_written (h : Writable letter p input) :
    (written letter p input).rules = p.table.rules := by
  have hread : ∀ r ∈ p.table.rules,
      Line.rule? (written letter p input).blank (Text.trim (ruleText (letter r) r)) = some r :=
    fun r hr => rule?_ruleText (h.rules r hr) _
  rw [Contents.rules, written, ruleTexts, List.map_map, List.filterMap_map]
  exact (List.filterMap_congr hread).trans List.filterMap_some

theorem sound_entryLine {key : String} {value : List Char} (hkey : IsKey key)
    (hblank : key = "blank_symbol" → (Text.trim value).length ≤ 1)
    (hceiling : key = "max_steps" → ∃ n, 1 ≤ n ∧ n < Text.wordBound ∧
      Text.Denotes (Text.trim value) n)
    (mode : Mode) (number : Nat) (e : Error) :
    ¬ Defect mode ⟨.config, number, Text.trim (entryLine key value)⟩ e := by
  have hentry := Line.entryOf?_eq_some_iff.mp (entryOf?_entryLine hkey value)
  rw [String.toList_ofList] at hentry
  intro hdefect
  cases hdefect with
  | blank place entry long =>
      obtain ⟨hsame, rfl⟩ := entry.unique hentry
      exact absurd (hblank (String.toList_inj.mp hsame).symm) (Nat.not_le.mpr long)
  | ceiling place entry invalid =>
      obtain ⟨hsame, rfl⟩ := entry.unique hentry
      obtain ⟨n, hpos, hlt, hdenotes⟩ := hceiling (String.toList_inj.mp hsame).symm
      exact invalid n hpos hlt hdenotes
  | arrows place | shape _ place | move place | read place | write place => contradiction

theorem sound_ruleText {letter : Char} {r : Rule} (h : IsWritable letter r) (mode : Mode)
    (number : Nat) (e : Error) :
    ¬ Defect mode ⟨.transitions, number, Text.trim (ruleText letter r)⟩ e := by
  have hline : Item.ofLine mode ⟨.transitions, number, Text.trim (ruleText letter r)⟩ =
      Item.ofFields number r.state.toList [r.read] [r.write] [letter] r.next.toList :=
    Item.ofRuleLine_of_isRule (isRule_ruleText h)
  have hread : [r.read].length ≤ 1 := Nat.le_refl 1
  have hwrite : [r.write].length ≤ 1 := Nat.le_refl 1
  rw [Item.ofFields_of_short h.move hread hwrite] at hline
  exact (Defect.ofLine_eq_ok_iff.mp hline).1 e

theorem sound_config (h : Writable letter p input) :
    ∀ s ∈ written letter p input .config, ∀ mode number e,
      ¬ Defect mode ⟨.config, number, s⟩ e := by
  have hblank : ∀ entry ∈ configOf p, entry.1 = "blank_symbol" → entry.2 = [p.blank] := by
    simp [configOf]
  have hceiling : ∀ entry ∈ configOf p, entry.1 = "max_steps" →
      entry.2 = (toString p.ceiling).toList := by
    simp [configOf]
  intro s hs mode number e
  obtain ⟨line, hline, rfl⟩ := List.mem_map.mp hs
  obtain ⟨entry, hentry, rfl⟩ := List.mem_map.mp hline
  apply sound_entryLine (isKey_configOf p entry hentry)
  · intro hkey
    rw [hblank entry hentry hkey, trim_blank h]
    exact Nat.le_refl 1
  · intro hkey
    rw [hceiling entry hentry hkey, (isPlain_toString p.ceiling).trimmed]
    exact ⟨p.ceiling, h.positive, h.bounded, Text.denotes_toString p.ceiling⟩

theorem acceptable_written (h : Writable letter p input) (mode : Mode) :
    (written letter p input).Acceptable mode where
  sound := by
    intro place s hs number e hdefect
    rcases hdefect.place with hplace | hplace <;> cases hplace
    · exact sound_config h s hs mode number e hdefect
    · obtain ⟨line, hline, rfl⟩ := List.mem_map.mp hs
      obtain ⟨r, hr, rfl⟩ := List.mem_map.mp hline
      exact sound_ruleText (h.rules r hr) mode number e hdefect
  initial := by
    refine ⟨p.initial, ?_, h.named⟩
    rw [Contents.last?, entries_config h]
    simp [Keyed.last?]
  rules := by
    rw [rules_written h]
    exact h.nonempty
  distinct := by
    intro _
    rw [rules_written h]
    exact h.distinct

theorem blank_written (h : Writable letter p input) :
    (written letter p input).blank = p.blank := by
  have hlast : (written letter p input).last? .config "blank_symbol" =
      some (.ofList [p.blank]) := by
    simp [Contents.last?, entries_config h, Keyed.last?]
  rw [Contents.blank, hlast]
  simp

theorem ceiling_written (h : Writable letter p input) :
    (written letter p input).definition.program.ceiling = p.ceiling := by
  have hlast : (written letter p input).last? .config "max_steps" =
      some (toString p.ceiling) := by
    simp [Contents.last?, entries_config h, Keyed.last?]
  have hlimit : Item.readLimit? (toString p.ceiling).toList = some p.ceiling :=
    Item.readLimit?_eq_some_iff.mpr ⟨Text.denotes_toString p.ceiling, h.positive, h.bounded⟩
  simp only [Contents.definition, hlast, Option.map_some, hlimit, Option.getD_some]

theorem states_written (h : Writable letter p input) :
    (written letter p input).states "accept_states" = Sorted.ofList p.accept ∧
      (written letter p input).states "reject_states" = Sorted.ofList p.reject := by
  have haccept : (written letter p input).last? .config "accept_states" =
      some (.ofList (Text.trim (listText p.accept))) := by
    simp [Contents.last?, entries_config h, Keyed.last?]
  have hreject : (written letter p input).last? .config "reject_states" =
      some (.ofList (Text.trim (listText p.reject))) := by
    simp [Contents.last?, entries_config h, Keyed.last?]
  simp [Contents.states, haccept, hreject, listOf_listText h.accept, listOf_listText h.reject]

theorem program_written (h : Writable letter p input) :
    (written letter p input).definition.program =
      { p with accept := Sorted.ofList p.accept, reject := Sorted.ofList p.reject } := by
  have hname : (written letter p input).last? .metadata "name" = some p.name := by
    simp [Contents.last?, entries_metadata h, Keyed.last?]
  have hdescription : (written letter p input).last? .metadata "description" =
      some p.description := by
    simp [Contents.last?, entries_metadata h, Keyed.last?]
  have hinitial : (written letter p input).last? .config "initial_state" = some p.initial := by
    simp [Contents.last?, entries_config h, Keyed.last?]
  have hceiling := ceiling_written h
  obtain ⟨haccept, hreject⟩ := states_written h
  have htable : Table.ofRules (written letter p input).rules = p.table := by
    rw [rules_written h, Table.ofRules_of_nodup h.distinct]
  simp only [Contents.definition] at hceiling ⊢
  rw [hceiling, hname, hdescription, hinitial, haccept, hreject, blank_written h, htable]
  rfl

theorem input_written (h : Writable letter p input) :
    (written letter p input).definition.input = input := by
  have htrimmed : Text.trim input.toList = input.toList := h.inputLine.trimmed
  by_cases hempty : input = "" <;> simp [Contents.definition, written, hempty, htrimmed]

/-- A program that the format can express is read back from its text, in either mode: its rules in
their order, its configuration and its input. The machine has no tape. -/
theorem parse_write (h : Writable letter p input) (mode : Mode) :
    ∃ d, parse mode (write letter p input) = .ok d ∧
      d.program = { p with accept := Sorted.ofList p.accept, reject := Sorted.ofList p.reject } ∧
      d.machine = (((Machine.new p.name p.description).configure p.initial p.accept p.reject
        p.blank).setCeiling p.ceiling).setTable p.table ∧
      d.machine.tape = none ∧ d.input = input := by
  have hprogram := program_written h
  have hacceptable := acceptable_written h mode
  rw [← ofText_write h] at hacceptable
  refine ⟨_, parse_eq_ok_iff.mpr ⟨hacceptable, rfl⟩, ?_, ?_, rfl, ?_⟩
  · rw [ofText_write h, hprogram]
  · rw [machine, ofText_write h, hprogram]
    rfl
  · rw [ofText_write h, input_written h]

/-- A program with the separators of the format among its symbols, and with a state without a
name. -/
def arrowed : Program where
  name := ""
  description := "a: b"
  table := ⟨[⟨"q-", '-', '>', .right, ""⟩, ⟨"", '#', '[', .left, "q]"⟩]⟩
  initial := "q-"
  accept := ["b", "a"]
  reject := []
  blank := ':'
  ceiling := 7

def smallLetter (r : Rule) : Char :=
  Text.lowerAscii r.move.letter

theorem writable_arrowed : Writable smallLetter arrowed "x->y" where
  name := ⟨by decide, by decide⟩
  description := ⟨by decide, by decide⟩
  initial := ⟨by decide, by decide⟩
  named := by decide
  accept := by
    intro state hstate
    simp only [arrowed, List.mem_cons, List.not_mem_nil, or_false] at hstate
    rcases hstate with rfl | rfl <;> exact ⟨⟨by decide, by decide⟩, by decide, by decide⟩
  reject := by
    intro state hstate
    contradiction
  blank := by decide
  positive := by decide
  bounded := by decide
  nonempty := by decide
  distinct := by decide
  rules := by
    intro r hr
    simp only [arrowed, List.mem_cons, List.not_mem_nil, or_false] at hr
    rcases hr with rfl | rfl
    all_goals exact ⟨⟨⟨by decide, by decide⟩, by decide, by decide⟩,
      ⟨⟨by decide, by decide⟩, by decide, by decide⟩, ⟨by decide, by decide⟩,
      ⟨by decide, by decide⟩, by decide⟩
  visible := by
    intro r hr
    simp only [arrowed, List.mem_cons, List.not_mem_nil, or_false] at hr
    rcases hr with rfl | rfl <;> unfold Hidden <;> decide
  inputLine := ⟨by decide, by decide⟩
  inputVisible := by
    unfold Hidden
    decide

theorem arrowed_parse_write :
    Writable smallLetter arrowed "x->y" ∧
      ∃ d, parse .strict (write smallLetter arrowed "x->y") = .ok d ∧
        d.machine.table = arrowed.table ∧ d.machine.accept = ["a", "b"] ∧ d.input = "x->y" := by
  obtain ⟨d, hparse, hprogram, hmachine, -, hinput⟩ := parse_write writable_arrowed .strict
  have haccept : Sorted.ofList arrowed.accept = ["a", "b"] := by
    decide
  refine ⟨writable_arrowed, d, hparse, ?_, ?_, hinput⟩
  · rw [hmachine]
    rfl
  · rw [hmachine, ← haccept]
    rfl

end Definition

end TapeMachine
