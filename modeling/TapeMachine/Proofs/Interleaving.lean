import TapeMachine.Catalog
import TapeMachine.Proofs.Renumbering
import TapeMachine.Proofs.Trimming

namespace TapeMachine

theorem Defect.place {mode : Mode} {l : ContentLine} {e : Error} (h : Defect mode l e) :
    l.place = .config ∨ l.place = .transitions := by
  cases h with
  | blank place | ceiling place => exact .inl place
  | arrows place | shape _ place | move place | read place | write place => exact .inr place

namespace Contents

variable {contents : Contents} {mode : Mode} {source : String}

/-- What the sections have to contain to make a definition. -/
structure Acceptable (mode : Mode) (contents : Contents) : Prop where
  sound : ∀ place, ∀ s ∈ contents place, ∀ number e, ¬ Defect mode ⟨place, number, s⟩ e
  initial : contents.NamesInitial
  rules : contents.rules ≠ []
  distinct : mode = .strict → (contents.rules.map Rule.key).Nodup

theorem sound_ofLines_iff {lines : List ContentLine} :
    (∀ place, ∀ s ∈ ofLines lines place, ∀ number e, ¬ Defect mode ⟨place, number, s⟩ e) ↔
      ∀ l ∈ lines, ∀ e, ¬ Defect mode l e := by
  constructor
  · intro h l hl e
    exact h l.place l.text (mem_ofLines.mpr ⟨l.number, hl⟩) l.number e
  · intro h place s hs number e hdefect
    obtain ⟨number', hl⟩ := mem_ofLines.mp hs
    exact h _ hl _ (hdefect.renumber fun _ => number')

theorem isEntry_of_last? {place : Section} {key value : String}
    (h : contents.last? place key = some value) :
    ∃ s ∈ contents place, Line.IsEntry s key.toList value.toList := by
  obtain ⟨entry, hlast, rfl⟩ := Option.map_eq_some_iff.mp h
  obtain ⟨hmem, rfl⟩ := Keyed.last?_eq_some hlast
  obtain ⟨s, hs, hentry⟩ := List.mem_filterMap.mp hmem
  exact ⟨s, hs, Line.entryOf?_eq_some_iff.mp hentry⟩

/-- What a definition takes from the lines of the sections: of the statements with one key the last
one, and all lines of the input. The blank stands for the symbols that are left out. -/
structure Gives (contents : Contents) (d : Definition) : Prop where
  rules : Keyed.KeepsLast Rule.key
    ((contents .transitions).filterMap (Line.rule? d.program.blank)) d.program.table.rules
  blank : contents.last? .config "blank_symbol" = some (.ofList [d.program.blank]) ∨
    ((contents.last? .config "blank_symbol" = none ∨
      contents.last? .config "blank_symbol" = some "") ∧ d.program.blank = defaultBlank)
  initial : contents.last? .config "initial_state" = some d.program.initial
  ceiling : (∃ value, contents.last? .config "max_steps" = some value ∧
      Text.Denotes value.toList d.program.ceiling) ∨
    (contents.last? .config "max_steps" = none ∧ d.program.ceiling = defaultCeiling)
  accept : d.program.accept = contents.states "accept_states"
  reject : d.program.reject = contents.states "reject_states"
  name : d.program.name = (contents.last? .metadata "name").getD Definition.defaultName
  description : d.program.description = (contents.last? .metadata "description").getD ""
  metadata : Keyed.KeepsLast Prod.fst (contents.entries .metadata) d.metadata
  alphabet : Keyed.KeepsLast Prod.fst ((contents.entries .alphabet).map fun entry =>
    (entry.1, Item.listOf entry.2.toList)) d.alphabet
  config : Keyed.KeepsLast Prod.fst ((contents.entries .config).filter isScalar) d.config
  input : d.input = String.join ((contents .input).map String.ofList)

theorem Acceptable.blank (h : contents.Acceptable mode) :
    contents.last? .config "blank_symbol" = some (.ofList [contents.blank]) ∨
      ((contents.last? .config "blank_symbol" = none ∨
        contents.last? .config "blank_symbol" = some "") ∧ contents.blank = defaultBlank) := by
  unfold Contents.blank
  cases hlast : contents.last? .config "blank_symbol" with
  | none => exact .inr ⟨.inl rfl, rfl⟩
  | some value =>
      obtain ⟨s, hs, hentry⟩ := isEntry_of_last? hlast
      have hshort : ¬ 1 < value.toList.length :=
        fun hlong => h.sound .config s hs 0 _ (.blank rfl hentry hlong)
      match hvalue : value.toList, hshort with
      | [], _ => exact .inr ⟨.inr (by rw [String.toList_eq_nil_iff.mp hvalue]), by simp [hvalue]⟩
      | [c], _ => exact .inl (by simp [hvalue, ← String.toList_inj])
      | _ :: _ :: _, hshort => simp at hshort

theorem Acceptable.exists_limit (h : contents.Acceptable mode) {value : String}
    (hlast : contents.last? .config "max_steps" = some value) :
    ∃ limit, Item.readLimit? value.toList = some limit := by
  obtain ⟨s, hs, hentry⟩ := isEntry_of_last? hlast
  cases hlimit : Item.readLimit? value.toList with
  | some limit => exact ⟨limit, rfl⟩
  | none =>
      refine absurd (Defect.ceiling rfl hentry ?_) (h.sound .config s hs 0 _)
      intro n hpos hlt hdenotes
      rw [Item.readLimit?_eq_some_iff.mpr ⟨hdenotes, hpos, hlt⟩] at hlimit
      contradiction

theorem Acceptable.ceiling (h : contents.Acceptable mode) :
    (∃ value, contents.last? .config "max_steps" = some value ∧
        Text.Denotes value.toList contents.definition.program.ceiling) ∨
      (contents.last? .config "max_steps" = none ∧
        contents.definition.program.ceiling = defaultCeiling) := by
  unfold definition
  cases hlast : contents.last? .config "max_steps" with
  | none => exact .inr ⟨rfl, rfl⟩
  | some value =>
      obtain ⟨limit, hlimit⟩ := h.exists_limit hlast
      left
      refine ⟨value, rfl, ?_⟩
      simpa [hlimit] using (Item.readLimit?_eq_some_iff.mp hlimit).1

theorem exists_raw_of_mem {place : Section} {s : List Char} (h : s ∈ ofText source place) :
    ∃ raw ∈ source.toList.splitOn '\n', Line.IsContent raw ∧ s = Text.trim raw := by
  obtain ⟨number, hl⟩ := mem_ofLines.mp h
  exact (ContentLine.mem_ofText_iff.mp hl).exists_raw

theorem toList_join_ofList (lines : List (List Char)) :
    (String.join (lines.map String.ofList)).toList = lines.flatten := by
  rw [String.toList_join, List.flatMap_map, List.flatten_eq_flatMap]
  simp

/-- The lines of the input are trimmed one by one, so trimming all of it changes nothing. -/
theorem input_definition (source : String) :
    (ofText source).definition.input =
      String.join ((ofText source .input).map String.ofList) := by
  have htrimmed : ∀ s ∈ ofText source .input, Text.trim s = s ∧ s ≠ [] := by
    intro s hs
    obtain ⟨raw, -, hcontent, rfl⟩ := exists_raw_of_mem hs
    exact ⟨Text.trim_trim raw, hcontent.not_blank⟩
  rw [definition, toList_join_ofList, Text.trim_flatten htrimmed, ← toList_join_ofList,
    String.ofList_toList]

theorem Acceptable.gives (h : (ofText source).Acceptable mode) :
    (ofText source).Gives (ofText source).definition where
  rules := Table.keepsLast_ofRules (ofText source).rules
  blank := h.blank
  initial := by
    obtain ⟨state, hstate, -⟩ := h.initial
    rw [definition, hstate]
    rfl
  ceiling := h.ceiling
  accept := rfl
  reject := rfl
  name := rfl
  description := rfl
  metadata := Keyed.keepsLast_ofList _
  alphabet := Keyed.keepsLast_ofList _
  config := Keyed.keepsLast_ofList _
  input := input_definition source

/-- The entries of the metadata that a program is titled with. -/
def isTitle (entry : String × String) : Bool :=
  entry.1 == "name" || entry.1 == "description"

section Congruence

variable {contents' : Contents}

theorem entries_congr {place : Section} (h : contents place = contents' place) :
    contents.entries place = contents'.entries place := by
  rw [entries, entries, h]

theorem last?_congr {place : Section} (h : contents place = contents' place) (key : String) :
    contents.last? place key = contents'.last? place key := by
  rw [last?, last?, entries_congr h]

theorem last?_metadata_congr
    (h : (contents.entries .metadata).filter isTitle = (contents'.entries .metadata).filter isTitle)
    (key : String) (hkey : ∀ value, isTitle (key, value) = true) :
    contents.last? .metadata key = contents'.last? .metadata key := by
  have htitle : ∀ entry : String × String, entry.1 = key → isTitle entry = true := by
    rintro ⟨_, value⟩ rfl
    exact hkey value
  rw [last?, last?, ← Keyed.last?_filter htitle, h, Keyed.last?_filter htitle]

theorem blank_congr (hconfig : contents .config = contents' .config) :
    contents.blank = contents'.blank := by
  rw [Contents.blank, Contents.blank, last?_congr hconfig]

theorem rules_congr (hconfig : contents .config = contents' .config)
    (htransitions : contents .transitions = contents' .transitions) :
    contents.rules = contents'.rules := by
  rw [Contents.rules, Contents.rules, blank_congr hconfig, htransitions]

theorem Acceptable.congr (h : contents.Acceptable mode)
    (hconfig : contents .config = contents' .config)
    (htransitions : contents .transitions = contents' .transitions) :
    contents'.Acceptable mode := by
  have hrules := rules_congr hconfig htransitions
  refine ⟨?_, ?_, hrules ▸ h.rules, hrules ▸ h.distinct⟩
  · intro place s hs number e hdefect
    rcases hdefect.place with hplace | hplace <;> cases hplace
    · exact h.sound .config s (hconfig ▸ hs) number e hdefect
    · exact h.sound .transitions s (htransitions ▸ hs) number e hdefect
  · rw [NamesInitial, ← last?_congr hconfig]
    exact h.initial

theorem program_congr (hconfig : contents .config = contents' .config)
    (htransitions : contents .transitions = contents' .transitions)
    (hmetadata : (contents.entries .metadata).filter isTitle =
      (contents'.entries .metadata).filter isTitle) :
    contents.definition.program = contents'.definition.program := by
  have hname := last?_metadata_congr hmetadata "name" fun _ => rfl
  have hdescription := last?_metadata_congr hmetadata "description" fun _ => rfl
  simp only [definition, states, rules_congr hconfig htransitions, blank_congr hconfig,
    last?_congr hconfig, hname, hdescription]

theorem definition_congr (h : ∀ place, place ≠ .unknown → contents place = contents' place) :
    contents.definition = contents'.definition := by
  have hconfig := h .config (by decide)
  have hmetadata := h .metadata (by decide)
  have hprogram := program_congr hconfig (h .transitions (by decide))
    (congrArg (List.filter isTitle) (entries_congr hmetadata))
  rw [definition, definition, Definition.mk.injEq]
  refine ⟨hprogram, ?_, ?_, ?_, ?_⟩
  · rw [h .input (by decide)]
  · rw [entries_congr hmetadata]
  · rw [entries_congr (h .alphabet (by decide))]
  · rw [entries_congr hconfig]

end Congruence

end Contents

section Outcome

variable {ε α : Type} {r : Except ε α}

theorem exists_ok_of_isSome (h : r.toOption.isSome = true) : ∃ a, r = .ok a := by
  cases r with
  | error e => contradiction
  | ok a => exact ⟨a, rfl⟩

theorem exists_ok_of_map_eq_some {β : Type} {f : α → β} {b : β}
    (h : r.toOption.map f = some b) : ∃ a, r = .ok a ∧ f a = b := by
  cases r with
  | error e => contradiction
  | ok a => exact ⟨a, rfl, Option.some.inj h⟩

end Outcome

namespace Definition

variable {mode : Mode} {source : String}

theorem parse_eq_ok_iff {d : Definition} :
    parse mode source = .ok d ↔
      (Contents.ofText source).Acceptable mode ∧ d = (Contents.ofText source).definition := by
  constructor
  · intro hok
    cases hitems : Item.ofLines mode (ContentLine.ofText source.toList) with
    | error e =>
        rw [parse_of_ofLines_error hitems] at hok
        contradiction
    | ok items =>
        obtain ⟨hsound, rfl⟩ := Item.ofLines_eq_ok_iff.mp hitems
        rw [parse_of_ofLines_ok hitems, ofItems_eq_ok_iff] at hok
        obtain ⟨hinitial, hrules, hdistinct, hd⟩ := hok
        exact ⟨⟨Contents.sound_ofLines_iff.mpr hsound, hinitial, hrules, hdistinct⟩, hd⟩
  · rintro ⟨h, rfl⟩
    have hsound := Contents.sound_ofLines_iff.mp h.sound
    rw [parse_of_ofLines_ok (Item.ofLines_eq_ok_iff.mpr ⟨hsound, rfl⟩), ofItems_eq_ok_iff]
    exact ⟨h.initial, h.rules, h.distinct, rfl⟩

/-- Two readings agree in some parts if both fail, or both make definitions with the same parts. -/
def Agree {α : Type} (parts : Definition → α) (r r' : Except Error Definition) : Prop :=
  (∃ e e', r = .error e ∧ r' = .error e') ∨ ∃ d d', r = .ok d ∧ r' = .ok d' ∧ parts d = parts d'

theorem agree_of_acceptable_iff {α : Type} {parts : Definition → α} {other : String}
    (h : (Contents.ofText source).Acceptable mode ↔ (Contents.ofText other).Acceptable mode)
    (hparts : parts (Contents.ofText source).definition =
      parts (Contents.ofText other).definition) :
    Agree parts (parse mode source) (parse mode other) := by
  cases hsource : parse mode source with
  | ok d =>
      obtain ⟨hacceptable, rfl⟩ := parse_eq_ok_iff.mp hsource
      exact .inr ⟨_, _, rfl, parse_eq_ok_iff.mpr ⟨h.mp hacceptable, rfl⟩, hparts⟩
  | error e =>
      cases hother : parse mode other with
      | ok d =>
          have hacceptable := h.mpr (parse_eq_ok_iff.mp hother).1
          rw [parse_eq_ok_iff.mpr ⟨hacceptable, rfl⟩] at hsource
          contradiction
      | error e' => exact .inl ⟨e, e', rfl, rfl⟩

/-- A text is read section by section: what it makes depends on the lines of each section, and the
machine and its input do not depend on the alphabet or on further metadata. -/
theorem parse_of_contents (mode : Mode) (source : String) :
    (∀ d, parse mode source = .ok d → (Contents.ofText source).Gives d) ∧
    (∀ other, (∀ place, place ≠ .unknown →
          Contents.ofText source place = Contents.ofText other place) →
        Agree id (parse mode source) (parse mode other)) ∧
    ∀ other, (∀ place ∈ [.config, .transitions, .input],
          Contents.ofText source place = Contents.ofText other place) →
        ((Contents.ofText source).entries .metadata).filter Contents.isTitle =
          ((Contents.ofText other).entries .metadata).filter Contents.isTitle →
        Agree (fun d => (d.machine, d.input, d.config)) (parse mode source)
          (parse mode other) := by
  refine ⟨?_, ?_, ?_⟩
  · intro d hd
    obtain ⟨hacceptable, rfl⟩ := parse_eq_ok_iff.mp hd
    exact hacceptable.gives
  · intro other hsame
    have hconfig := hsame .config (by decide)
    have htransitions := hsame .transitions (by decide)
    apply agree_of_acceptable_iff
    · exact ⟨fun h => h.congr hconfig htransitions, fun h => h.congr hconfig.symm htransitions.symm⟩
    · exact Contents.definition_congr hsame
  · intro other hsame htitle
    have hconfig := hsame .config (by decide)
    have htransitions := hsame .transitions (by decide)
    have hprogram := Contents.program_congr hconfig htransitions htitle
    apply agree_of_acceptable_iff
    · exact ⟨fun h => h.congr hconfig htransitions, fun h => h.congr hconfig.symm htransitions.symm⟩
    · have hinput : (Contents.ofText source).definition.input =
          (Contents.ofText other).definition.input := by
        rw [Contents.definition, Contents.definition, hsame .input (by decide)]
      have hsettings : (Contents.ofText source).definition.config =
          (Contents.ofText other).definition.config := by
        rw [Contents.definition, Contents.definition, Contents.entries_congr hconfig]
      rw [machine, machine, hprogram, hinput, hsettings]

/-- A text whose rules stand in two pieces, the first of them before the blank is named. -/
def piecewise : String :=
  Preset.textOf ["[Transitions]", "a,->1,r,b", "[CONFIG]", "blank_symbol:x",
    "initial_state:a", "[transitions]", "b,1->,L,c"]

def regrouped : String :=
  Preset.textOf ["stray", "[config]", "blank_symbol:x", "initial_state:a", "[transitions]",
    "a,->1,r,b", "b,1->,L,c"]

def annotated : String :=
  Preset.textOf ["[metadata]", "by:x", "[config]", "blank_symbol:x", "initial_state:a",
    "[transitions]", "a,->1,r,b", "b,1->,L,c"]

theorem piecewise_parse_of_contents :
    (∃ d, parse .normal piecewise = .ok d ∧ (Contents.ofText piecewise).Gives d) ∧
      Agree id (parse .normal piecewise) (parse .normal regrouped) ∧
      Agree (fun d => (d.machine, d.input, d.config)) (parse .normal piecewise)
        (parse .normal annotated) := by
  obtain ⟨hgives, hagree, htitled⟩ := parse_of_contents .normal piecewise
  have hregrouped : ∀ place ∈ [Section.metadata, .config, .alphabet, .transitions, .input],
      Contents.ofText piecewise place = Contents.ofText regrouped place := by
    rw [piecewise, regrouped, Preset.textOf, Preset.textOf, Contents.ofText, Contents.ofText,
      String.toList_ofList, String.toList_ofList]
    decide +kernel
  have hannotated : (∀ place ∈ [Section.config, .transitions, .input],
        Contents.ofText piecewise place = Contents.ofText annotated place) ∧
      ((Contents.ofText piecewise).entries .metadata).filter Contents.isTitle =
        ((Contents.ofText annotated).entries .metadata).filter Contents.isTitle := by
    rw [piecewise, annotated, Preset.textOf, Preset.textOf, Contents.ofText, Contents.ofText,
      String.toList_ofList, String.toList_ofList]
    decide +kernel
  have hread : (parse .normal piecewise).toOption.isSome = true := by
    rw [piecewise, Preset.textOf, parse, String.toList_ofList]
    decide +kernel
  refine ⟨?_, hagree regrouped ?_, htitled annotated hannotated.1 hannotated.2⟩
  · cases hparse : parse .normal piecewise with
    | ok d => exact ⟨d, rfl, hgives d hparse⟩
    | error e =>
        rw [hparse] at hread
        exact absurd hread Bool.false_ne_true
  · intro place hplace
    apply hregrouped
    cases place with
    | unknown => exact absurd rfl hplace
    | _ => decide

end Definition

end TapeMachine
