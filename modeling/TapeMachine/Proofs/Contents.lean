import TapeMachine.Proofs.Reading

namespace TapeMachine

/-- The lines of each section, those of all its pieces together. -/
abbrev Contents : Type :=
  Section → List (List Char)

/-- The rule that a line holds, if it has the shape of one and names a move, once the blank is
known. -/
def Line.rule? (blank : Char) (s : List Char) : Option Rule :=
  (RuleLine.ofText? 0 s).map (RuleLine.rule · blank)

theorem RuleLine.map_rule_ofText? (blank : Char) (number : Nat) (s : List Char) :
    (ofText? number s).map (RuleLine.rule · blank) = Line.rule? blank s := by
  unfold Line.rule? ofText?
  split
  · rw [Option.map_map, Option.map_map]
    rfl
  · rfl

namespace Contents

def ofLines (lines : List ContentLine) : Contents := fun place =>
  (lines.filter fun l => l.place = place).map ContentLine.text

def ofText (source : String) : Contents :=
  ofLines (ContentLine.ofText source.toList)

theorem mem_ofLines {lines : List ContentLine} {place : Section} {s : List Char} :
    s ∈ ofLines lines place ↔ ∃ number, ⟨place, number, s⟩ ∈ lines := by
  simp only [ofLines, List.mem_map, List.mem_filter, decide_eq_true_iff]
  constructor
  · rintro ⟨l, ⟨hl, rfl⟩, rfl⟩
    exact ⟨l.number, hl⟩
  · rintro ⟨number, hl⟩
    exact ⟨_, ⟨hl, rfl⟩, rfl⟩

def entries (contents : Contents) (place : Section) : List (String × String) :=
  (contents place).filterMap Line.entryOf?

def last? (contents : Contents) (place : Section) (key : String) : Option String :=
  (Keyed.last? Prod.fst key (contents.entries place)).map Prod.snd

end Contents

/-- The section whose lines make statements of this kind. -/
def Item.place : Item → Section
  | .metadata .. => .metadata
  | .accept .. | .reject .. | .blank .. | .ceiling .. | .setting .. => .config
  | .alphabet .. => .alphabet
  | .rule .. => .transitions
  | .input .. => .input

theorem Item.place_of_mem_ofConfig {item : Item} {key value : String}
    (h : item ∈ ofConfig key value) : item.place = .config := by
  unfold ofConfig at h
  split at h
  · obtain rfl := List.mem_singleton.mp h
    rfl
  split at h
  · obtain rfl := List.mem_singleton.mp h
    rfl
  split at h
  · rcases List.mem_pair.mp h with rfl | rfl <;> rfl
  split at h
  · rcases List.mem_pair.mp h with rfl | rfl <;> rfl
  · obtain rfl := List.mem_singleton.mp h
    rfl

theorem ContentLine.place_of_mem_items {item : Item} {l : ContentLine} (h : item ∈ l.items) :
    item.place = l.place := by
  unfold items at h
  split at h
  · obtain ⟨entry, -, rfl⟩ := List.mem_map.mp h
    simp [Item.place, *]
  · obtain ⟨entry, -, hitem⟩ := List.mem_flatMap.mp h
    simp [Item.place_of_mem_ofConfig hitem, *]
  · obtain ⟨entry, -, rfl⟩ := List.mem_map.mp h
    simp [Item.place, *]
  · obtain ⟨line, -, rfl⟩ := List.mem_map.mp h
    simp [Item.place, *]
  · obtain rfl := List.mem_singleton.mp h
    simp [Item.place, *]
  · contradiction

namespace Contents

section Picking

variable {α : Type} {pick? : Item → Option α} {place : Section}

/-- What is picked of the items of lines is found in the lines of one section if the items of the
others are not picked. -/
theorem filterMap_items (found : List Char → List α)
    (hpick : ∀ item a, pick? item = some a → item.place = place)
    (hfound : ∀ l : ContentLine, l.place = place → l.items.filterMap pick? = found l.text)
    (lines : List ContentLine) :
    (lines.flatMap ContentLine.items).filterMap pick? = (ofLines lines place).flatMap found := by
  unfold ofLines
  induction lines with
  | nil => rfl
  | cons l lines ih =>
      rw [List.flatMap_cons, List.filterMap_append, ih]
      by_cases hl : l.place = place
      · simp [hl, hfound l hl]
      · have hnone : l.items.filterMap pick? = [] := by
          rw [List.filterMap_eq_nil_iff]
          intro item hitem
          rw [Option.eq_none_iff_forall_ne_some]
          intro a ha
          exact hl (ContentLine.place_of_mem_items hitem ▸ hpick item a ha)
        simp [hl, hnone]

theorem filterMap_items_entries (found : String × String → List α)
    (hpick : ∀ item a, pick? item = some a → item.place = place)
    (hfound : ∀ l : ContentLine, l.place = place →
      l.items.filterMap pick? = (Line.entryOf? l.text).toList.flatMap found)
    (lines : List ContentLine) :
    (lines.flatMap ContentLine.items).filterMap pick? =
      ((ofLines lines).entries place).flatMap found := by
  rw [filterMap_items (fun s => (Line.entryOf? s).toList.flatMap found) hpick hfound, entries,
    List.filterMap_eq_flatMap_toList, List.flatMap_assoc]

theorem filterMap_items_config
    (hpick : ∀ item a, pick? item = some a → item.place = .config) (lines : List ContentLine) :
    (lines.flatMap ContentLine.items).filterMap pick? =
      ((ofLines lines).entries .config).flatMap
        fun entry => (Item.ofConfig entry.1 entry.2).filterMap pick? := by
  apply filterMap_items_entries _ hpick
  intro l hl
  simp only [ContentLine.items, hl, List.filterMap_flatMap]

theorem lastOf_items_config {key : String} {said : String → α}
    (hpick : ∀ item a, pick? item = some a → item.place = .config)
    (hconfig : ∀ entry : String × String, (Item.ofConfig entry.1 entry.2).filterMap pick? =
      (if entry.1 = key then some (said entry.2) else none).toList)
    (lines : List ContentLine) :
    Definition.lastOf pick? (lines.flatMap ContentLine.items) =
      ((ofLines lines).last? .config key).map said := by
  rw [Definition.lastOf, filterMap_items_config hpick, last?, Option.map_map, funext hconfig,
    ← List.filterMap_eq_flatMap_toList, Keyed.getLast?_filterMap]
  rfl

end Picking

variable (lines : List ContentLine)

theorem lastOf_accept? :
    Definition.lastOf Item.accept? (lines.flatMap ContentLine.items) =
      ((ofLines lines).last? .config "accept_states").map fun value =>
        Item.listOf value.toList := by
  apply lastOf_items_config
  · intro item a h
    cases item <;> first | rfl | contradiction
  · intro entry
    unfold Item.ofConfig
    split_ifs <;> simp [Item.accept?]

theorem lastOf_reject? :
    Definition.lastOf Item.reject? (lines.flatMap ContentLine.items) =
      ((ofLines lines).last? .config "reject_states").map fun value =>
        Item.listOf value.toList := by
  apply lastOf_items_config
  · intro item a h
    cases item <;> first | rfl | contradiction
  · intro entry
    unfold Item.ofConfig
    split_ifs <;> simp_all [Item.reject?]

theorem lastOf_blank? :
    Definition.lastOf Item.blank? (lines.flatMap ContentLine.items) =
      ((ofLines lines).last? .config "blank_symbol").map fun value => value.toList.head? := by
  apply lastOf_items_config
  · intro item a h
    cases item <;> first | rfl | contradiction
  · intro entry
    unfold Item.ofConfig
    split_ifs <;> simp_all [Item.blank?]

theorem lastOf_limit? :
    Definition.lastOf Item.limit? (lines.flatMap ContentLine.items) =
      ((ofLines lines).last? .config "max_steps").map fun value =>
        (Item.readLimit? value.toList).getD 0 := by
  apply lastOf_items_config
  · intro item a h
    cases item <;> first | rfl | contradiction
  · intro entry
    unfold Item.ofConfig
    split_ifs <;> simp_all [Item.limit?]

/-- The lists of states are no settings. -/
def isScalar (entry : String × String) : Bool :=
  entry.1 != "accept_states" && entry.1 != "reject_states"

theorem filterMap_setting? :
    (lines.flatMap ContentLine.items).filterMap Item.setting? =
      ((ofLines lines).entries .config).filter isScalar := by
  have hconfig : ∀ entry : String × String,
      (Item.ofConfig entry.1 entry.2).filterMap Item.setting? =
        (if isScalar entry then some entry else none).toList := by
    rintro ⟨key, value⟩
    unfold Item.ofConfig isScalar
    split_ifs <;> simp_all [Item.setting?, List.filterMap_cons]
  have hpick : ∀ item entry, Item.setting? item = some entry → item.place = .config := by
    intro item entry h
    cases item <;> first | rfl | contradiction
  rw [filterMap_items_config hpick, funext hconfig, ← List.filterMap_eq_flatMap_toList,
    ← List.filterMap_eq_filter]
  rfl

theorem filterMap_metadata? :
    (lines.flatMap ContentLine.items).filterMap Item.metadata? =
      (ofLines lines).entries .metadata := by
  have hpick : ∀ item entry, Item.metadata? item = some entry → item.place = .metadata := by
    intro item entry h
    cases item <;> first | rfl | contradiction
  rw [filterMap_items_entries (fun entry => [entry]) hpick, List.flatMap_singleton']
  intro l hl
  simp only [ContentLine.items, hl, List.filterMap_map, List.flatMap_singleton']
  exact List.filterMap_some

theorem filterMap_alphabet? :
    (lines.flatMap ContentLine.items).filterMap Item.alphabet? =
      ((ofLines lines).entries .alphabet).map fun entry =>
        (entry.1, Item.listOf entry.2.toList) := by
  have hpick : ∀ item entry, Item.alphabet? item = some entry → item.place = .alphabet := by
    intro item entry h
    cases item <;> first | rfl | contradiction
  rw [filterMap_items_entries (fun entry => [(entry.1, Item.listOf entry.2.toList)]) hpick,
    List.map_eq_flatMap]
  intro l hl
  simp only [ContentLine.items, hl, List.filterMap_map, ← List.map_eq_flatMap]
  exact congrFun List.filterMap_eq_map _

theorem filterMap_input? :
    (lines.flatMap ContentLine.items).filterMap Item.input? =
      (ofLines lines .input).map String.ofList := by
  have hpick : ∀ item text, Item.input? item = some text → item.place = .input := by
    intro item text h
    cases item <;> first | rfl | contradiction
  rw [filterMap_items (fun s => [String.ofList s]) hpick, List.map_eq_flatMap]
  intro l hl
  simp only [ContentLine.items, hl]
  rfl

theorem filterMap_rule? (blank : Char) :
    ((lines.flatMap ContentLine.items).filterMap Item.rule?).map (RuleLine.rule · blank) =
      (ofLines lines .transitions).filterMap (Line.rule? blank) := by
  have hpick : ∀ item r, (Item.rule? item).map (RuleLine.rule · blank) = some r →
      item.place = .transitions := by
    intro item r h
    cases item <;> first | rfl | contradiction
  rw [List.map_filterMap, filterMap_items (fun s => (Line.rule? blank s).toList) hpick,
    List.filterMap_eq_flatMap_toList]
  intro l hl
  simp only [ContentLine.items, hl, List.filterMap_map]
  rw [← RuleLine.map_rule_ofText? blank l.number]
  cases RuleLine.ofText? l.number l.text <;> rfl

variable (contents : Contents)

/-- The blank, wherever it is named: the rules before its entry use it as well. -/
def blank : Char :=
  ((contents.last? .config "blank_symbol").bind fun value => value.toList.head?).getD defaultBlank

def rules : List Rule :=
  (contents .transitions).filterMap (Line.rule? contents.blank)

def states (key : String) : List String :=
  Sorted.ofList (((contents.last? .config key).map fun value => Item.listOf value.toList).getD [])

def definition : Definition where
  program := {
    name := (contents.last? .metadata "name").getD Definition.defaultName
    description := (contents.last? .metadata "description").getD ""
    table := .ofRules contents.rules
    initial := (contents.last? .config "initial_state").getD ""
    accept := contents.states "accept_states"
    reject := contents.states "reject_states"
    blank := contents.blank
    ceiling := ((contents.last? .config "max_steps").map fun value =>
      (Item.readLimit? value.toList).getD 0).getD defaultCeiling }
  input := .ofList (Text.trim (String.join ((contents .input).map String.ofList)).toList)
  metadata := Keyed.ofList Prod.fst (contents.entries .metadata)
  alphabet := Keyed.ofList Prod.fst ((contents.entries .alphabet).map fun entry =>
    (entry.1, Item.listOf entry.2.toList))
  config := Keyed.ofList Prod.fst ((contents.entries .config).filter isScalar)

def NamesInitial : Prop :=
  ∃ state, contents.last? .config "initial_state" = some state ∧ state ≠ ""

end Contents

namespace Definition

variable (lines : List ContentLine)

theorem valueOf?_ofList (key : String) (entries : List (String × String)) :
    valueOf? key (Keyed.ofList Prod.fst entries) =
      (Keyed.last? Prod.fst key entries).map Prod.snd := by
  rw [valueOf?, (Keyed.keepsLast_ofList entries).last]

theorem valueOf?_metadata (key : String) :
    valueOf? key (entriesOf Item.metadata? (lines.flatMap ContentLine.items)) =
      (Contents.ofLines lines).last? .metadata key := by
  rw [entriesOf, Contents.filterMap_metadata?, valueOf?_ofList]
  rfl

theorem valueOf?_config {key : String} (h : ∀ value, Contents.isScalar (key, value) = true) :
    valueOf? key (entriesOf Item.setting? (lines.flatMap ContentLine.items)) =
      (Contents.ofLines lines).last? .config key := by
  rw [entriesOf, Contents.filterMap_setting?, valueOf?_ofList, Keyed.last?_filter]
  · rfl
  · rintro ⟨_, value⟩ rfl
    exact h value

theorem blankOf_items :
    blankOf (lines.flatMap ContentLine.items) = (Contents.ofLines lines).blank := by
  rw [blankOf, Contents.lastOf_blank?, Contents.blank]
  cases (Contents.ofLines lines).last? .config "blank_symbol" <;> rfl

variable {lines} {mode : Mode}

theorem initialOf_items_eq_ok_iff {state : String} :
    initialOf (entriesOf Item.setting? (lines.flatMap ContentLine.items)) = .ok state ↔
      (Contents.ofLines lines).last? .config "initial_state" = some state ∧ state ≠ "" := by
  rw [initialOf_eq_ok_iff, valueOf?_config lines fun _ => rfl]

theorem initialOf_items_eq_error_iff {e : Error} :
    initialOf (entriesOf Item.setting? (lines.flatMap ContentLine.items)) = .error e ↔
      ¬ (Contents.ofLines lines).NamesInitial ∧ e = .missingInitialState := by
  rw [initialOf_eq_error_iff, valueOf?_config lines fun _ => rfl, Contents.NamesInitial]
  cases (Contents.ofLines lines).last? .config "initial_state" <;> simp

theorem ofItems_of_initialOf_error {items : List Item} {e : Error}
    (h : initialOf (entriesOf Item.setting? items) = .error e) :
    ofItems mode items = .error e := by
  simp only [ofItems, h]
  rfl

theorem ofItems_of_tableOf_error {items : List Item} {state : String} {e : Error}
    (hinitial : initialOf (entriesOf Item.setting? items) = .ok state)
    (h : tableOf mode (blankOf items) (items.filterMap Item.rule?) = .error e) :
    ofItems mode items = .error e := by
  simp only [ofItems, hinitial, h]
  rfl

theorem ofItems_of_tableOf_ok {state : String} {table : Table}
    (hinitial : initialOf (entriesOf Item.setting? (lines.flatMap ContentLine.items)) = .ok state)
    (h : tableOf mode (blankOf (lines.flatMap ContentLine.items))
      ((lines.flatMap ContentLine.items).filterMap Item.rule?) = .ok table) :
    ofItems mode (lines.flatMap ContentLine.items) = .ok (Contents.ofLines lines).definition := by
  have hstate := (initialOf_items_eq_ok_iff.mp hinitial).1
  have htable := (tableOf_eq_ok_iff.mp h).2.2
  rw [Contents.filterMap_rule?, blankOf_items] at htable
  simp only [ofItems, hinitial, h, htable]
  simp only [valueOf?_metadata, blankOf_items]
  simp only [Contents.lastOf_accept?, Contents.lastOf_reject?, Contents.lastOf_limit?, entriesOf,
    Contents.filterMap_metadata?, Contents.filterMap_alphabet?, Contents.filterMap_setting?,
    Contents.filterMap_input?]
  simp only [Contents.definition, Contents.states, Contents.rules, hstate]
  rfl

theorem ofItems_eq_ok_iff {d : Definition} :
    ofItems mode (lines.flatMap ContentLine.items) = .ok d ↔
      (Contents.ofLines lines).NamesInitial ∧ (Contents.ofLines lines).rules ≠ [] ∧
        (mode = .strict → ((Contents.ofLines lines).rules.map Rule.key).Nodup) ∧
        d = (Contents.ofLines lines).definition := by
  have hrules := Contents.filterMap_rule? lines (Contents.ofLines lines).blank
  have hkeys : (Contents.ofLines lines).rules.map Rule.key =
      ((lines.flatMap ContentLine.items).filterMap Item.rule?).map
        (RuleLine.key (Contents.ofLines lines).blank) := by
    rw [Contents.rules, ← hrules, List.map_map]
    rfl
  have hempty : (Contents.ofLines lines).rules = [] ↔
      (lines.flatMap ContentLine.items).filterMap Item.rule? = [] := by
    rw [Contents.rules, ← hrules, List.map_eq_nil_iff]
  rw [hkeys, ne_eq, hempty, ← blankOf_items]
  constructor
  · intro hok
    cases hinitial : initialOf (entriesOf Item.setting? (lines.flatMap ContentLine.items)) with
    | error e =>
        rw [ofItems_of_initialOf_error hinitial] at hok
        contradiction
    | ok state =>
        cases htable : tableOf mode (blankOf (lines.flatMap ContentLine.items))
          ((lines.flatMap ContentLine.items).filterMap Item.rule?) with
        | error e =>
            rw [ofItems_of_tableOf_error hinitial htable] at hok
            contradiction
        | ok table =>
            obtain ⟨hne, hnodup, -⟩ := tableOf_eq_ok_iff.mp htable
            rw [ofItems_of_tableOf_ok hinitial htable] at hok
            exact ⟨⟨state, initialOf_items_eq_ok_iff.mp hinitial⟩, hne, hnodup,
              (Except.ok.inj hok).symm⟩
  · rintro ⟨⟨state, hstate⟩, hne, hnodup, rfl⟩
    exact ofItems_of_tableOf_ok (initialOf_items_eq_ok_iff.mpr hstate)
      (tableOf_eq_ok_iff.mpr ⟨hne, hnodup, rfl⟩)

theorem ofItems_eq_error_iff {e : Error} :
    ofItems mode (lines.flatMap ContentLine.items) = .error e ↔
      (¬ (Contents.ofLines lines).NamesInitial ∧ e = .missingInitialState) ∨
      ((Contents.ofLines lines).NamesInitial ∧ tableOf mode (Contents.ofLines lines).blank
        ((lines.flatMap ContentLine.items).filterMap Item.rule?) = .error e) := by
  rw [← initialOf_items_eq_error_iff, ← blankOf_items]
  constructor
  · intro herror
    cases hinitial : initialOf (entriesOf Item.setting? (lines.flatMap ContentLine.items)) with
    | error e' =>
        rw [ofItems_of_initialOf_error hinitial] at herror
        obtain rfl := Except.error.inj herror
        exact .inl rfl
    | ok state =>
        cases htable : tableOf mode (blankOf (lines.flatMap ContentLine.items))
          ((lines.flatMap ContentLine.items).filterMap Item.rule?) with
        | error e' =>
            rw [ofItems_of_tableOf_error hinitial htable] at herror
            obtain rfl := Except.error.inj herror
            exact .inr ⟨⟨state, initialOf_items_eq_ok_iff.mp hinitial⟩, rfl⟩
        | ok table =>
            rw [ofItems_of_tableOf_ok hinitial htable] at herror
            contradiction
  · rintro (hinitial | ⟨⟨state, hstate⟩, htable⟩)
    · exact ofItems_of_initialOf_error hinitial
    · exact ofItems_of_tableOf_error (initialOf_items_eq_ok_iff.mpr hstate) htable

theorem parse_of_ofLines_ok {source : String} {items : List Item}
    (h : Item.ofLines mode (ContentLine.ofText source.toList) = .ok items) :
    parse mode source = ofItems mode items := by
  rw [parse, ofChars, h]
  rfl

theorem parse_of_ofLines_error {source : String} {e : Error}
    (h : Item.ofLines mode (ContentLine.ofText source.toList) = .error e) :
    parse mode source = .error e := by
  rw [parse, ofChars, h]
  rfl

end Definition

end TapeMachine
