import TapeMachine.Catalog
import TapeMachine.Proofs.Contents
import TapeMachine.Proofs.Placing

namespace TapeMachine

namespace ContentLine

def ruleLine? (l : ContentLine) : Option RuleLine :=
  if l.place = .transitions then RuleLine.ofText? l.number l.text else none

theorem filterMap_items_rule? (lines : List ContentLine) :
    (lines.flatMap items).filterMap Item.rule? = lines.filterMap ruleLine? := by
  have hline : ∀ l : ContentLine, l.items.filterMap Item.rule? = l.ruleLine?.toList := by
    intro l
    by_cases hplace : l.place = .transitions
    · simp only [items, ruleLine?, hplace, List.filterMap_map, if_true]
      cases RuleLine.ofText? l.number l.text <;> rfl
    · rw [ruleLine?, if_neg hplace, Option.toList_none, List.filterMap_eq_nil_iff]
      intro item hitem
      have hne : item.place ≠ .transitions := place_of_mem_items hitem ▸ hplace
      cases item <;> first | rfl | exact absurd rfl hne
  rw [List.filterMap_flatMap, funext hline, ← List.filterMap_eq_flatMap_toList]

theorem mem_before_iff {source : List Char} {before after : List ContentLine} {l : ContentLine}
    (h : ofText source = before ++ l :: after) {other : ContentLine} :
    other ∈ before ↔ other.StandsIn source ∧ other.number < l.number := by
  have hsorted := ofText_pairwise source
  rw [h, List.pairwise_append, List.pairwise_cons] at hsorted
  obtain ⟨-, ⟨hafter, -⟩, hbefore⟩ := hsorted
  rw [← mem_ofText_iff, h, List.mem_append, List.mem_cons]
  constructor
  · intro hother
    exact ⟨.inl hother, hbefore other hother l List.mem_cons_self⟩
  · rintro ⟨hother | rfl | hother, hlt⟩
    · exact hother
    · exact absurd hlt (Nat.lt_irrefl _)
    · exact absurd hlt (Nat.lt_asymm (hafter other hother))

end ContentLine

theorem Contents.not_namesInitial_iff {contents : Contents} :
    ¬ contents.NamesInitial ↔ contents.last? .config "initial_state" = none ∨
      contents.last? .config "initial_state" = some "" := by
  rw [NamesInitial]
  cases contents.last? .config "initial_state" <;> simp

namespace Definition

variable {mode : Mode} {source : String} {e : Error}

def ruleLines (source : String) : List RuleLine :=
  (ContentLine.ofText source.toList).filterMap ContentLine.ruleLine?

/-- The first line of a text that has a defect. -/
structure FirstDefect (mode : Mode) (source : String) (l : ContentLine) (e : Error) : Prop where
  stands : l.StandsIn source.toList
  defect : Defect mode l e
  first : ∀ earlier : ContentLine, earlier.StandsIn source.toList → earlier.number < l.number →
    ∀ e', ¬ Defect mode earlier e'

def Sound (mode : Mode) (source : String) : Prop :=
  ∀ l : ContentLine, l.StandsIn source.toList → ∀ e, ¬ Defect mode l e

inductive Refusal (mode : Mode) (source : String) : Error → Prop
  | line {l : ContentLine} {e : Error} (first : FirstDefect mode source l e) :
      Refusal mode source e
  | initial (sound : Sound mode source)
      (unnamed : (Contents.ofText source).last? .config "initial_state" = none ∨
        (Contents.ofText source).last? .config "initial_state" = some "") :
      Refusal mode source .missingInitialState
  | rules (sound : Sound mode source) (named : (Contents.ofText source).NamesInitial)
      (empty : ruleLines source = []) :
      Refusal mode source .noRules
  | key {l : RuleLine} (sound : Sound mode source)
      (named : (Contents.ofText source).NamesInitial) (strict : mode = .strict)
      (repeated : l.FirstRepeat (Contents.ofText source).blank (ruleLines source)) :
      Refusal mode source
        (.duplicateRule l.state (l.rule (Contents.ofText source).blank).read (some l.line))

theorem ofLines_eq_error_iff_firstDefect :
    Item.ofLines mode (ContentLine.ofText source.toList) = .error e ↔
      ∃ l, FirstDefect mode source l e := by
  rw [Item.ofLines_eq_error_iff]
  constructor
  · rintro ⟨before, l, after, happend, hbefore, hl⟩
    refine ⟨l, ContentLine.mem_ofText_iff.mp (by simp [happend]), hl, ?_⟩
    intro earlier hstands hlt
    exact hbefore earlier ((ContentLine.mem_before_iff happend).mpr ⟨hstands, hlt⟩)
  · rintro ⟨l, hstands, hl, hfirst⟩
    obtain ⟨before, after, happend⟩ := List.append_of_mem (ContentLine.mem_ofText_iff.mpr hstands)
    refine ⟨before, l, after, happend, ?_, hl⟩
    intro earlier hearlier
    obtain ⟨hearlier, hlt⟩ := (ContentLine.mem_before_iff happend).mp hearlier
    exact hfirst earlier hearlier hlt

theorem ofLines_eq_ok_iff_sound {items : List Item} :
    Item.ofLines mode (ContentLine.ofText source.toList) = .ok items ↔ Sound mode source ∧
      items = (ContentLine.ofText source.toList).flatMap ContentLine.items := by
  rw [Item.ofLines_eq_ok_iff, Sound]
  simp only [ContentLine.mem_ofText_iff]

theorem ofItems_eq_error_iff_refused :
    ofItems mode ((ContentLine.ofText source.toList).flatMap ContentLine.items) = .error e ↔
      (((Contents.ofText source).last? .config "initial_state" = none ∨
          (Contents.ofText source).last? .config "initial_state" = some "") ∧
        e = .missingInitialState) ∨
      ((Contents.ofText source).NamesInitial ∧ ((ruleLines source = [] ∧ e = .noRules) ∨
        (mode = .strict ∧ ∃ l : RuleLine,
          l.FirstRepeat (Contents.ofText source).blank (ruleLines source) ∧
          e = .duplicateRule l.state (l.rule (Contents.ofText source).blank).read
            (some l.line)))) := by
  rw [ofItems_eq_error_iff, Contents.not_namesInitial_iff, ContentLine.filterMap_items_rule?,
    tableOf_eq_error_iff]
  rfl

theorem parse_eq_error_iff : parse mode source = .error e ↔ Refusal mode source e := by
  constructor
  · intro herror
    cases hitems : Item.ofLines mode (ContentLine.ofText source.toList) with
    | error e' =>
        obtain ⟨l, hfirst⟩ := ofLines_eq_error_iff_firstDefect.mp hitems
        rw [parse_of_ofLines_error hitems] at herror
        obtain rfl := Except.error.inj herror
        exact .line hfirst
    | ok items =>
        obtain ⟨hsound, rfl⟩ := ofLines_eq_ok_iff_sound.mp hitems
        rw [parse_of_ofLines_ok hitems, ofItems_eq_error_iff_refused] at herror
        rcases herror with ⟨hunnamed, rfl⟩ | ⟨hnamed, ⟨hempty, rfl⟩ | ⟨hstrict, l, hrepeat, rfl⟩⟩
        · exact .initial hsound hunnamed
        · exact .rules hsound hnamed hempty
        · exact .key hsound hnamed hstrict hrepeat
  · have hend : Sound mode source → parse mode source =
        ofItems mode ((ContentLine.ofText source.toList).flatMap ContentLine.items) :=
      fun hsound => parse_of_ofLines_ok (ofLines_eq_ok_iff_sound.mpr ⟨hsound, rfl⟩)
    rintro (@⟨l, _, hfirst⟩ | ⟨hsound, hunnamed⟩ | ⟨hsound, hnamed, hempty⟩ |
      ⟨hsound, hnamed, hstrict, hrepeat⟩)
    · exact parse_of_ofLines_error (ofLines_eq_error_iff_firstDefect.mpr ⟨l, hfirst⟩)
    · rw [hend hsound, ofItems_eq_error_iff_refused]
      exact .inl ⟨hunnamed, rfl⟩
    · rw [hend hsound, ofItems_eq_error_iff_refused]
      exact .inr ⟨hnamed, .inl ⟨hempty, rfl⟩⟩
    · rw [hend hsound, ofItems_eq_error_iff_refused]
      exact .inr ⟨hnamed, .inr ⟨hstrict, _, hrepeat, rfl⟩⟩

/-- If a line has a defect then the first such line is reported. Otherwise the initial state is
looked at, then whether there are rules, and in strict mode whether a key repeats. -/
theorem parse_refused (mode : Mode) (source : String) :
    ((∃ l e, l.StandsIn source.toList ∧ Defect mode l e) →
      ∃ l e, FirstDefect mode source l e ∧ parse mode source = .error e) ∧
    (Sound mode source → (parse mode source = .error .missingInitialState ↔
      (Contents.ofText source).last? .config "initial_state" = none ∨
        (Contents.ofText source).last? .config "initial_state" = some "")) ∧
    ∀ e, parse mode source = .error e ↔ Refusal mode source e := by
  refine ⟨?_, ?_, fun e => parse_eq_error_iff⟩
  · rintro ⟨l, e, hstands, hdefect⟩
    cases hitems : Item.ofLines mode (ContentLine.ofText source.toList) with
    | error e' =>
        obtain ⟨first, hfirst⟩ := ofLines_eq_error_iff_firstDefect.mp hitems
        exact ⟨first, e', hfirst, parse_of_ofLines_error hitems⟩
    | ok items => exact absurd hdefect ((ofLines_eq_ok_iff_sound.mp hitems).1 l hstands e)
  · intro hsound
    rw [parse_of_ofLines_ok (ofLines_eq_ok_iff_sound.mpr ⟨hsound, rfl⟩),
      ofItems_eq_error_iff_refused]
    simp

def flawed : String :=
  Preset.textOf ["[transitions]", "a,->1,X,b", "[config]", "blank_symbol:xy"]

/-- A text that does not name its initial state, nor a rule. -/
def unnamed : String :=
  Preset.textOf ["[config]", "initial_state:", "[transitions]"]

theorem flawed_parse_refused :
    (∃ l e, FirstDefect .normal flawed l e ∧ parse .normal flawed = .error e) ∧
      parse .normal flawed = .error (.invalidMove "X" (some 2)) ∧
      parse .normal unnamed = .error .missingInitialState := by
  have hblank : ContentLine.StandsIn flawed.toList ⟨.config, 4, "blank_symbol:xy".toList⟩ := by
    rw [← ContentLine.mem_ofText_iff, flawed, Preset.textOf, String.toList_ofList]
    decide +kernel
  have hentry : Line.IsEntry "blank_symbol:xy".toList "blank_symbol".toList "xy".toList :=
    Line.keyValue?_eq_some_iff.mp (by decide +kernel)
  obtain ⟨l, e, hfirst, herror⟩ :=
    (parse_refused .normal flawed).1 ⟨_, _, hblank, .blank rfl hentry (by decide +kernel)⟩
  have hmove : parse .normal flawed = .error (.invalidMove "X" (some 2)) := by
    rw [flawed, Preset.textOf, parse, String.toList_ofList]
    decide +kernel
  have hsound : Sound .normal unnamed := by
    have hlines : Item.ofLines .normal (ContentLine.ofText unnamed.toList) =
        .ok [.setting "initial_state" ""] := by
      rw [unnamed, Preset.textOf, String.toList_ofList]
      decide +kernel
    exact (ofLines_eq_ok_iff_sound.mp hlines).1
  have hempty : (Contents.ofText unnamed).last? .config "initial_state" = some "" := by
    rw [unnamed, Preset.textOf, Contents.ofText, String.toList_ofList]
    decide +kernel
  exact ⟨⟨l, e, hfirst, herror⟩, hmove,
    ((parse_refused .normal unnamed).2.1 hsound).mpr (.inr hempty)⟩

end Definition

end TapeMachine
