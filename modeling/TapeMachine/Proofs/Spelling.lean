import TapeMachine.Command.Run
import TapeMachine.Proofs.Interleaving
import TapeMachine.Proofs.Placing
import TapeMachine.Proofs.Trimming

namespace TapeMachine

namespace Text

theorem isInfix_intercalate_of_mem {separator piece : List Char} {pieces : List (List Char)}
    (h : piece ∈ pieces) : piece <:+: separator.intercalate pieces := by
  induction pieces with
  | nil => contradiction
  | cons first rest ih =>
      cases rest with
      | nil =>
          obtain rfl := List.mem_singleton.mp h
          exact ⟨[], [], by simp⟩
      | cons next rest =>
          rw [List.intercalate_cons_cons]
          rcases List.mem_cons.mp h with rfl | h
          · rw [List.append_assoc]
            exact (List.prefix_append _ _).isInfix
          · exact (ih h).trans (List.suffix_append _ _).isInfix

theorem isInfix_of_mem_splitOn {c : Char} {s piece : List Char} (h : piece ∈ s.splitOn c) :
    piece <:+: s := by
  have hpiece : piece <:+: [c].intercalate (s.splitOn c) := isInfix_intercalate_of_mem h
  rwa [List.intercalate_splitOn] at hpiece

theorem trim_isInfix (s : List Char) : trim s <:+: s :=
  (isPrefix_strip isSpace s).isInfix.trans (List.dropWhile_suffix isSpace).isInfix

end Text

/-- A header of a section in a text: a name of the section between brackets, alone on its line. -/
def Section.HasHeader (place : Section) (source header : List Char) : Prop :=
  ∃ raw ∈ source.splitOn '\n', Text.trim raw = header ∧
    ∃ name, header = '[' :: (name ++ [']']) ∧ ofName name = place

theorem Section.HasHeader.isInfix {place : Section} {source header : List Char}
    (h : place.HasHeader source header) : header <:+: source := by
  obtain ⟨raw, hraw, rfl, -⟩ := h
  exact (Text.trim_isInfix raw).trans (Text.isInfix_of_mem_splitOn hraw)

theorem Section.exists_header_of_after {place : Section} {lines : List (List Char)}
    (h : unknown.after lines = place) (hplace : place ≠ .unknown) :
    ∃ raw ∈ lines, ∃ name, Text.trim raw = '[' :: (name ++ [']']) ∧ ofName name = place := by
  unfold after at h
  cases hlast : (lines.filterMap fun raw => Line.header? (Text.trim raw)).getLast? with
  | none =>
      rw [hlast] at h
      exact absurd h.symm hplace
  | some name =>
      rw [hlast] at h
      obtain ⟨raw, hraw, hheader⟩ := List.mem_filterMap.mp (List.mem_of_getLast? hlast)
      exact ⟨raw, hraw, name, Line.header?_eq_some_iff.mp hheader, h⟩

theorem ContentLine.StandsIn.exists_header {source : List Char} {l : ContentLine}
    (h : l.StandsIn source) (hplace : l.place ≠ .unknown) :
    ∃ header, l.place.HasHeader source header := by
  obtain ⟨before, raw, after, hsplit, -, rfl⟩ := h
  obtain ⟨opening, hopening, name, htrim, hname⟩ := Section.exists_header_of_after rfl hplace
  refine ⟨Text.trim opening, opening, ?_, rfl, name, htrim, hname⟩
  rw [hsplit]
  exact List.mem_append_left _ hopening

theorem ContentLine.StandsIn.isInfix {source : List Char} {l : ContentLine}
    (h : l.StandsIn source) : l.text <:+: source := by
  obtain ⟨raw, hraw, -, htext⟩ := h.exists_raw
  rw [htext]
  exact (Text.trim_isInfix raw).trans (Text.isInfix_of_mem_splitOn hraw)

namespace Definition

/-- A line that names the initial state. -/
structure NamesInitialAt (source : String) (l : ContentLine) : Prop where
  stands : l.StandsIn source.toList
  place : l.place = .config
  entry : ∃ value, Line.IsEntry l.text "initial_state".toList value

/-- What is missed is there, though nowhere in the spelling that is looked for. -/
inductive Misspelt (source : String) : Issue → Prop
  | config (present : ∃ header, Section.config.HasHeader source.toList header)
      (other : ∀ header, Section.config.HasHeader source.toList header →
        header ≠ "[CONFIG]".toList) :
      Misspelt source (.missingSection "[CONFIG]")
  | transitions (present : ∃ header, Section.transitions.HasHeader source.toList header)
      (other : ∀ header, Section.transitions.HasHeader source.toList header →
        header ≠ "[TRANSITIONS]".toList) :
      Misspelt source (.missingSection "[TRANSITIONS]")
  | initial (present : ∃ l, NamesInitialAt source l)
      (other : ∀ l, NamesInitialAt source l → ¬ "initial_state:".toList <+: l.text) :
      Misspelt source .missingInitialState

variable {source : String} {mode : Mode} {d : Definition}

theorem mentions_iff {word : String} :
    mentions source.toList word = true ↔ word.toList <:+: source.toList :=
  Text.occurs_iff_isInfix word.toList source.toList

theorem not_mentioned_of_mem_check {issue : Issue} (h : issue ∈ check source) :
    (issue = .missingSection "[CONFIG]" ∧ ¬ "[CONFIG]".toList <:+: source.toList) ∨
      (issue = .missingSection "[TRANSITIONS]" ∧ ¬ "[TRANSITIONS]".toList <:+: source.toList) ∨
      (issue = .missingInitialState ∧ ¬ "initial_state:".toList <:+: source.toList) := by
  have hsections : issue ∈ (requiredHeaders.filter fun header =>
      !mentions source.toList header).map Issue.missingSection ∨
      (issue = .missingInitialState ∧ mentions source.toList "initial_state:" = false) := by
    unfold check at h
    dsimp only at h
    split at h
    · rename_i hinitial
      rw [Bool.and_eq_true, Bool.not_eq_true'] at hinitial
      rcases List.mem_append.mp h with h | h
      · exact .inl h
      · exact .inr ⟨List.mem_singleton.mp h, hinitial.2⟩
    · exact .inl h
  simp only [← mentions_iff, Bool.not_eq_true]
  rcases hsections with hsections | hinitial
  · obtain ⟨header, hheader, rfl⟩ := List.mem_map.mp hsections
    obtain ⟨hrequired, hmissing⟩ := List.mem_filter.mp hheader
    rw [Bool.not_eq_true'] at hmissing
    rcases List.mem_pair.mp hrequired with rfl | rfl
    · exact .inl ⟨rfl, hmissing⟩
    · exact .inr (.inl ⟨rfl, hmissing⟩)
  · exact .inr (.inr hinitial)

theorem exists_namesInitialAt (h : parse mode source = .ok d) :
    ∃ l, NamesInitialAt source l := by
  obtain ⟨state, hlast, -⟩ := (parse_eq_ok_iff.mp h).1.initial
  obtain ⟨s, hs, hentry⟩ := Contents.isEntry_of_last? hlast
  obtain ⟨number, hmem⟩ := Contents.mem_ofLines.mp hs
  exact ⟨_, ContentLine.mem_ofText_iff.mp hmem, rfl, _, hentry⟩

theorem exists_standsIn_transitions (h : parse mode source = .ok d) :
    ∃ l : ContentLine, l.StandsIn source.toList ∧ l.place = .transitions := by
  obtain ⟨r, hr⟩ := List.exists_mem_of_ne_nil _ (parse_eq_ok_iff.mp h).1.rules
  obtain ⟨s, hs, -⟩ := List.mem_filterMap.mp hr
  obtain ⟨number, hmem⟩ := Contents.mem_ofLines.mp hs
  exact ⟨_, ContentLine.mem_ofText_iff.mp hmem, rfl⟩

theorem misspelt_of_mem_check (h : parse mode source = .ok d) {issue : Issue}
    (hissue : issue ∈ check source) : Misspelt source issue := by
  obtain ⟨initial, hinitial⟩ := exists_namesInitialAt h
  obtain ⟨rule, hstands, hplace⟩ := exists_standsIn_transitions h
  obtain ⟨rfl, hmissing⟩ | ⟨rfl, hmissing⟩ | ⟨rfl, hmissing⟩ := not_mentioned_of_mem_check hissue
  · refine .config ?_ ?_
    · have hknown : initial.place ≠ .unknown := by simp [hinitial.place]
      rw [← hinitial.place]
      exact hinitial.stands.exists_header hknown
    · rintro header hheader rfl
      exact hmissing hheader.isInfix
  · refine .transitions ?_ ?_
    · have hknown : rule.place ≠ .unknown := by simp [hplace]
      rw [← hplace]
      exact hstands.exists_header hknown
    · rintro header hheader rfl
      exact hmissing hheader.isInfix
  · refine .initial ⟨initial, hinitial⟩ ?_
    intro l hl hbegins
    exact hmissing (hbegins.isInfix.trans hl.stands.isInfix)

theorem exists_text_of_ofFile {path : String} {content : Except Fault String}
    (h : ofFile path content = .ok d) :
    ∃ text, content = .ok text ∧ parse .normal text = .ok d := by
  cases content with
  | error fault => contradiction
  | ok text =>
      refine ⟨text, rfl, ?_⟩
      rw [ofFile] at h
      split at h
      · contradiction
      · exact h

end Definition

namespace Command

variable {o : Options} {s : Supply} {d : Definition}

theorem mapError_eq_ok_iff {α β γ : Type} {f : α → β} {r : Except α γ} {c : γ} :
    r.mapError f = .ok c ↔ r = .ok c := by
  cases r <;> simp [Except.mapError]

theorem exists_of_bind_eq_ok {α β γ : Type} {r : Except α β} {f : β → Except α γ} {c : γ}
    (h : r.bind f = .ok c) : ∃ b, r = .ok b ∧ f b = .ok c := by
  cases r with
  | error e => contradiction
  | ok b => exact ⟨b, rfl, h⟩

theorem exists_sourceText_of_definition (h : definition o s = .ok d) :
    ∃ source, sourceText o s = .ok source ∧ ∃ mode, Definition.parse mode source = .ok d := by
  cases hfile : o.file with
  | some path =>
      simp only [definition, sourceText, hfile, mapError_eq_ok_iff] at h ⊢
      obtain ⟨text, htext, hparse⟩ := Definition.exists_text_of_ofFile h
      exact ⟨text, htext, .normal, hparse⟩
  | none =>
      cases hpreset : o.preset with
      | some key =>
          simp only [definition, sourceText, hfile, hpreset, mapError_eq_ok_iff] at h ⊢
          obtain ⟨preset, hget, hparse⟩ := exists_of_bind_eq_ok h
          exact ⟨preset.source, by rw [hget]; rfl, .strict, hparse⟩
      | none =>
          simp only [definition, sourceText, hfile, hpreset] at h ⊢
          obtain ⟨text, htext, hparse⟩ := exists_of_bind_eq_ok h
          exact ⟨text, htext, .normal, mapError_eq_ok_iff.mp hparse⟩

theorem respond_check {source : String} (hsource : sourceText o s = .ok source)
    (hclear : Definition.check source = []) :
    respond { o with check := true, list := false } s = ⟨0, "OK\n", ""⟩ := by
  have hkept : sourceText { o with check := true, list := false } s = .ok source := hsource
  simp only [respond, hkept, checked, hclear, if_true]
  rfl

end Command

namespace Definition

/-- The quick look finds nothing to miss in a text that can be read, except for headers and keys
that the text has in other spellings. So what can be run also passes the check, unless it is spelt
in such a way. -/
theorem check_blames_spelling :
    (∀ mode source d, parse mode source = .ok d → ∀ issue ∈ check source, Misspelt source issue) ∧
    ∀ (o : Command.Options) (s : Command.Supply) (d : Definition), Command.definition o s = .ok d →
      ∃ source, Command.sourceText o s = .ok source ∧ ((∀ issue, ¬ Misspelt source issue) →
        Command.respond { o with check := true, list := false } s = ⟨0, "OK\n", ""⟩) := by
  refine ⟨fun mode source d h issue hissue => misspelt_of_mem_check h hissue, ?_⟩
  intro o s d hd
  obtain ⟨source, hsource, mode, hparse⟩ := Command.exists_sourceText_of_definition hd
  refine ⟨source, hsource, ?_⟩
  intro hspelt
  refine Command.respond_check hsource (List.eq_nil_iff_forall_not_mem.mpr ?_)
  intro issue hissue
  exact hspelt issue (misspelt_of_mem_check hparse hissue)

/-- A text in which one header is in lower case. -/
def lowerCase : String :=
  Preset.textOf ["[config]", "initial_state: s", "[TRANSITIONS]", "s, 0 -> 0, R, s"]

theorem exists_parse_lowerCase (mode : Mode) : ∃ d, parse mode lowerCase = .ok d := by
  apply exists_ok_of_isSome
  rw [lowerCase, Preset.textOf, parse, String.toList_ofList]
  cases mode <;> decide +kernel

theorem check_lowerCase : check lowerCase = [.missingSection "[CONFIG]"] := by
  rw [lowerCase, Preset.textOf, check, String.toList_ofList]
  decide +kernel

def upperCase : String :=
  Preset.textOf ["[CONFIG]", "initial_state: s", "[TRANSITIONS]", "s, 0 -> 0, R, s"]

theorem not_misspelt_upperCase (issue : Issue) : ¬ Misspelt upperCase issue := by
  have hlines : upperCase.toList.splitOn '\n' = ["[CONFIG]".toList, "initial_state: s".toList,
      "[TRANSITIONS]".toList, "s, 0 -> 0, R, s".toList, []] := by
    rw [upperCase, Preset.textOf, String.toList_ofList]
    decide +kernel
  rintro (⟨-, hother⟩ | ⟨-, hother⟩ | ⟨-, hother⟩)
  · refine hother "[CONFIG]".toList ⟨"[CONFIG]".toList, ?_, rfl, "CONFIG".toList, rfl, rfl⟩ rfl
    simp [hlines]
  · refine hother "[TRANSITIONS]".toList
      ⟨"[TRANSITIONS]".toList, ?_, rfl, "TRANSITIONS".toList, rfl, rfl⟩ rfl
    simp [hlines]
  · refine hother ⟨.config, 2, "initial_state: s".toList⟩ ⟨?_, rfl, "s".toList,
      "initial_state".toList, " s".toList, rfl, by decide, rfl, rfl⟩ (by decide)
    refine ⟨["[CONFIG]".toList], "initial_state: s".toList, _, hlines, ?_, rfl⟩
    exact ⟨by decide, by decide, fun name hname => by injection hname; contradiction⟩

theorem upperCase_check_blames_spelling :
    Misspelt lowerCase (.missingSection "[CONFIG]") ∧
      Command.respond { check := true } ⟨.error .notFound, some (.ok upperCase)⟩ =
        ⟨0, "OK\n", ""⟩ := by
  obtain ⟨hblames, hpasses⟩ := check_blames_spelling
  constructor
  · obtain ⟨d, hparse⟩ := exists_parse_lowerCase .strict
    refine hblames .strict lowerCase d hparse _ ?_
    rw [check_lowerCase]
    exact List.mem_singleton_self _
  · have hread : (Command.definition { } ⟨.error .notFound,
        some (.ok upperCase)⟩).toOption.isSome = true := by
      rw [upperCase, Preset.textOf]
      decide +kernel
    obtain ⟨d, hdefinition⟩ := exists_ok_of_isSome hread
    obtain ⟨source, hsource, hclear⟩ := hpasses _ _ d hdefinition
    obtain rfl : upperCase = source := Except.ok.inj hsource
    exact hclear not_misspelt_upperCase

/-- A text that is not passed by the check may well make a machine that runs. -/
theorem check_misses_lowerCase :
    (∀ mode, ∃ d, parse mode lowerCase = .ok d) ∧
      check lowerCase = [.missingSection "[CONFIG]"] ∧
      (Command.respond { } ⟨.error .notFound, some (.ok lowerCase)⟩).exit = 0 ∧
      (Command.respond { check := true } ⟨.error .notFound, some (.ok lowerCase)⟩).exit = 1 := by
  refine ⟨exists_parse_lowerCase, check_lowerCase, ?_, ?_⟩
  · rw [lowerCase, Preset.textOf]
    decide +kernel
  · rw [lowerCase, Preset.textOf]
    decide +kernel

end Definition

end TapeMachine
