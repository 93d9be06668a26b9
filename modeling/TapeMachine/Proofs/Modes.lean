import TapeMachine.Definition.Load
import TapeMachine.Proofs.Interleaving
import TapeMachine.Proofs.Placing

namespace TapeMachine

namespace Line

/-- A line with one arrow, before which there are two fields and behind which there are three. -/
def HasRuleShape (s : List Char) : Prop :=
  ∃ lhs rhs, s = lhs ++ '-' :: '>' :: rhs ∧ ¬ Text.arrow <:+: lhs ∧ ¬ Text.arrow <:+: rhs ∧
    (lhs.splitOn ',').length = 2 ∧ (rhs.splitOn ',').length = 3

variable {s : List Char}

theorem length_commaFields (s : List Char) :
    (Text.commaFields s).length = (s.splitOn ',').length :=
  List.length_map _

theorem plainSides_of_arrow {lhs rhs : List Char} (hlhs : ¬ Text.arrow <:+: lhs)
    (hrhs : ¬ Text.arrow <:+: rhs) :
    plainSides (lhs ++ '-' :: '>' :: rhs) = [Text.commaFields lhs, Text.commaFields rhs] := by
  rw [plainSides, Text.splitArrows_append, Text.splitArrows_of_noArrow hlhs,
    Text.splitArrows_of_noArrow hrhs]
  rfl

theorem hasRuleShape_iff :
    HasRuleShape s ↔ ∃ state read write move next, IsRule s state read write move next := by
  constructor
  · rintro ⟨lhs, rhs, rfl, hlhs, hrhs, htwo, hthree⟩
    rw [← length_commaFields, List.length_eq_two] at htwo
    rw [← length_commaFields, List.length_eq_three] at hthree
    obtain ⟨state, read, hleft⟩ := htwo
    obtain ⟨write, move, next, hright⟩ := hthree
    refine ⟨state, read, write, move, next, ?_⟩
    rw [IsRule, plainSides_of_arrow hlhs hrhs, hleft, hright]
  · rintro ⟨state, read, write, move, next, hrule⟩
    rcases Text.noArrow_or_first_arrow s with hnone | ⟨lhs, rhs, rfl, hlhs⟩
    · rw [IsRule, plainSides, Text.splitArrows_of_noArrow hnone] at hrule
      simp at hrule
    · rcases Text.noArrow_or_first_arrow rhs with hrhs | ⟨middle, last, rfl, -⟩
      · rw [IsRule, plainSides_of_arrow hlhs hrhs] at hrule
        obtain ⟨hleft, hright⟩ : Text.commaFields lhs = [state, read] ∧
            Text.commaFields rhs = [write, move, next] := by simpa using hrule
        refine ⟨lhs, rhs, rfl, hlhs, hrhs, ?_, ?_⟩
        · rw [← length_commaFields, hleft]
          rfl
        · rw [← length_commaFields, hright]
          rfl
      · -- A second arrow makes a third side.
        have hthree := Text.two_lt_length_splitArrows_iff.mpr ⟨lhs, middle, last, rfl⟩
        have htwo := congrArg List.length hrule
        rw [plainSides, List.length_map] at htwo
        rw [htwo] at hthree
        exact absurd hthree (Nat.lt_irrefl 2)

end Line

namespace Defect

variable {l : ContentLine} {e : Error}

theorem strict (h : Defect .normal l e) : Defect .strict l e := by
  cases h with
  | blank place entry long => exact .blank place entry long
  | ceiling place entry invalid => exact .ceiling place entry invalid
  | arrows place text => exact .arrows place text
  | shape strict => contradiction
  | move place rule unknown => exact .move place rule unknown
  | read place rule known long => exact .read place rule known long
  | write place rule known short long => exact .write place rule known short long

theorem normal_or_shapeless (h : Defect .strict l e) :
    Defect .normal l e ∨ (l.place = .transitions ∧ ¬ Line.HasRuleShape l.text) := by
  cases h with
  | blank place entry long => exact .inl (.blank place entry long)
  | ceiling place entry invalid => exact .inl (.ceiling place entry invalid)
  | arrows place text => exact .inl (.arrows place text)
  | shape _ place shapeless =>
      refine .inr ⟨place, ?_⟩
      rw [Line.hasRuleShape_iff]
      rintro ⟨state, read, write, move, next, hrule⟩
      exact shapeless state read write move next hrule
  | move place rule unknown => exact .inl (.move place rule unknown)
  | read place rule known long => exact .inl (.read place rule known long)
  | write place rule known short long => exact .inl (.write place rule known short long)

theorem none_strict_iff :
    (∀ e, ¬ Defect .strict l e) ↔
      (∀ e, ¬ Defect .normal l e) ∧ (l.place = .transitions → Line.HasRuleShape l.text) := by
  constructor
  · intro hnone
    refine ⟨fun e hdefect => hnone e hdefect.strict, ?_⟩
    intro place
    by_contra hshape
    refine hnone _ (.shape rfl place ?_)
    intro state read write move next hrule
    exact hshape (Line.hasRuleShape_iff.mpr ⟨state, read, write, move, next, hrule⟩)
  · rintro ⟨hnormal, hshape⟩ e hdefect
    rcases hdefect.normal_or_shapeless with hdefect | ⟨place, hshapeless⟩
    · exact hnormal e hdefect
    · exact hshapeless (hshape place)

end Defect

namespace Contents

variable {contents : Contents}

theorem acceptable_strict_iff :
    contents.Acceptable .strict ↔ contents.Acceptable .normal ∧
      (∀ s ∈ contents .transitions, Line.HasRuleShape s) ∧
      (contents.rules.map Rule.key).Nodup := by
  constructor
  · intro h
    have hnone : ∀ place, ∀ s ∈ contents place, ∀ number,
        ∀ e, ¬ Defect .strict ⟨place, number, s⟩ e := h.sound
    simp only [Defect.none_strict_iff] at hnone
    exact ⟨⟨fun place s hs number => (hnone place s hs number).1, h.initial, h.rules,
      fun hmode => by contradiction⟩, fun s hs => (hnone .transitions s hs 0).2 rfl, h.distinct rfl⟩
  · rintro ⟨h, hshape, hdistinct⟩
    refine ⟨?_, h.initial, h.rules, fun _ => hdistinct⟩
    intro place s hs number
    refine Defect.none_strict_iff.mpr ⟨h.sound place s hs number, ?_⟩
    intro hplace
    exact hshape s (hplace ▸ hs)

theorem forall_mem_ofText_iff {source : String} {place : Section} {P : List Char → Prop} :
    (∀ s ∈ ofText source place, P s) ↔
      ∀ l : ContentLine, l.StandsIn source.toList → l.place = place → P l.text := by
  simp only [ofText, mem_ofLines, ContentLine.mem_ofText_iff]
  constructor
  · rintro h l hstands rfl
    exact h l.text ⟨l.number, hstands⟩
  · rintro h s ⟨number, hstands⟩
    exact h _ hstands rfl

end Contents

namespace Preset

theorem utf8ByteSize_textOf (lines : List String) :
    (textOf lines).utf8ByteSize = lines.foldr (fun line n => line.utf8ByteSize + 1 + n) 0 := by
  induction lines with
  | nil => rfl
  | cons line lines ih =>
      have htext : textOf (line :: lines) = line ++ "\n" ++ textOf lines := by
        simp [textOf, String.ofList_append, String.append_assoc]
      rw [htext, String.utf8ByteSize_append, String.utf8ByteSize_append, ih]
      rfl

end Preset

namespace Catalog

theorem utf8ByteSize_sources :
    ∀ entry ∈ sources, (Preset.textOf entry.2).utf8ByteSize ≤ maxDefinitionSize := by
  simp only [sources, List.forall_mem_cons, Preset.utf8ByteSize_textOf]
  decide +kernel

theorem exists_of_mem_presets {preset : Preset} (h : preset ∈ presets) :
    (∃ entry ∈ sources, preset.key = entry.1 ∧ preset.source = Preset.textOf entry.2) ∧
      ∃ d, preset.definition = .ok d := by
  obtain ⟨⟨key, lines⟩, hentry, hread⟩ := List.mem_filterMap.mp h
  cases hparse : Definition.parse .strict (Preset.textOf lines) with
  | error e => simp [Preset.ofSource, hparse, bind, Except.bind, Except.toOption] at hread
  | ok d =>
      simp only [Preset.ofSource, hparse] at hread
      obtain rfl := Option.some.inj hread
      exact ⟨⟨_, hentry, rfl, rfl⟩, d, hparse⟩

theorem utf8ByteSize_preset {preset : Preset} (h : preset ∈ presets) :
    preset.source.utf8ByteSize ≤ maxDefinitionSize := by
  obtain ⟨⟨entry, hentry, -, hsource⟩, -⟩ := exists_of_mem_presets h
  rw [hsource]
  exact utf8ByteSize_sources entry hentry

end Catalog

namespace Definition

variable {source : String} {d : Definition}

theorem parse_strict_eq_ok_iff :
    parse .strict source = .ok d ↔ parse .normal source = .ok d ∧
      (∀ l : ContentLine, l.StandsIn source.toList → l.place = .transitions →
        Line.HasRuleShape l.text) ∧
      (((Contents.ofText source .transitions).filterMap
        (Line.rule? d.program.blank)).map Rule.key).Nodup := by
  rw [parse_eq_ok_iff, parse_eq_ok_iff, Contents.acceptable_strict_iff,
    ← Contents.forall_mem_ofText_iff]
  constructor
  · rintro ⟨⟨hnormal, hshape, hdistinct⟩, rfl⟩
    exact ⟨⟨hnormal, rfl⟩, hshape, hdistinct⟩
  · rintro ⟨⟨hnormal, rfl⟩, hshape, hdistinct⟩
    exact ⟨⟨hnormal, hshape, hdistinct⟩, rfl⟩

theorem parse_normal_of_strict (h : parse .strict source = .ok d) : parse .normal source = .ok d :=
  (parse_strict_eq_ok_iff.mp h).1

theorem load_of_readText {root : FileTree} {path : String}
    (hread : root.readText path = .ok source) (hsize : source.utf8ByteSize ≤ maxDefinitionSize) :
    load root path = parse .normal source := by
  rw [load, hread, ofFile]
  exact if_neg (Nat.not_lt.mpr hsize)

/-- Strict mode reads what normal mode reads from those texts whose rule lines have the shape of a
rule and distinct keys, and it refuses all others. So the text of a preset gives the same definition
when it is loaded from a file. -/
theorem strict_narrows_normal :
    (∀ source d, parse .strict source = .ok d ↔ parse .normal source = .ok d ∧
      (∀ l : ContentLine, l.StandsIn source.toList → l.place = .transitions →
        Line.HasRuleShape l.text) ∧
      (((Contents.ofText source .transitions).filterMap
        (Line.rule? d.program.blank)).map Rule.key).Nodup) ∧
    (∀ source e, parse .normal source = .error e → ∃ e', parse .strict source = .error e') ∧
    ∀ preset ∈ Catalog.presets, ∃ d, preset.definition = .ok d ∧
      ∀ (root : FileTree) (path : String), root.readText path = .ok preset.source →
        load root path = .ok d := by
  refine ⟨fun source d => parse_strict_eq_ok_iff, ?_, ?_⟩
  · intro source e herror
    cases hstrict : parse .strict source with
    | error e' => exact ⟨e', rfl⟩
    | ok d =>
        rw [parse_normal_of_strict hstrict] at herror
        contradiction
  · intro preset hpreset
    obtain ⟨-, d, hd⟩ := Catalog.exists_of_mem_presets hpreset
    refine ⟨d, hd, ?_⟩
    intro root path hread
    rw [load_of_readText hread (Catalog.utf8ByteSize_preset hpreset)]
    exact parse_normal_of_strict hd

/-- A text with two rules whose keys are the same once the blank is known. -/
def colliding : String :=
  Preset.textOf ["[transitions]", "a,->1,R,b", "a,x->1,L,a", "[config]", "initial_state:a",
    "blank_symbol:x"]

theorem colliding_strict_narrows_normal :
    (∃ d, parse .normal colliding = .ok d ∧ parse .strict colliding ≠ .ok d) ∧
      (∃ e, parse .strict "" = .error e) ∧
      ∃ preset ∈ Catalog.presets, ∃ d, preset.definition = .ok d ∧
        load (.directory [("m.tm", .file preset.source.toUTF8)]) "m.tm" = .ok d := by
  obtain ⟨hstrict, hrefused, hpresets⟩ := strict_narrows_normal
  refine ⟨?_, hrefused "" .missingInitialState rfl, ?_⟩
  · have hblank : (parse .normal colliding).toOption.map (·.program.blank) = some 'x' := by
      rw [colliding, Preset.textOf, parse, String.toList_ofList]
      decide +kernel
    have hkeys : ((Contents.ofText colliding .transitions).filterMap (Line.rule? 'x')).map
        Rule.key = [("a", 'x'), ("a", 'x')] := by
      rw [colliding, Preset.textOf, Contents.ofText, String.toList_ofList]
      decide +kernel
    obtain ⟨d, hparse, hx⟩ := exists_ok_of_map_eq_some hblank
    refine ⟨d, hparse, ?_⟩
    intro hstrictly
    have hdistinct := ((hstrict colliding d).mp hstrictly).2.2
    rw [hx, hkeys] at hdistinct
    exact absurd hdistinct (by decide)
  · have hread : (Preset.ofSource "unary_addition"
        (Preset.textOf Catalog.unaryAddition)).toOption.isSome = true := by
      rw [Preset.textOf, Preset.ofSource, parse, String.toList_ofList]
      decide +kernel
    obtain ⟨preset, hpreset⟩ := Option.isSome_iff_exists.mp hread
    have hmem : preset ∈ Catalog.presets :=
      List.mem_filterMap.mpr
        ⟨("unary_addition", Catalog.unaryAddition), .tail _ (.tail _ (.head _)), hpreset⟩
    obtain ⟨d, hd, hload⟩ := hpresets preset hmem
    exact ⟨preset, hmem, d, hd, hload _ "m.tm" (FileTree.decode_toUTF8 preset.source)⟩

end Definition

end TapeMachine
