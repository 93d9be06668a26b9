import TapeMachine.Definition.Section
import TapeMachine.Proofs.Splitting

namespace TapeMachine

/-- The section that is open behind some lines where `place` is open before them: that of the last
header among them. -/
def Section.after (place : Section) (lines : List (List Char)) : Section :=
  ((lines.filterMap fun raw => Line.header? (Text.trim raw)).getLast?).elim place Section.ofName

theorem Section.after_of_header {raw name : List Char}
    (h : Line.header? (Text.trim raw) = some name) (place : Section) :
    place.after [raw] = .ofName name := by
  simp only [after, List.filterMap_cons, h, List.filterMap_nil, List.getLast?_singleton]
  rfl

theorem Section.after_of_no_header {raw : List Char} (h : Line.header? (Text.trim raw) = none)
    (place : Section) : place.after [raw] = place := by
  simp only [after, List.filterMap_cons, h]
  rfl

theorem Section.after_cons (place : Section) (raw : List Char) (lines : List (List Char)) :
    place.after (raw :: lines) = (place.after [raw]).after lines := by
  cases hheader : Line.header? (Text.trim raw) with
  | none =>
      rw [after_of_no_header hheader]
      simp only [after, List.filterMap_cons, hheader]
  | some name =>
      rw [after_of_header hheader]
      simp only [after, List.filterMap_cons, hheader, List.getLast?_cons]
      cases (lines.filterMap fun raw => Line.header? (Text.trim raw)).getLast? <;> rfl

namespace Line

/-- A line that is no blank one, no comment and no header. -/
structure IsContent (raw : List Char) : Prop where
  not_blank : Text.trim raw ≠ []
  not_comment : (Text.trim raw).head? ≠ some '#'
  not_header : ∀ name, Text.trim raw ≠ '[' :: (name ++ [']'])

theorem isSilent_iff {text : List Char} :
    ContentLine.isSilent text = true ↔ text = [] ∨ text.head? = some '#' := by
  simp [ContentLine.isSilent]

theorem header?_of_isSilent {text : List Char} (h : ContentLine.isSilent text = true) :
    header? text = none := by
  rw [Option.eq_none_iff_forall_ne_some]
  intro name hname
  rw [header?_eq_some_iff.mp hname] at h
  contradiction

theorem isContent_iff {raw : List Char} :
    IsContent raw ↔
      ContentLine.isSilent (Text.trim raw) = false ∧ header? (Text.trim raw) = none := by
  rw [← Bool.not_eq_true, isSilent_iff, not_or, Option.eq_none_iff_forall_ne_some]
  simp only [ne_eq, header?_eq_some_iff]
  constructor
  · rintro ⟨hblank, hcomment, hheader⟩
    exact ⟨⟨hblank, hcomment⟩, hheader⟩
  · rintro ⟨⟨hblank, hcomment⟩, hheader⟩
    exact ⟨hblank, hcomment, hheader⟩

end Line

namespace ContentLine

/-- A content line of a text: a trimmed line with its number and with the section that is open
where it stands. -/
def StandsIn (source : List Char) (l : ContentLine) : Prop :=
  ∃ before raw after, source.splitOn '\n' = before ++ raw :: after ∧ Line.IsContent raw ∧
    l = ⟨Section.unknown.after before, before.length + 1, Text.trim raw⟩

section Collect

variable {place : Section} {raw : List Char} {number : Nat} {rest : List (List Char × Nat)}

theorem collect_cons_of_isContent (h : Line.IsContent raw) :
    collect place ((raw, number) :: rest) =
      ⟨place, number, Text.trim raw⟩ :: collect place rest := by
  obtain ⟨hsilent, hheader⟩ := Line.isContent_iff.mp h
  simp only [collect, hsilent, hheader]
  rfl

theorem collect_cons_of_not_isContent (h : ¬ Line.IsContent raw) :
    collect place ((raw, number) :: rest) = collect (place.after [raw]) rest := by
  cases hsilent : isSilent (Text.trim raw) with
  | true =>
      rw [Section.after_of_no_header (Line.header?_of_isSilent hsilent)]
      simp only [collect, hsilent, if_true]
  | false =>
      cases hheader : Line.header? (Text.trim raw) with
      | none => exact absurd (Line.isContent_iff.mpr ⟨hsilent, hheader⟩) h
      | some name =>
          rw [Section.after_of_header hheader]
          simp only [collect, hsilent, hheader]
          rfl

theorem collect_cons_of_header {name : List Char} (h : Line.header? (Text.trim raw) = some name) :
    collect place ((raw, number) :: rest) = collect (.ofName name) rest := by
  have hnot : ¬ Line.IsContent raw := by
    intro hcontent
    rw [(Line.isContent_iff.mp hcontent).2] at h
    contradiction
  rw [collect_cons_of_not_isContent hnot, Section.after_of_header h]

theorem after_of_isContent (h : Line.IsContent raw) : place.after [raw] = place :=
  Section.after_of_no_header (Line.isContent_iff.mp h).2 place

end Collect

theorem collect_append (place : Section) (lines more : List (List Char))
    (number : Nat) :
    collect place ((lines ++ more).zipIdx number) = collect place (lines.zipIdx number) ++
      collect (place.after lines) (more.zipIdx (number + lines.length)) := by
  induction lines generalizing place number with
  | nil => rfl
  | cons raw lines ih =>
      have hnumber : number + (raw :: lines).length = number + 1 + lines.length := by
        rw [List.length_cons]
        omega
      rw [List.cons_append, List.zipIdx_cons, List.zipIdx_cons, Section.after_cons, hnumber]
      by_cases hraw : Line.IsContent raw
      · rw [collect_cons_of_isContent hraw, collect_cons_of_isContent hraw, ih,
          after_of_isContent hraw]
        rfl
      · rw [collect_cons_of_not_isContent hraw, collect_cons_of_not_isContent hraw, ih]

theorem mem_collect_iff {place : Section} {number : Nat} {lines : List (List Char)}
    {l : ContentLine} :
    l ∈ collect place (lines.zipIdx number) ↔
      ∃ before raw after, lines = before ++ raw :: after ∧ Line.IsContent raw ∧
        l = ⟨place.after before, before.length + number, Text.trim raw⟩ := by
  induction lines generalizing place number with
  | nil => simp [collect]
  | cons raw lines ih =>
      have hshift : ∀ before : List (List Char),
          (raw :: before).length + number = before.length + (number + 1) := by
        intro before
        rw [List.length_cons]
        omega
      obtain ⟨next, hnext⟩ : ∃ next, place.after [raw] = next := ⟨_, rfl⟩
      have hafter : ∀ before, place.after (raw :: before) = next.after before := by
        intro before
        rw [Section.after_cons, hnext]
      rw [List.zipIdx_cons, exists_eq_append_cons_iff]
      simp only [hshift, hafter]
      by_cases hraw : Line.IsContent raw
      · obtain rfl : place = next := (after_of_isContent hraw).symm.trans hnext
        rw [collect_cons_of_isContent hraw, List.mem_cons, ih]
        simp only [hraw, true_and, List.length_nil, Nat.zero_add]
        rfl
      · rw [collect_cons_of_not_isContent hraw, hnext, ih]
        simp only [hraw, false_and, false_or]

theorem mem_ofText_iff {source : List Char} {l : ContentLine} :
    l ∈ ofText source ↔ l.StandsIn source :=
  mem_collect_iff

theorem StandsIn.exists_raw {source : List Char} {l : ContentLine} (h : l.StandsIn source) :
    ∃ raw ∈ source.splitOn '\n', Line.IsContent raw ∧ l.text = Text.trim raw := by
  obtain ⟨before, raw, after, hlines, hcontent, rfl⟩ := h
  refine ⟨raw, ?_, hcontent, rfl⟩
  rw [hlines]
  exact List.mem_append_right _ List.mem_cons_self

theorem collect_pairwise (place : Section) (number : Nat) (lines : List (List Char)) :
    (collect place (lines.zipIdx number)).Pairwise fun l l' => l.number < l'.number := by
  induction lines generalizing place number with
  | nil => exact List.Pairwise.nil
  | cons raw lines ih =>
      rw [List.zipIdx_cons]
      by_cases hraw : Line.IsContent raw
      · rw [collect_cons_of_isContent hraw, List.pairwise_cons]
        refine ⟨?_, ih place (number + 1)⟩
        intro l hl
        obtain ⟨before, _, _, _, _, rfl⟩ := mem_collect_iff.mp hl
        show number < before.length + (number + 1)
        omega
      · rw [collect_cons_of_not_isContent hraw]
        exact ih (place.after [raw]) (number + 1)

theorem ofText_pairwise (source : List Char) :
    (ofText source).Pairwise fun l l' => l.number < l'.number :=
  collect_pairwise .unknown 1 _

end ContentLine

end TapeMachine
