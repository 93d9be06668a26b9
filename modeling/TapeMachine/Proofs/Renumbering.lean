import TapeMachine.Proofs.Contents
import TapeMachine.Proofs.Placing

namespace TapeMachine

variable {mode : Mode} (f : Nat → Nat)

/-- An error at the line that its own one becomes. -/
def Error.renumber : Error → Error
  | .invalidMove token line => .invalidMove token (line.map f)
  | .malformedRule line text => .malformedRule (f line) text
  | .invalidSymbol text line => .invalidSymbol text (f line)
  | .duplicateRule state symbol line => .duplicateRule state symbol (line.map f)
  | e => e

def ContentLine.renumber (l : ContentLine) : ContentLine :=
  { l with number := f l.number }

def RuleLine.renumber (l : RuleLine) : RuleLine :=
  { l with line := f l.line }

def Item.renumber : Item → Item
  | .rule l => .rule (l.renumber f)
  | item => item

theorem Error.renumber_renumber (g : Nat → Nat) (e : Error) :
    (e.renumber f).renumber g = e.renumber fun n => g (f n) := by
  cases e <;> simp only [renumber, Option.map_map] <;> rfl

theorem Error.renumber_id (e : Error) : (e.renumber fun n => n) = e := by
  cases e <;> simp [renumber]

theorem Defect.renumber {l : ContentLine} {e : Error} (h : Defect mode l e) :
    Defect mode (l.renumber f) (e.renumber f) := by
  cases h with
  | blank place entry long => exact .blank place entry long
  | ceiling place entry invalid => exact .ceiling place entry invalid
  | arrows place text => exact .arrows place text
  | shape strict place shapeless => exact .shape strict place shapeless
  | move place rule unknown => exact .move place rule unknown
  | read place rule known long => exact .read place rule known long
  | write place rule known short long => exact .write place rule known short long

theorem RuleLine.ofText?_renumber (number : Nat) (s : List Char) :
    ofText? (f number) s = (ofText? number s).map (renumber f) := by
  unfold ofText?
  split
  · rw [Option.map_map]
    rfl
  · rfl

namespace Item

theorem map_renumber_ofConfig (key value : String) :
    (ofConfig key value).map (renumber f) = ofConfig key value := by
  unfold ofConfig
  split_ifs <;> rfl

theorem items_renumber (l : ContentLine) :
    (l.renumber f).items = l.items.map (renumber f) := by
  obtain ⟨place, number, text⟩ := l
  cases place with
  | metadata =>
      simp only [ContentLine.items, ContentLine.renumber]
      cases Line.entryOf? text <;> rfl
  | config =>
      simp only [ContentLine.items, ContentLine.renumber, List.map_flatMap]
      cases Line.entryOf? text with
      | none => rfl
      | some entry => simp [map_renumber_ofConfig]
  | alphabet =>
      simp only [ContentLine.items, ContentLine.renumber]
      cases Line.entryOf? text <;> rfl
  | transitions =>
      simp only [ContentLine.items, ContentLine.renumber, RuleLine.ofText?_renumber]
      cases RuleLine.ofText? number text <;> rfl
  | input => rfl
  | unknown => rfl

theorem ofLine_renumber (l : ContentLine) :
    ofLine mode (l.renumber f) =
      ((ofLine mode l).mapError (Error.renumber f)).map (List.map (renumber f)) := by
  rcases Defect.or_ofLine mode l with ⟨e, hdefect⟩ | hok
  · rw [hdefect.ofLine, (hdefect.renumber f).ofLine]
    rfl
  · have hnone : ∀ e, ¬ Defect mode (l.renumber f) e := by
      intro e hdefect
      exact (Defect.ofLine_eq_ok_iff.mp hok).1 _ (hdefect.renumber fun _ => l.number)
    rw [hok, Defect.ofLine_eq_ok_iff.mpr ⟨hnone, rfl⟩, items_renumber]
    rfl

theorem ofLines_renumber (lines : List ContentLine) :
    ofLines mode (lines.map (ContentLine.renumber f)) =
      ((ofLines mode lines).mapError (Error.renumber f)).map (List.map (renumber f)) := by
  induction lines with
  | nil => rfl
  | cons l lines ih =>
      rw [List.map_cons, ofLines_cons, ofLines_cons, ofLine_renumber, ih]
      cases ofLine mode l with
      | error e => rfl
      | ok items =>
          cases ofLines mode lines with
          | error e => rfl
          | ok rest => exact congrArg Except.ok List.map_append.symm

theorem filterMap_renumber {α : Type} (pick? : Item → Option α) (h : ∀ l, pick? (.rule l) = none)
    (items : List Item) : (items.map (renumber f)).filterMap pick? = items.filterMap pick? := by
  have hpick : ∀ item, pick? (renumber f item) = pick? item := by
    intro item
    cases item with
    | rule l => exact (h _).trans (h l).symm
    | _ => rfl
  rw [List.filterMap_map]
  exact congrArg (List.filterMap · items) (funext hpick)

theorem filterMap_rule?_renumber (items : List Item) :
    (items.map (renumber f)).filterMap rule? =
      (items.filterMap rule?).map (RuleLine.renumber f) := by
  rw [List.filterMap_map, List.map_filterMap]
  congr 1
  funext item
  cases item <;> rfl

end Item

namespace Definition

theorem insertLine_renumber (blank : Char) (t : Table) (l : RuleLine) :
    insertLine mode blank t (l.renumber f) =
      (insertLine mode blank t l).mapError (Error.renumber f) := by
  cases mode with
  | normal => rfl
  | strict =>
      by_cases hkey : l.key blank ∈ t.keys
      · rw [insertLine_strict_of_mem hkey]
        exact insertLine_strict_of_mem hkey
      · rw [insertLine_strict_of_not_mem hkey]
        exact insertLine_strict_of_not_mem hkey

theorem insertLines_renumber (blank : Char) (lines : List RuleLine) (t : Table) :
    (lines.map (RuleLine.renumber f)).foldlM (insertLine mode blank) t =
      (lines.foldlM (insertLine mode blank) t).mapError (Error.renumber f) := by
  induction lines generalizing t with
  | nil => rfl
  | cons l lines ih =>
      rw [List.map_cons, List.foldlM_cons, List.foldlM_cons, insertLine_renumber]
      cases insertLine mode blank t l with
      | error e => rfl
      | ok t' => exact ih t'

theorem tableOf_renumber (blank : Char) (lines : List RuleLine) :
    tableOf mode blank (lines.map (RuleLine.renumber f)) =
      (tableOf mode blank lines).mapError (Error.renumber f) := by
  cases lines with
  | nil => rfl
  | cons l lines => exact insertLines_renumber f blank (l :: lines) .empty

theorem ofItems_renumber (items : List Item) :
    ofItems mode (items.map (Item.renumber f)) =
      (ofItems mode items).mapError (Error.renumber f) := by
  have hmetadata := Item.filterMap_renumber f Item.metadata? (fun _ => rfl) items
  have haccept := Item.filterMap_renumber f Item.accept? (fun _ => rfl) items
  have hreject := Item.filterMap_renumber f Item.reject? (fun _ => rfl) items
  have hblank := Item.filterMap_renumber f Item.blank? (fun _ => rfl) items
  have hlimit := Item.filterMap_renumber f Item.limit? (fun _ => rfl) items
  have hsetting := Item.filterMap_renumber f Item.setting? (fun _ => rfl) items
  have halphabet := Item.filterMap_renumber f Item.alphabet? (fun _ => rfl) items
  have hinput := Item.filterMap_renumber f Item.input? (fun _ => rfl) items
  simp only [ofItems, entriesOf, lastOf, blankOf, hmetadata, haccept, hreject, hblank, hlimit,
    hsetting, halphabet, hinput, Item.filterMap_rule?_renumber, tableOf_renumber]
  cases hinitial : initialOf (Keyed.ofList Prod.fst (items.filterMap Item.setting?)) with
  | error e =>
      obtain ⟨-, rfl⟩ := initialOf_eq_error_iff.mp hinitial
      rfl
  | ok initial =>
      cases tableOf mode _ (items.filterMap Item.rule?) <;> rfl

/-- Texts whose content lines say the same under other numbers are read alike, except that an error
has the other number. -/
theorem parse_renumber {source source' : String}
    (h : Item.ofLines mode (ContentLine.ofText source'.toList) =
      Item.ofLines mode ((ContentLine.ofText source.toList).map (ContentLine.renumber f))) :
    parse mode source' = (parse mode source).mapError (Error.renumber f) := by
  rw [Item.ofLines_renumber] at h
  cases hitems : Item.ofLines mode (ContentLine.ofText source.toList) with
  | error e =>
      rw [hitems] at h
      rw [parse_of_ofLines_error h, parse_of_ofLines_error hitems]
      rfl
  | ok items =>
      rw [hitems] at h
      rw [parse_of_ofLines_ok h, parse_of_ofLines_ok hitems, ofItems_renumber]

end Definition

theorem ContentLine.collect_renumber {place : Section} {lines : List (List Char)}
    {number number' : Nat} (h : ∀ i < lines.length, f (i + number) = i + number') :
    collect place (lines.zipIdx number') =
      (collect place (lines.zipIdx number)).map (renumber f) := by
  induction lines generalizing place number number' with
  | nil => rfl
  | cons raw lines ih =>
      have hfirst : f number = number' := by
        simpa using h 0 (Nat.zero_lt_succ _)
      have hrest : ∀ i < lines.length, f (i + (number + 1)) = i + (number' + 1) := by
        intro i hi
        have hnext := h (i + 1) (Nat.succ_lt_succ hi)
        rwa [Nat.add_assoc, Nat.add_comm 1, Nat.add_assoc, Nat.add_comm 1] at hnext
      rw [List.zipIdx_cons, List.zipIdx_cons]
      by_cases hraw : Line.IsContent raw
      · rw [collect_cons_of_isContent hraw, collect_cons_of_isContent hraw, ih hrest, ← hfirst]
        rfl
      · rw [collect_cons_of_not_isContent hraw, collect_cons_of_not_isContent hraw, ih hrest]

end TapeMachine
