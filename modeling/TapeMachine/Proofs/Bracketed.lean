import Mathlib.Data.List.TakeWhile
import TapeMachine.Proofs.Interleaving
import TapeMachine.Proofs.Written

/-!
Rule lines in brackets. Every line that begins with an opening bracket and ends with a closing one
is taken for a header, also when it has the shape of a rule.
-/

namespace TapeMachine

theorem Text.mem_trim {c : Char} {s : List Char} (hc : isSpace c = false) (h : c ∈ s) :
    c ∈ trim s := by
  obtain ⟨before, after, rfl⟩ := List.append_of_mem h
  rw [trim_append_cons hc]
  exact List.mem_append_right _ List.mem_cons_self

namespace Section

theorem ofName_of_comma {name : List Char} (h : ',' ∈ name) : ofName name = .unknown := by
  have hfolded : ',' ∈ (Text.trim name).map Text.lower :=
    List.mem_map.mpr ⟨',', Text.mem_trim rfl h, rfl⟩
  have hother : ∀ word : List Char, ',' ∉ word → (Text.trim name).map Text.lower ≠ word := by
    rintro word hword rfl
    exact hword hfolded
  unfold ofName
  dsimp only
  rw [if_neg (hother _ (by decide)), if_neg (hother _ (by decide)), if_neg (hother _ (by decide)),
    if_neg (hother _ (by decide)), if_neg (hother _ (by decide))]

/-- Only a header with the name of a section leads out of the unknown one. -/
theorem after_unknown {lines : List (List Char)}
    (h : ∀ raw ∈ lines, ∀ name, Text.trim raw = '[' :: (name ++ [']']) → ofName name = .unknown) :
    unknown.after lines = .unknown := by
  induction lines with
  | nil => rfl
  | cons raw lines ih =>
      rw [List.forall_mem_cons] at h
      have hfirst : unknown.after [raw] = .unknown := by
        cases hheader : Line.header? (Text.trim raw) with
        | none => exact after_of_no_header hheader _
        | some name =>
            rw [after_of_header hheader]
            exact h.1 name (Line.header?_eq_some_iff.mp hheader)
      rw [after_cons, hfirst, ih h.2]

end Section

theorem Contents.ofLines_append (lines more : List ContentLine) (place : Section) :
    ofLines (lines ++ more) place = ofLines lines place ++ ofLines more place := by
  simp [ofLines]

theorem Item.ofLines_unknown {mode : Mode} {lines : List ContentLine}
    (h : ∀ l ∈ lines, l.place = .unknown) : ofLines mode lines = .ok [] := by
  refine ofLines_eq_ok_iff.mpr ⟨?_, ?_⟩
  · intro l hl e hdefect
    rcases hdefect.place with hplace | hplace <;> rw [h l hl] at hplace <;> contradiction
  · rw [eq_comm, List.flatMap_eq_nil_iff]
    intro l hl
    simp [ContentLine.items, h l hl]

theorem Item.ofLines_append_unknown {mode : Mode} (lines : List ContentLine)
    {more : List ContentLine} (h : ∀ l ∈ more, l.place = .unknown) :
    ofLines mode (lines ++ more) = ofLines mode lines := by
  have hnothing : ofLines mode more = ofLines mode [] := ofLines_unknown h
  rw [ofLines_append_congr lines hnothing, List.append_nil]

namespace Definition

/-- Whether a line begins with an opening bracket and ends with a closing one. -/
def bracketed (line : List Char) : Bool :=
  line.head? == some '[' && line.getLast? == some ']'

/-- The lines of some rules, each with the letter of its move. -/
def listed (rules : List (Char × Rule)) : List (List Char) :=
  rules.map fun entry => ruleText entry.1 entry.2

/-- A text that ends in rules. -/
def listing (before : List (List Char)) (rules : List (Char × Rule)) : String :=
  String.ofList ((before ++ headerLine "TRANSITIONS" :: listed rules).flatMap (· ++ ['\n']))

/-- The rules before the first one whose line is in brackets. -/
def unbracketed (rules : List (Char × Rule)) : List (Char × Rule) :=
  rules.takeWhile fun entry => !bracketed (ruleText entry.1 entry.2)

theorem bracketed_iff {line : List Char} :
    bracketed line = true ↔ ∃ name, line = '[' :: (name ++ [']']) := by
  rw [bracketed, Bool.and_eq_true, beq_iff_eq, beq_iff_eq]
  constructor
  · rintro ⟨hfirst, hlast⟩
    obtain ⟨front, rfl⟩ := List.getLast?_eq_some_iff.mp hlast
    cases front with
    | nil => contradiction
    | cons c name =>
        obtain rfl : c = '[' := Option.some.inj hfirst
        exact ⟨name, rfl⟩
  · rintro ⟨name, rfl⟩
    exact ⟨rfl, by rw [← List.cons_append, List.getLast?_concat]⟩

theorem trim_bracketed (name : List Char) :
    Text.trim ('[' :: (name ++ [']'])) = '[' :: (name ++ [']']) :=
  Text.trim_append_of_trimmed (s := ['[']) (t := [']']) rfl rfl (by simp) (by simp) name

section RuleText

variable {letter : Char} {r : Rule}

theorem comma_of_trim_ruleText (h : IsWritable letter r) {name : List Char}
    (hname : Text.trim (ruleText letter r) = '[' :: (name ++ [']'])) : ',' ∈ name := by
  have hcomma : ',' ∈ '[' :: (name ++ [']']) := by
    rw [← hname, trim_ruleText h, leftText]
    simp
  simpa using hcomma

theorem isContent_of_not_bracketed (h : IsWritable letter r)
    (hcomment : (ruleText letter r).head? ≠ some '#')
    (hbracketed : bracketed (ruleText letter r) = false) :
    Line.IsContent (ruleText letter r) := by
  apply isContent_ruleText h
  rintro (hhead | ⟨hfirst, hlast⟩)
  · exact hcomment hhead
  · simp [bracketed, hfirst, hlast] at hbracketed

/-- A rule line in brackets opens a section that is not known. -/
theorem header_of_bracketed (h : IsWritable letter r)
    (hbracketed : bracketed (ruleText letter r) = true) :
    ∃ name, Line.header? (Text.trim (ruleText letter r)) = some name ∧
      Section.ofName name = .unknown := by
  obtain ⟨name, hname⟩ := bracketed_iff.mp hbracketed
  have htrim : Text.trim (ruleText letter r) = '[' :: (name ++ [']']) := by
    rw [hname, trim_bracketed]
  exact ⟨name, Line.header?_eq_some_iff.mpr htrim,
    Section.ofName_of_comma (comma_of_trim_ruleText h htrim)⟩

end RuleText

section Listing

variable {before : List (List Char)} {rules kept lost : List (Char × Rule)}

/-- Behind a rule line in brackets no rule line leads back to a known section. -/
theorem place_of_mem_collect_listed {place : Section} {number : Nat}
    (hlost : ∀ entry ∈ lost, IsWritable entry.1 entry.2)
    (hfirst : ∀ entry, lost.head? = some entry → bracketed (ruleText entry.1 entry.2) = true) :
    ∀ l ∈ ContentLine.collect place ((listed lost ++ [[]]).zipIdx number), l.place = .unknown := by
  cases lost with
  | nil =>
      intro l hl
      contradiction
  | cons first rest =>
      rw [List.forall_mem_cons] at hlost
      obtain ⟨name, hheader, hunknown⟩ := header_of_bracketed hlost.1 (hfirst first rfl)
      intro l hl
      rw [listed, List.map_cons, List.cons_append, List.zipIdx_cons,
        ContentLine.collect_cons_of_header hheader, hunknown] at hl
      obtain ⟨earlier, raw, later, hsplit, -, rfl⟩ := ContentLine.mem_collect_iff.mp hl
      -- Every later header is a rule line too, with a comma in what it names.
      apply Section.after_unknown
      intro raw hraw name hname
      have hmem : raw ∈ listed rest ++ [[]] := by
        rw [listed, hsplit]
        exact List.mem_append_left _ hraw
      rcases List.mem_append.mp hmem with hrule | hempty
      · obtain ⟨entry, hentry, rfl⟩ := List.mem_map.mp hrule
        exact Section.ofName_of_comma (comma_of_trim_ruleText (hlost.2 entry hentry) hname)
      · rw [List.mem_singleton.mp hempty] at hname
        contradiction

theorem ofText_listing (hbefore : ∀ line ∈ before, '\n' ∉ line)
    (hrules : ∀ entry ∈ rules, IsWritable entry.1 entry.2) :
    ContentLine.ofText (listing before rules).toList = ContentLine.collect .unknown
      ((before ++ headerLine "TRANSITIONS" :: (listed rules ++ [[]])).zipIdx 1) := by
  have hlines : ∀ line ∈ before ++ headerLine "TRANSITIONS" :: listed rules, '\n' ∉ line := by
    simp only [List.forall_mem_append, List.forall_mem_cons]
    refine ⟨hbefore, by decide, ?_⟩
    intro line hline
    obtain ⟨entry, hentry, rfl⟩ := List.mem_map.mp hline
    exact oneLine_ruleText (hrules entry hentry)
  rw [ContentLine.ofText, Text.numberedLines, listing, String.toList_ofList,
    Text.splitOn_flatMap_lines hlines, List.append_assoc, List.cons_append]

theorem ofLines_listing (mode : Mode) (hbefore : ∀ line ∈ before, '\n' ∉ line)
    (hrules : ∀ entry ∈ kept ++ lost, IsWritable entry.1 entry.2)
    (hfirst : ∀ entry, lost.head? = some entry → bracketed (ruleText entry.1 entry.2) = true) :
    Item.ofLines mode (ContentLine.ofText (listing before (kept ++ lost)).toList) =
      Item.ofLines mode (ContentLine.collect .unknown
        ((before ++ headerLine "TRANSITIONS" :: listed kept).zipIdx 1)) := by
  have hsplit : before ++ headerLine "TRANSITIONS" :: (listed (kept ++ lost) ++ [[]]) =
      (before ++ headerLine "TRANSITIONS" :: listed kept) ++ (listed lost ++ [[]]) := by
    simp [listed]
  rw [ofText_listing hbefore hrules, hsplit, ContentLine.collect_append]
  apply Item.ofLines_append_unknown
  exact place_of_mem_collect_listed
    (fun entry hentry => hrules entry (List.mem_append_right _ hentry)) hfirst

theorem unbracketed_append (rules : List (Char × Rule)) :
    ∃ lost, rules = unbracketed rules ++ lost ∧ ∀ entry, lost.head? = some entry →
      bracketed (ruleText entry.1 entry.2) = true := by
  refine ⟨_, List.takeWhile_append_dropWhile.symm, ?_⟩
  intro entry hentry
  have hstop := List.head?_dropWhile_not
    (fun entry : Char × Rule => !bracketed (ruleText entry.1 entry.2)) rules
  rw [hentry] at hstop
  simpa using hstop

/-- The text is read as if it ended before the first rule line in brackets. -/
theorem parse_unbracketed (mode : Mode) (hbefore : ∀ line ∈ before, '\n' ∉ line)
    (hrules : ∀ entry ∈ rules, IsWritable entry.1 entry.2) :
    parse mode (listing before rules) = parse mode (listing before (unbracketed rules)) := by
  obtain ⟨lost, hsplit, hfirst⟩ := unbracketed_append rules
  rw [hsplit] at hrules
  have hkept : ∀ entry ∈ unbracketed rules ++ [], IsWritable entry.1 entry.2 := by
    rw [List.append_nil]
    exact fun entry hentry => hrules entry (List.mem_append_left _ hentry)
  have hcut := ofLines_listing mode hbefore hkept (fun entry hentry => by contradiction)
  rw [List.append_nil] at hcut
  have hwhole := ofLines_listing mode hbefore hrules hfirst
  rw [← hsplit, ← hcut] at hwhole
  rw [parse, parse, ofChars, ofChars, hwhole]

theorem mem_transitions_listing (hbefore : ∀ line ∈ before, '\n' ∉ line)
    (hrules : ∀ entry ∈ rules, IsWritable entry.1 entry.2)
    (hcontent : ∀ entry ∈ rules, Line.IsContent (ruleText entry.1 entry.2))
    {entry : Char × Rule} (hentry : entry ∈ rules) :
    Text.trim (ruleText entry.1 entry.2) ∈
      Contents.ofText (listing before rules) .transitions := by
  have hbody : ∀ raw ∈ listed rules, Line.IsContent raw := by
    intro raw hraw
    obtain ⟨other, hother, rfl⟩ := List.mem_map.mp hraw
    exact hcontent other hother
  rw [Contents.ofText, ofText_listing hbefore hrules, ContentLine.collect_append,
    Contents.ofLines_append, Contents.ofLines_collect_section "TRANSITIONS" hbody]
  refine List.mem_append_right _ (List.mem_append_left _ ?_)
  exact List.mem_map_of_mem (List.mem_map_of_mem hentry)

end Listing

end Definition

theorem Contents.contains_of_mem {contents : Contents} {s : List Char} {r : Rule}
    (hs : s ∈ contents .transitions) (hr : Line.rule? contents.blank s = some r) :
    contents.definition.program.table.contains r.state r.read = true := by
  have hmem : r ∈ contents.rules := List.mem_filterMap.mpr ⟨s, hs, hr⟩
  rw [Table.contains_iff]
  exact (Table.keepsLast_ofRules contents.rules).mem_map_iff.mpr (List.mem_map_of_mem hmem)

namespace Definition

/-- Of the rules behind a header of rules, those before the first line in brackets are all kept,
whatever their states are called; the line in brackets and all that stands behind it are lost
without an error, in either mode. -/
theorem rules_before_bracketed (mode : Mode) {before : List (List Char)}
    {rules : List (Char × Rule)} (hbefore : ∀ line ∈ before, '\n' ∉ line)
    (hrules : ∀ entry ∈ rules, IsWritable entry.1 entry.2 ∧
      (ruleText entry.1 entry.2).head? ≠ some '#') :
    parse mode (listing before rules) = parse mode (listing before (unbracketed rules)) ∧
      ∀ d, parse mode (listing before rules) = .ok d → ∀ entry ∈ unbracketed rules,
        d.program.table.contains entry.2.state entry.2.read = true := by
  have hwritable : ∀ entry ∈ rules, IsWritable entry.1 entry.2 :=
    fun entry hentry => (hrules entry hentry).1
  have hcut := parse_unbracketed mode hbefore hwritable
  refine ⟨hcut, ?_⟩
  intro d hd entry hentry
  have hmem : ∀ entry ∈ unbracketed rules, entry ∈ rules :=
    (List.takeWhile_prefix _).subset
  have hcontent : ∀ entry ∈ unbracketed rules, Line.IsContent (ruleText entry.1 entry.2) := by
    intro entry hentry
    have hplain : bracketed (ruleText entry.1 entry.2) = false := by
      simpa using List.mem_takeWhile_imp hentry
    exact isContent_of_not_bracketed (hwritable entry (hmem entry hentry))
      (hrules entry (hmem entry hentry)).2 hplain
  rw [hcut] at hd
  obtain ⟨-, rfl⟩ := parse_eq_ok_iff.mp hd
  refine Contents.contains_of_mem ?_ (rule?_ruleText (hwritable entry (hmem entry hentry)) _)
  exact mem_transitions_listing hbefore
    (fun other hother => hwritable other (hmem other hother)) hcontent hentry

def settings : List (List Char) :=
  ["[CONFIG]".toList, "initial_state: s".toList]

/-- Rules with brackets in the names of their states, none of which makes a header. -/
def halfBracketed : List (Char × Rule) :=
  [('r', ⟨"s]", '[', ']', .right, "[a"⟩), ('L', ⟨"[a", '#', '-', .left, "[b"⟩)]

theorem writable_halfBracketed : ∀ entry ∈ halfBracketed, IsWritable entry.1 entry.2 ∧
    (ruleText entry.1 entry.2).head? ≠ some '#' := by
  simp only [halfBracketed, List.forall_mem_cons]
  refine ⟨⟨?_, by decide⟩, ⟨?_, by decide⟩, by simp⟩
  all_goals exact ⟨⟨⟨by decide, by decide⟩, by decide, by decide⟩,
    ⟨⟨by decide, by decide⟩, by decide, by decide⟩, ⟨by decide, by decide⟩,
    ⟨by decide, by decide⟩, by decide⟩

theorem halfBracketed_rules_before_bracketed :
    (∀ entry ∈ halfBracketed, IsWritable entry.1 entry.2 ∧
        (ruleText entry.1 entry.2).head? ≠ some '#') ∧
      ∃ d, parse .strict (listing settings halfBracketed) = .ok d ∧
        d.program.table.contains "s]" '[' = true ∧ d.program.table.contains "[a" '#' = true := by
  have hsettings : ∀ line ∈ settings, '\n' ∉ line := by
    decide
  obtain ⟨-, hkept⟩ := rules_before_bracketed .strict hsettings writable_halfBracketed
  have hread : (parse .strict (listing settings halfBracketed)).toOption.isSome = true := by
    rw [listing, parse, String.toList_ofList]
    decide +kernel
  have hplain : unbracketed halfBracketed = halfBracketed := by
    decide
  obtain ⟨d, hparse⟩ := exists_ok_of_isSome hread
  have hall := hkept d hparse
  rw [hplain] at hall
  exact ⟨writable_halfBracketed, d, hparse, hall _ (.head _), hall _ (.tail _ (.head _))⟩

def swallowed : List (Char × Rule) :=
  [('R', ⟨"s", '0', '0', .right, "s"⟩), ('R', ⟨"[a", '1', '1', .right, "b]"⟩)]

/-- A rule line in brackets is lost, though the text is accepted. -/
theorem swallowed_rule_lost :
    (∀ entry ∈ swallowed, IsWritable entry.1 entry.2 ∧
        (ruleText entry.1 entry.2).head? ≠ some '#') ∧
      ∀ mode, ∃ d, parse mode (listing settings swallowed) = .ok d ∧
        d.program.table.contains "[a" '1' = false := by
  constructor
  · simp only [swallowed, List.forall_mem_cons]
    refine ⟨⟨?_, by decide⟩, ⟨?_, by decide⟩, by simp⟩
    all_goals exact ⟨⟨⟨by decide, by decide⟩, by decide, by decide⟩,
      ⟨⟨by decide, by decide⟩, by decide, by decide⟩, ⟨by decide, by decide⟩,
      ⟨by decide, by decide⟩, by decide⟩
  · intro mode
    apply exists_ok_of_map_eq_some
    rw [listing, parse, String.toList_ofList]
    cases mode <;> decide +kernel

end Definition

end TapeMachine
