import TapeMachine.Definition.Writer
import TapeMachine.Proofs.Contents
import TapeMachine.Proofs.Placing
import TapeMachine.Proofs.Trimming

namespace TapeMachine

namespace Text

theorem splitOn_flatMap_lines {lines : List (List Char)} (h : ∀ line ∈ lines, '\n' ∉ line) :
    (lines.flatMap (· ++ ['\n'])).splitOn '\n' = lines ++ [[]] := by
  induction lines with
  | nil => rfl
  | cons line lines ih =>
      rw [List.forall_mem_cons] at h
      rw [List.flatMap_cons, List.append_assoc, List.singleton_append,
        List.splitOn_append_cons_self_of_not_mem h.1, ih h.2]
      rfl

theorem commaFields_cons_of_isSpace {c : Char} (h : isSpace c = true) (s : List Char) :
    commaFields (c :: s) = commaFields s := by
  have hne : ¬ (c == ',') = true := by
    intro hcomma
    rw [beq_iff_eq.mp hcomma] at h
    contradiction
  rw [commaFields, commaFields, List.splitOn_cons_eq_if_modifyHead, if_neg hne]
  cases s.splitOn ',' with
  | nil => rfl
  | cons first rest => simp [trim_cons_of_isSpace h]

end Text

namespace Contents

variable {place : Section} {body rest : List (List Char)}

theorem ofLines_cons (l : ContentLine) (lines : List ContentLine) (q : Section) :
    ofLines (l :: lines) q = (if l.place = q then [l.text] else []) ++ ofLines lines q := by
  unfold ofLines
  by_cases hplace : l.place = q <;> simp [hplace]

theorem ofLines_collect_body (hbody : ∀ raw ∈ body, Line.IsContent raw) (number : Nat)
    (q : Section) :
    ofLines (ContentLine.collect place ((body ++ rest).zipIdx number)) q =
      (if place = q then body.map Text.trim else []) ++
        ofLines (ContentLine.collect place (rest.zipIdx (number + body.length))) q := by
  induction body generalizing number with
  | nil => simp
  | cons raw body ih =>
      rw [List.forall_mem_cons] at hbody
      have hnumber : number + (raw :: body).length = number + 1 + body.length := by
        rw [List.length_cons]
        omega
      rw [List.cons_append, List.zipIdx_cons, ContentLine.collect_cons_of_isContent hbody.1,
        ofLines_cons, ih hbody.2, hnumber]
      by_cases hplace : place = q <;> simp [hplace]

theorem trim_headerLine (name : String) :
    Text.trim (Definition.headerLine name) = Definition.headerLine name := by
  rw [Text.trim_eq_self_iff, Definition.headerLine]
  constructor
  · intro c hc
    obtain rfl := Option.some.inj hc
    rfl
  · intro c hc
    rw [← List.cons_append, List.getLast?_concat] at hc
    obtain rfl := Option.some.inj hc
    rfl

theorem header?_headerLine (name : String) :
    Line.header? (Text.trim (Definition.headerLine name)) = some name.toList := by
  rw [trim_headerLine, Line.header?_eq_some_iff]
  rfl

/-- A section that is written in one piece adds its lines to those of its kind. -/
theorem ofLines_collect_section (name : String) (hbody : ∀ raw ∈ body, Line.IsContent raw)
    (number : Nat) (q : Section) :
    ofLines (ContentLine.collect place
        ((Definition.headerLine name :: (body ++ rest)).zipIdx number)) q =
      (if Section.ofName name.toList = q then body.map Text.trim else []) ++
        ofLines (ContentLine.collect (.ofName name.toList)
          (rest.zipIdx (number + 1 + body.length))) q := by
  rw [List.zipIdx_cons, ContentLine.collect_cons_of_header (header?_headerLine name),
    ofLines_collect_body hbody]

end Contents

namespace Definition

/-- A text that keeps its shape on a line of its own. -/
structure IsPlain (text : String) : Prop where
  trimmed : Text.trim text.toList = text.toList
  oneLine : '\n' ∉ text.toList

/-- A key that an entry line can begin with. -/
structure IsKey (key : String) : Prop extends IsPlain key where
  begins : ∃ c rest, key.toList = c :: rest ∧ c ≠ '#' ∧ c ≠ '['
  noColon : ':' ∉ key.toList

variable {key : String}

theorem trim_entryLine (hkey : IsKey key) (value : List Char) :
    Text.trim (entryLine key value) = key.toList ++ ':' :: Text.trimEnd (' ' :: value) := by
  rw [entryLine, Text.trim_append_cons rfl, Text.dropWhile_of_trimmed hkey.trimmed]

theorem isContent_entryLine (hkey : IsKey key) (value : List Char) :
    Line.IsContent (entryLine key value) := by
  obtain ⟨c, rest, hbegins, hcomment, hbracket⟩ := hkey.begins
  have htrim := trim_entryLine hkey value
  rw [hbegins, List.cons_append] at htrim
  constructor
  · rw [htrim]
    exact List.cons_ne_nil _ _
  · rw [htrim]
    simpa using hcomment
  · intro name hname
    rw [htrim] at hname
    injection hname with hc
    exact hbracket hc

theorem entryOf?_entryLine (hkey : IsKey key) (value : List Char) :
    Line.entryOf? (Text.trim (entryLine key value)) = some (key, .ofList (Text.trim value)) := by
  rw [Line.entryOf?_eq_some_iff, trim_entryLine hkey, String.toList_ofList]
  refine ⟨_, _, rfl, hkey.noColon, hkey.trimmed, ?_⟩
  rw [Text.trim_trimEnd, Text.trim_cons_of_isSpace rfl]

def entryLines (entries : List (String × List Char)) : List (List Char) :=
  entries.map fun entry => entryLine entry.1 entry.2

section Entries

variable {entries : List (String × List Char)}

theorem isContent_entryLines (h : ∀ entry ∈ entries, IsKey entry.1) :
    ∀ line ∈ entryLines entries, Line.IsContent line := by
  intro line hline
  obtain ⟨entry, hentry, rfl⟩ := List.mem_map.mp hline
  exact isContent_entryLine (h entry hentry) entry.2

theorem oneLine_entryLines (h : ∀ entry ∈ entries, IsKey entry.1)
    (hvalue : ∀ entry ∈ entries, '\n' ∉ entry.2) : ∀ line ∈ entryLines entries, '\n' ∉ line := by
  intro line hline
  obtain ⟨entry, hentry, rfl⟩ := List.mem_map.mp hline
  simp [entryLine, (h entry hentry).oneLine, hvalue entry hentry]

theorem filterMap_entryLines (h : ∀ entry ∈ entries, IsKey entry.1) :
    ((entryLines entries).map Text.trim).filterMap Line.entryOf? =
      entries.map fun entry => (entry.1, .ofList (Text.trim entry.2)) := by
  rw [entryLines, List.map_map, List.filterMap_map, ← List.filterMap_eq_map]
  apply List.filterMap_congr
  intro entry hentry
  exact entryOf?_entryLine (h entry hentry) entry.2

end Entries

/-- An item of a list that can be told from its neighbours. -/
structure IsItem (item : String) : Prop extends IsPlain item where
  nonempty : item ≠ ""
  noComma : ',' ∉ item.toList

theorem IsItem.toList_ne_nil {item : String} (h : IsItem item) : item.toList ≠ [] :=
  fun hnil => h.nonempty (String.toList_eq_nil_iff.mp hnil)

theorem listText_cons_cons (item next : String) (items : List String) :
    listText (item :: next :: items) = item.toList ++ ([',', ' '] ++ listText (next :: items)) := by
  rw [listText, List.map_cons, List.map_cons, List.intercalate_cons_cons, List.append_assoc]
  rfl

theorem listText_singleton (item : String) : listText [item] = item.toList := by
  simp [listText]

theorem trim_listText_cons {item : String} {items : List String}
    (h : ∀ other ∈ item :: items, IsItem other) :
    listText (item :: items) ≠ [] ∧ Text.trim (listText (item :: items)) =
      listText (item :: items) := by
  induction items generalizing item with
  | nil =>
      have hitem := h item List.mem_cons_self
      rw [listText_singleton]
      exact ⟨hitem.toList_ne_nil, hitem.trimmed⟩
  | cons next items ih =>
      rw [List.forall_mem_cons] at h
      obtain ⟨hitem, hnext⟩ := h
      obtain ⟨hne, htrim⟩ := ih hnext
      rw [listText_cons_cons]
      exact ⟨by simp, Text.trim_append_of_trimmed hitem.trimmed htrim hitem.toList_ne_nil hne _⟩

theorem commaFields_listText {item : String} {items : List String}
    (h : ∀ other ∈ item :: items, IsItem other) :
    Text.commaFields (listText (item :: items)) = (item :: items).map String.toList := by
  induction items generalizing item with
  | nil =>
      have hitem := h item List.mem_cons_self
      rw [listText_singleton, Text.commaFields_of_not_mem hitem.noComma, hitem.trimmed]
      rfl
  | cons next items ih =>
      rw [List.forall_mem_cons] at h
      obtain ⟨hitem, hnext⟩ := h
      have hspace : Text.commaFields (' ' :: listText (next :: items)) =
          (next :: items).map String.toList := by
        rw [Text.commaFields_cons_of_isSpace rfl, ih hnext]
      rw [listText_cons_cons, List.cons_append, List.singleton_append,
        Text.commaFields_append hitem.noComma, hspace, hitem.trimmed]
      rfl

theorem listOf_listText {items : List String} (h : ∀ item ∈ items, IsItem item) :
    Item.listOf (Text.trim (listText items)) = items := by
  cases items with
  | nil => rfl
  | cons item items =>
      have hkept : ∀ field ∈ (item :: items).map String.toList, (!field.isEmpty) = true := by
        intro field hfield
        obtain ⟨other, hother, rfl⟩ := List.mem_map.mp hfield
        simpa using (h other hother).nonempty
      rw [(trim_listText_cons h).2, Item.listOf, Text.commaItems, commaFields_listText h,
        List.filter_eq_self.mpr hkept, List.map_map]
      simp

/-- A state that can be told from the separators of a rule line. -/
structure IsState (state : String) : Prop extends IsPlain state where
  noComma : ',' ∉ state.toList
  noArrow : ¬ Text.arrow <:+: state.toList

structure IsSymbol (symbol : Char) : Prop where
  notSpace : Text.isSpace symbol = false
  noComma : symbol ≠ ','

theorem IsSymbol.trim_space {symbol : Char} (h : IsSymbol symbol) :
    Text.trim [' ', symbol] = [symbol] := by
  rw [Text.trim_cons_of_isSpace rfl, Text.trim_eq_self_iff]
  simp [h.notSpace]

theorem IsSymbol.comma_not_mem {symbol : Char} (h : IsSymbol symbol) : ',' ∉ [' ', symbol] := by
  simp [h.noComma.symm]

theorem IsSymbol.ne_newline {symbol : Char} (h : IsSymbol symbol) : '\n' ≠ symbol := by
  rintro rfl
  exact Bool.noConfusion h.notSpace

theorem isSymbol_of_ofToken? {letter : Char} {move : Move}
    (h : Move.ofToken? [letter] = some move) : IsSymbol letter := by
  unfold Move.ofToken? at h
  split at h
  all_goals first | contradiction | (rename_i heq; injection heq with hletter; subst hletter)
  all_goals exact ⟨rfl, by decide⟩

/-- A rule that can be read back from its line, with a letter that names its move. -/
structure IsWritable (letter : Char) (r : Rule) : Prop where
  state : IsState r.state
  next : IsState r.next
  read : IsSymbol r.read
  write : IsSymbol r.write
  move : Move.ofToken? [letter] = some r.move

def leftText (r : Rule) : List Char :=
  r.state.toList ++ ',' :: [' ', r.read, ' ']

/-- The side of a written rule behind the arrow, once the line is trimmed. -/
def rightText (letter : Char) (r : Rule) : List Char :=
  [' ', r.write] ++ ',' :: ([' ', letter] ++ ',' :: Text.trimEnd (' ' :: r.next.toList))

section RuleText

variable {letter : Char} {r : Rule}

theorem trim_ruleText (h : IsWritable letter r) :
    Text.trim (ruleText letter r) = leftText r ++ '-' :: '>' :: rightText letter r := by
  have htext : ruleText letter r = (r.state.toList ++ ',' ::
      [' ', r.read, ' ', '-', '>', ' ', r.write, ',', ' ', letter]) ++ ',' ::
        (' ' :: r.next.toList) := by
    simp [ruleText]
  rw [htext, Text.trim_append_cons rfl, Text.dropWhile_append_cons rfl,
    Text.dropWhile_of_trimmed h.state.trimmed]
  simp [leftText, rightText]

theorem noArrow_leftText (h : IsWritable letter r) : ¬ Text.arrow <:+: leftText r := by
  have hnil : ¬ Text.arrow <:+: [] := by decide
  refine Text.noArrow_append h.state.noArrow ?_ (by simp)
  simp [Text.noArrow_cons_iff, hnil]

theorem noArrow_rightText (h : IsWritable letter r) : ¬ Text.arrow <:+: rightText letter r := by
  have hnext : ¬ Text.arrow <:+: ' ' :: r.next.toList :=
    Text.noArrow_cons_iff.mpr ⟨fun _ hdash => by contradiction, h.next.noArrow⟩
  have hend : ¬ Text.arrow <:+: Text.trimEnd (' ' :: r.next.toList) :=
    fun harrow => hnext (harrow.trans (Text.trimEnd_prefix _).isInfix)
  simp [rightText, Text.noArrow_cons_iff, hend]

theorem commaFields_leftText (h : IsWritable letter r) :
    Text.commaFields (leftText r) = [r.state.toList, [r.read]] := by
  have hplain : ',' ∉ [' ', r.read, ' '] := by
    simp [h.read.noComma.symm]
  have hread : Text.trim [' ', r.read, ' '] = [r.read] := by
    rw [Text.trim_cons_of_isSpace rfl, ← List.nil_append (r.read :: _),
      Text.trim_append_cons h.read.notSpace]
    rfl
  rw [leftText, Text.commaFields_append h.state.noComma, Text.commaFields_of_not_mem hplain,
    h.state.trimmed, hread]

theorem commaFields_rightText (h : IsWritable letter r) :
    Text.commaFields (rightText letter r) = [[r.write], [letter], r.next.toList] := by
  have hletter := isSymbol_of_ofToken? h.move
  have hplain : ',' ∉ Text.trimEnd (' ' :: r.next.toList) := by
    intro hcomma
    have hmem := (Text.trimEnd_prefix _).subset hcomma
    simp [h.next.noComma] at hmem
  rw [rightText, Text.commaFields_append h.write.comma_not_mem,
    Text.commaFields_append hletter.comma_not_mem, Text.commaFields_of_not_mem hplain,
    h.write.trim_space, hletter.trim_space, Text.trim_trimEnd, Text.trim_cons_of_isSpace rfl,
    h.next.trimmed]

theorem isRule_ruleText (h : IsWritable letter r) :
    Line.IsRule (Text.trim (ruleText letter r)) r.state.toList [r.read] [r.write] [letter]
      r.next.toList := by
  rw [Line.IsRule, Line.plainSides, trim_ruleText h, Text.splitArrows_append,
    Text.splitArrows_of_noArrow (noArrow_leftText h),
    Text.splitArrows_of_noArrow (noArrow_rightText h), List.map_append, List.map_singleton,
    List.map_singleton, commaFields_leftText h, commaFields_rightText h]
  rfl

theorem rule?_ruleText (h : IsWritable letter r) (blank : Char) :
    Line.rule? blank (Text.trim (ruleText letter r)) = some r := by
  rw [Line.rule?, RuleLine.ofText?_of_isRule (isRule_ruleText h), h.move]
  simp [RuleLine.rule]

end RuleText

/-- A line that would be taken for a comment or for a header. -/
def Hidden (line : List Char) : Prop :=
  line.head? = some '#' ∨ (line.head? = some '[' ∧ line.getLast? = some ']')

theorem isContent_of_trimmed {line : List Char} (htrim : Text.trim line = line) (hne : line ≠ [])
    (hvisible : ¬ Hidden line) : Line.IsContent line := by
  constructor
  · rwa [htrim]
  · rw [htrim]
    exact fun hcomment => hvisible (.inl hcomment)
  · rw [htrim]
    rintro name rfl
    refine hvisible (.inr ⟨rfl, ?_⟩)
    rw [← List.cons_append, List.getLast?_concat]

theorem trimEnd_space_cons (next : List Char) (h : Text.trim next = next) :
    (next = [] ∧ Text.trimEnd (' ' :: next) = []) ∨ Text.trimEnd (' ' :: next) = ' ' :: next := by
  have hnext : Text.trimEnd next = next := by
    rw [← Text.dropWhile_of_trimmed h, ← Text.trim_eq_trimEnd, h, Text.dropWhile_of_trimmed h]
  rw [Text.trimEnd_cons_of_isSpace rfl, hnext]
  split
  · rename_i hempty
    exact .inl ⟨hempty, rfl⟩
  · exact .inr rfl

theorem isContent_ruleText {letter : Char} {r : Rule} (h : IsWritable letter r)
    (hvisible : ¬ Hidden (ruleText letter r)) : Line.IsContent (ruleText letter r) := by
  have htrim := trim_ruleText h
  rcases trimEnd_space_cons r.next.toList h.next.trimmed with ⟨hnext, hend⟩ | hend
  · have hhead : (Text.trim (ruleText letter r)).head? = (ruleText letter r).head? := by
      rw [htrim, leftText, ruleText]
      cases r.state.toList <;> rfl
    have hlast : (Text.trim (ruleText letter r)).getLast? = some ',' := by
      rw [htrim, rightText, hend]
      simp
    constructor
    · intro hempty
      rw [hempty] at hlast
      contradiction
    · rw [hhead]
      exact fun hcomment => hvisible (.inl hcomment)
    · intro name hname
      rw [hname, ← List.cons_append, List.getLast?_concat] at hlast
      contradiction
  · have hsame : Text.trim (ruleText letter r) = ruleText letter r := by
      rw [htrim, leftText, rightText, hend]
      simp [ruleText]
    exact isContent_of_trimmed hsame (by simp [ruleText]) hvisible

theorem oneLine_listText {items : List String} (h : ∀ item ∈ items, IsItem item) :
    '\n' ∉ listText items := by
  induction items with
  | nil => simp [listText]
  | cons item items ih =>
      rw [List.forall_mem_cons] at h
      cases items with
      | nil =>
          rw [listText_singleton]
          exact h.1.oneLine
      | cons next items =>
          rw [listText_cons_cons]
          simp [h.1.oneLine, ih h.2]

theorem oneLine_ruleText {letter : Char} {r : Rule} (h : IsWritable letter r) :
    '\n' ∉ ruleText letter r := by
  have hletter := isSymbol_of_ofToken? h.move
  simp [ruleText, h.state.oneLine, h.next.oneLine, h.read.ne_newline, h.write.ne_newline,
    hletter.ne_newline]

end Definition

end TapeMachine
