import TapeMachine.Proofs.Interleaving
import TapeMachine.Proofs.Written

/-!
The layout of a text. What it defines does not depend on blank lines, comments and other lines that
say nothing where they stand, nor on the space around the lines, the kind of the line ends and the
letter case of the headers. An error is the same one, at the number that its line has become.
-/

namespace TapeMachine

namespace Text

/-- The lines of a text, the last of which may be ended or not. -/
def HasLines (s : List Char) (lines : List (List Char)) : Prop :=
  s.splitOn '\n' = lines ∨ s.splitOn '\n' = lines ++ [[]]

/-- A text with carriage returns at its line ends. -/
def withReturns (s : List Char) : List Char :=
  s.flatMap fun c => if c = '\n' then ['\r', '\n'] else [c]

theorem withReturns_newline (s : List Char) :
    withReturns ('\n' :: s) = '\r' :: '\n' :: withReturns s := rfl

theorem withReturns_cons {c : Char} (h : c ≠ '\n') (s : List Char) :
    withReturns (c :: s) = c :: withReturns s := by
  rw [withReturns, List.flatMap_cons, if_neg h]
  rfl

theorem splitOn_newline (s : List Char) : ('\n' :: s).splitOn '\n' = [] :: s.splitOn '\n' := by
  rw [List.splitOn_cons_eq_if_modifyHead, if_pos (beq_self_eq_true _)]

theorem splitOn_cons_of_ne {c : Char} (h : c ≠ '\n') (s : List Char) :
    (c :: s).splitOn '\n' = (s.splitOn '\n').modifyHead (c :: ·) := by
  rw [List.splitOn_cons_eq_if_modifyHead, if_neg (by simpa using h)]

theorem modifyHead_nil_append (lines : List (List Char)) :
    lines.modifyHead ([] ++ ·) = lines :=
  congrFun List.modifyHead_id lines

theorem map_trim_splitOn_withReturns_from (s front : List Char) :
    (((withReturns s).splitOn '\n').modifyHead (front ++ ·)).map trim =
      ((s.splitOn '\n').modifyHead (front ++ ·)).map trim := by
  -- What has been read of the first line stands in front, so that it is trimmed as a whole.
  induction s generalizing front with
  | nil => rfl
  | cons c s ih =>
      by_cases hc : c = '\n'
      · subst hc
        have hreturn : trim (front ++ ['\r']) = trim front :=
          trim_append_of_spaces (List.forall_mem_singleton.mpr rfl)
        have hrest := ih []
        rw [modifyHead_nil_append, modifyHead_nil_append] at hrest
        rw [withReturns_newline, splitOn_cons_of_ne (by decide), splitOn_newline, splitOn_newline]
        simp only [List.modifyHead_cons, List.map_cons, hreturn, hrest, List.append_nil]
      · have hline : (front ++ ·) ∘ (c :: ·) = fun rest => (front ++ [c]) ++ rest := by
          funext rest
          simp
        rw [withReturns_cons hc, splitOn_cons_of_ne hc, splitOn_cons_of_ne hc,
          List.modifyHead_modifyHead, List.modifyHead_modifyHead, hline, ih]

/-- The lines of a text with carriage returns are the same ones once they are trimmed. -/
theorem map_trim_splitOn_withReturns (s : List Char) :
    ((withReturns s).splitOn '\n').map trim = (s.splitOn '\n').map trim := by
  have h := map_trim_splitOn_withReturns_from s []
  rwa [modifyHead_nil_append, modifyHead_nil_append] at h

theorem isSpace_lowerAscii (c : Char) : isSpace (lowerAscii c) = isSpace c := by
  by_cases h : 'A' ≤ c ∧ c ≤ 'Z'
  · have hge : 65 ≤ c.toNat := h.1
    have hle : c.toNat ≤ 90 := h.2
    have hfold := toNat_lowerAscii h
    rw [Bool.eq_iff_iff]
    simp only [isSpace, hfold, Bool.or_eq_true, Bool.and_eq_true, decide_eq_true_eq, beq_iff_eq]
    omega
  · rw [lowerAscii, if_neg h]

theorem lower_lowerAscii (c : Char) : lower (lowerAscii c) = lower c := by
  by_cases h : 'A' ≤ c ∧ c ≤ 'Z'
  · have hge : 65 ≤ c.toNat := h.1
    have hle : c.toNat ≤ 90 := h.2
    have hfold := toNat_lowerAscii h
    have hidem : lowerAscii (lowerAscii c) = lowerAscii c := by
      apply if_neg
      rintro ⟨-, htop⟩
      have htop' : (lowerAscii c).toNat ≤ 90 := htop
      omega
    have hkelvin : ∀ d : Char, d.toNat < 8490 → d ≠ '\u212A' := by
      rintro d hd rfl
      contradiction
    rw [lower, lower, if_neg (hkelvin _ (by omega)), if_neg (hkelvin _ (by omega)), hidem]
  · rw [lowerAscii, if_neg h]

theorem map_lower_trim_congr {name name' : List Char} (h : sameLetters name name' = true) :
    (trim name).map lower = (trim name').map lower := by
  have hfold : ∀ s : List Char, (trim s).map lower = (trim (s.map lowerAscii)).map lower := by
    intro s
    rw [trim_map isSpace_lowerAscii, List.map_map]
    exact congrArg (List.map · (trim s)) (funext fun c => (lower_lowerAscii c).symm)
  rw [sameLetters, beq_iff_eq] at h
  rw [hfold name, hfold name', h]

end Text

theorem Section.ofName_congr {name name' front back front' back' : List Char}
    (hspace : ∀ c ∈ front ++ back ++ front' ++ back', Text.isSpace c = true)
    (h : Text.sameLetters name name' = true) :
    ofName (front ++ (name ++ back)) = ofName (front' ++ (name' ++ back')) := by
  simp only [List.forall_mem_append] at hspace
  obtain ⟨⟨⟨hfront, hback⟩, hfront'⟩, hback'⟩ := hspace
  simp only [ofName, Text.trim_surrounded hfront hback, Text.trim_surrounded hfront' hback',
    Text.map_lower_trim_congr h]

namespace Line

/-- A trimmed line that says nothing in the section `place`. -/
inductive IsIdle (mode : Mode) (place : Section) (text : List Char) : Prop
  | blank (empty : text = [])
  | comment (sign : text.head? = some '#')
  | astray (plain : ∀ name, text ≠ '[' :: (name ++ [']'])) (unknown : place = .unknown)
  | keyless (plain : ∀ name, text ≠ '[' :: (name ++ [']']))
      (entries : place = .metadata ∨ place = .config ∨ place = .alphabet) (colon : ':' ∉ text)
  | shapeless (plain : ∀ name, text ≠ '[' :: (name ++ [']'])) (rules : place = .transitions)
      (normal : mode = .normal)
      (arrows : ∀ a b c, text ≠ a ++ '-' :: '>' :: (b ++ '-' :: '>' :: c))
      (shape : ∀ state read write move next, ¬ IsRule text state read write move next)

theorem keyValue?_of_not_mem {s : List Char} (h : ':' ∉ s) : keyValue? s = none := by
  rw [Option.eq_none_iff_forall_ne_some]
  rintro ⟨key, value⟩ hread
  obtain ⟨before, after, rfl, -⟩ := keyValue?_eq_some_iff.mp hread
  exact h (List.mem_append_right _ List.mem_cons_self)

namespace IsIdle

variable {mode : Mode} {place : Section} {text raw : List Char}

theorem header? (h : IsIdle mode place text) : header? text = none := by
  cases h with
  | blank empty => exact header?_of_isSilent (isSilent_iff.mpr (.inl empty))
  | comment sign => exact header?_of_isSilent (isSilent_iff.mpr (.inr sign))
  | astray plain | keyless plain | shapeless plain =>
      exact Option.eq_none_iff_forall_ne_some.mpr fun name hname =>
        plain name (header?_eq_some_iff.mp hname)

theorem isSilent_or_ofLine (h : IsIdle mode place text) :
    ContentLine.isSilent text = true ∨
      ∀ number, Item.ofLine mode ⟨place, number, text⟩ = .ok [] := by
  cases h with
  | blank empty => exact .inl (isSilent_iff.mpr (.inl empty))
  | comment sign => exact .inl (isSilent_iff.mpr (.inr sign))
  | astray plain unknown =>
      obtain rfl := unknown
      exact .inr fun number => rfl
  | keyless plain entries colon =>
      right
      intro number
      rcases entries with rfl | rfl | rfl <;> simp only [Item.ofLine, keyValue?_of_not_mem colon]
  | shapeless plain rules normal arrows shape =>
      obtain rfl := rules
      obtain rfl := normal
      have hlength : ¬ 2 < (plainSides text).length := by
        rw [plainSides, List.length_map, Text.two_lt_length_splitArrows_iff]
        rintro ⟨a, b, c, htext⟩
        exact arrows a b c htext
      right
      intro number
      show Item.ofRuleLine .normal number text = .ok []
      rw [Item.ofRuleLine_of_shapeless hlength shape, if_neg (by decide)]

theorem ofLines_collect (h : IsIdle mode place (Text.trim raw)) (number : Nat)
    (rest : List (List Char × Nat)) :
    Item.ofLines mode (ContentLine.collect place ((raw, number) :: rest)) =
      Item.ofLines mode (ContentLine.collect place rest) := by
  by_cases hraw : IsContent raw
  · have hsays : Item.ofLine mode ⟨place, number, Text.trim raw⟩ = .ok [] := by
      rcases h.isSilent_or_ofLine with hsilent | hsays
      · rw [(isContent_iff.mp hraw).1] at hsilent
        contradiction
      · exact hsays number
    rw [ContentLine.collect_cons_of_isContent hraw, Item.ofLines_cons, hsays]
    cases Item.ofLines mode (ContentLine.collect place rest) <;> rfl
  · rw [ContentLine.collect_cons_of_not_isContent hraw, Section.after_of_no_header h.header?]

end IsIdle

end Line

namespace ContentLine

variable {place : Section} {number : Nat} {lines lines' before after : List (List Char)}
  {raw raw' : List Char}

theorem ofText_of_hasLines {s : List Char} (h : Text.HasLines s lines) :
    ofText s = collect .unknown (lines.zipIdx 1) := by
  rw [ofText, Text.numberedLines]
  rcases h with h | h
  · rw [h]
  · rw [h, collect_append]
    exact List.append_nil _

theorem collect_map_trim (place : Section) (number : Nat) (lines : List (List Char)) :
    collect place ((lines.map Text.trim).zipIdx number) = collect place (lines.zipIdx number) := by
  induction lines generalizing place number with
  | nil => rfl
  | cons raw lines ih =>
      rw [List.map_cons, List.zipIdx_cons, List.zipIdx_cons]
      simp only [collect, Text.trim_trim, ih]

theorem collect_congr (h : lines.map Text.trim = lines'.map Text.trim) :
    collect place (lines.zipIdx number) = collect place (lines'.zipIdx number) := by
  rw [← collect_map_trim, h, collect_map_trim]

theorem ofText_withReturns (s : List Char) : ofText (Text.withReturns s) = ofText s :=
  collect_congr (Text.map_trim_splitOn_withReturns s)

theorem collect_header_congr {name name' : List Char}
    (h : Line.header? (Text.trim raw) = some name) (h' : Line.header? (Text.trim raw') = some name')
    (hname : Section.ofName name = Section.ofName name') :
    collect place ((before ++ raw :: after).zipIdx number) =
      collect place ((before ++ raw' :: after).zipIdx number) := by
  rw [collect_append, collect_append, List.zipIdx_cons, List.zipIdx_cons,
    collect_cons_of_header h, collect_cons_of_header h', hname]

end ContentLine

namespace Definition

variable {mode : Mode} {source source' : String} {added : Nat → Nat}

/-- A change of the layout of a text. It inserts `added n` lines before line `n`. -/
inductive LayoutEdit (mode : Mode) (source source' : String) : (Nat → Nat) → Prop
  | insert {before after : List (List Char)} {raw : List Char}
      (lines : Text.HasLines source.toList (before ++ after))
      (lines' : Text.HasLines source'.toList (before ++ raw :: after))
      (idle : Line.IsIdle mode (Section.unknown.after before) (Text.trim raw)) :
      LayoutEdit mode source source' fun n => if before.length < n then 1 else 0
  | respace {before after : List (List Char)} {text front back front' back' : List Char}
      (lines : Text.HasLines source.toList (before ++ (front ++ (text ++ back)) :: after))
      (lines' : Text.HasLines source'.toList (before ++ (front' ++ (text ++ back')) :: after))
      (spaces : ∀ c ∈ front ++ back ++ front' ++ back', Text.isSpace c = true) :
      LayoutEdit mode source source' fun _ => 0
  | returns (text : source'.toList = Text.withReturns source.toList) :
      LayoutEdit mode source source' fun _ => 0
  | header {before after : List (List Char)}
      {raw raw' name name' front back front' back' : List Char}
      (lines : Text.HasLines source.toList (before ++ raw :: after))
      (lines' : Text.HasLines source'.toList (before ++ raw' :: after))
      (written : Text.trim raw = '[' :: (front ++ (name ++ back) ++ [']']))
      (written' : Text.trim raw' = '[' :: (front' ++ (name' ++ back') ++ [']']))
      (letters : Text.sameLetters name name' = true)
      (spaces : ∀ c ∈ front ++ back ++ front' ++ back', Text.isSpace c = true) :
      LayoutEdit mode source source' fun _ => 0

/-- Any number of changes of layout, which together insert `added n` lines before line `n`. -/
inductive Relaid (mode : Mode) (source : String) : String → (Nat → Nat) → Prop
  | same : Relaid mode source source fun _ => 0
  | change {source' source'' : String} {added more : Nat → Nat}
      (earlier : Relaid mode source source' added) (edit : LayoutEdit mode source' source'' more) :
      Relaid mode source source'' fun n => added n + more (n + added n)

theorem ofLines_insert {before after : List (List Char)} {raw : List Char}
    (idle : Line.IsIdle mode (Section.unknown.after before) (Text.trim raw)) :
    Item.ofLines mode (ContentLine.collect .unknown ((before ++ raw :: after).zipIdx 1)) =
      Item.ofLines mode ((ContentLine.collect .unknown ((before ++ after).zipIdx 1)).map
        (ContentLine.renumber fun n => n + if before.length < n then 1 else 0)) := by
  obtain ⟨f, hf⟩ : ∃ f, f = fun n => n + if before.length < n then 1 else 0 := ⟨_, rfl⟩
  have hkept : ∀ i < before.length, f (i + 1) = i + 1 := by
    intro i hi
    rw [hf]
    exact congrArg _ (if_neg (by omega))
  have hmoved : ∀ i < after.length, f (i + (1 + before.length)) = i + (1 + before.length + 1) := by
    intro i hi
    rw [hf]
    exact congrArg _ (if_pos (by omega))
  rw [← hf, ContentLine.collect_append, ContentLine.collect_append, List.map_append,
    ← ContentLine.collect_renumber f hkept, ← ContentLine.collect_renumber f hmoved,
    List.zipIdx_cons]
  exact Item.ofLines_append_congr _ (idle.ofLines_collect _ _)

theorem LayoutEdit.ofLines (h : LayoutEdit mode source source' added) :
    Item.ofLines mode (ContentLine.ofText source'.toList) = Item.ofLines mode
      ((ContentLine.ofText source.toList).map (ContentLine.renumber fun n => n + added n)) := by
  have hsame : ∀ l : List ContentLine, l.map (ContentLine.renumber fun n => n + 0) = l :=
    fun l => List.map_id l
  cases h with
  | insert lines lines' idle =>
      rw [ContentLine.ofText_of_hasLines lines, ContentLine.ofText_of_hasLines lines']
      exact ofLines_insert idle
  | respace lines lines' spaces =>
      simp only [List.forall_mem_append] at spaces
      obtain ⟨⟨⟨hfront, hback⟩, hfront'⟩, hback'⟩ := spaces
      rw [hsame, ContentLine.ofText_of_hasLines lines, ContentLine.ofText_of_hasLines lines']
      apply congrArg
      apply ContentLine.collect_congr
      simp only [List.map_append, List.map_cons, Text.trim_surrounded hfront hback,
        Text.trim_surrounded hfront' hback']
  | returns text =>
      rw [hsame, text, ContentLine.ofText_withReturns]
  | header lines lines' written written' letters spaces =>
      rw [hsame, ContentLine.ofText_of_hasLines lines, ContentLine.ofText_of_hasLines lines',
        ContentLine.collect_header_congr (Line.header?_eq_some_iff.mpr written)
          (Line.header?_eq_some_iff.mpr written') (Section.ofName_congr spaces letters)]

theorem parse_of_relaid (h : Relaid mode source source' added) :
    parse mode source' = (parse mode source).mapError (Error.renumber fun n => n + added n) := by
  induction h with
  | same => cases parse mode source <;> simp [Except.mapError, Error.renumber_id]
  | change earlier edit ih =>
      rw [parse_renumber _ edit.ofLines, ih]
      cases parse mode source with
      | ok d => rfl
      | error e =>
          simp only [Except.mapError, Error.renumber_renumber, Nat.add_assoc]

/-- A text is accepted in another layout exactly if it is accepted as it stands, and makes the same
definition. If it is refused then so is the other one, with the same error at the number that its
line has become. -/
theorem parse_relaid (h : Relaid mode source source' added) :
    (∀ d, parse mode source' = .ok d ↔ parse mode source = .ok d) ∧
      ∀ e, parse mode source = .error e →
        parse mode source' = .error (e.renumber fun n => n + added n) := by
  rw [parse_of_relaid h]
  constructor
  · intro d
    cases parse mode source <;> simp [Except.mapError]
  · intro e herror
    rw [herror]
    rfl

theorem hasLines_textOf {lines : List String} (h : ∀ line ∈ lines, '\n' ∉ line.toList) :
    Text.HasLines (Preset.textOf lines).toList (lines.map String.toList) := by
  right
  rw [Preset.textOf, String.toList_ofList, ← Text.splitOn_flatMap_lines, List.flatMap_map]
  simpa using h

theorem LayoutEdit.insert_textOf {before after : List String} {raw : String}
    (h : ∀ line ∈ before ++ raw :: after, '\n' ∉ line.toList)
    (idle : Line.IsIdle mode (Section.unknown.after (before.map String.toList))
      (Text.trim raw.toList)) :
    LayoutEdit mode (Preset.textOf (before ++ after)) (Preset.textOf (before ++ raw :: after))
      fun n => if before.length < n then 1 else 0 := by
  have hkept : ∀ line ∈ before ++ after, '\n' ∉ line.toList := by
    simp only [List.forall_mem_append, List.forall_mem_cons] at h ⊢
    exact ⟨h.1, h.2.2⟩
  have hlines := hasLines_textOf hkept
  have hlines' := hasLines_textOf h
  rw [List.map_append] at hlines hlines'
  have hlength : (before.map String.toList).length = before.length := List.length_map _
  rw [← hlength]
  exact .insert hlines hlines' idle

def brokenOff : List Char :=
  Text.trim "s, 0 -> 1".toList

theorem isIdle_brokenOff : Line.IsIdle .normal .transitions brokenOff := by
  have hheader : Line.header? brokenOff = none := by
    decide +kernel
  have hlength : (Text.splitArrows brokenOff).length = 2 := by
    decide +kernel
  have hsides : Line.plainSides brokenOff = [["s".toList, "0".toList], ["1".toList]] := by
    decide +kernel
  refine .shapeless ?_ rfl rfl ?_ ?_
  · intro name hname
    rw [Line.header?_eq_some_iff.mpr hname] at hheader
    contradiction
  · intro a b c htext
    have htwo := Text.two_lt_length_splitArrows_iff.mpr ⟨a, b, c, htext⟩
    omega
  · intro state read write move next hrule
    rw [Line.IsRule, hsides] at hrule
    simp at hrule

def tidy : String :=
  Preset.textOf ["[CONFIG]", "initial_state: s", "[TRANSITIONS]", "s, 0 -> 1, X, s"]

/-- The same text with a comment, a line without the shape of a rule, another header and carriage
returns. -/
def noisy : String :=
  String.ofList (Text.withReturns (Preset.textOf ["# note", "[ Config]", "initial_state: s",
    "[TRANSITIONS]", "s, 0 -> 1", "s, 0 -> 1, X, s"]).toList)

theorem noisy_parse_relaid :
    (∃ added, Relaid .normal tidy noisy added) ∧
      parse .normal tidy = .error (.invalidMove "X" (some 4)) ∧
      parse .normal noisy = .error (.invalidMove "X" (some 6)) := by
  have hnote : LayoutEdit .normal tidy _ _ :=
    @LayoutEdit.insert_textOf .normal [] ["[CONFIG]", "initial_state: s", "[TRANSITIONS]",
      "s, 0 -> 1, X, s"] "# note" (by decide +kernel) (.comment (by decide +kernel))
  have hplace : Section.unknown.after (["# note", "[CONFIG]", "initial_state: s",
      "[TRANSITIONS]"].map String.toList) = .transitions := by
    decide +kernel
  have hidle := hplace ▸ isIdle_brokenOff
  have hrule : LayoutEdit .normal _ _ _ :=
    @LayoutEdit.insert_textOf .normal ["# note", "[CONFIG]", "initial_state: s", "[TRANSITIONS]"]
      ["s, 0 -> 1, X, s"] "s, 0 -> 1" (by decide +kernel) hidle
  have hheader : LayoutEdit .normal (Preset.textOf ["# note", "[CONFIG]", "initial_state: s",
      "[TRANSITIONS]", "s, 0 -> 1", "s, 0 -> 1, X, s"]) (Preset.textOf ["# note", "[ Config]",
      "initial_state: s", "[TRANSITIONS]", "s, 0 -> 1", "s, 0 -> 1, X, s"]) fun _ => 0 := by
    refine @LayoutEdit.header _ _ _ ["# note".toList] _ "[CONFIG]".toList "[ Config]".toList
      "CONFIG".toList "Config".toList [] [] [' '] [] (hasLines_textOf ?_) (hasLines_textOf ?_)
      ?_ ?_ ?_ (List.forall_mem_singleton.mpr rfl)
    all_goals decide +kernel
  have hreturns : LayoutEdit .normal _ noisy fun _ => 0 :=
    .returns (String.toList_ofList)
  have hsame : Relaid .normal tidy tidy fun _ => 0 := .same
  have hrelaid := (((hsame.change hnote).change hrule).change hheader).change hreturns
  have htidy : parse .normal tidy = .error (.invalidMove "X" (some 4)) := by
    rw [tidy, Preset.textOf, parse, String.toList_ofList]
    decide +kernel
  exact ⟨⟨_, hrelaid⟩, htidy, (parse_relaid hrelaid).2 _ htidy⟩

end Definition

end TapeMachine
