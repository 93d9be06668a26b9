import TapeMachine.Proofs.Fields
import TapeMachine.Proofs.Splitting

namespace TapeMachine

namespace Line

/-- A line has the shape of a rule if it divides into two and three fields around one arrow. -/
def IsRule (s state read write move next : List Char) : Prop :=
  plainSides s = [[state, read], [write, move, next]]

def entryOf? (s : List Char) : Option (String × String) :=
  (keyValue? s).map fun (key, value) => (.ofList key, .ofList value)

theorem entryOf?_eq_some_iff {s : List Char} {key value : String} :
    entryOf? s = some (key, value) ↔ IsEntry s key.toList value.toList := by
  rw [entryOf?, Option.map_eq_some_iff, ← keyValue?_eq_some_iff]
  constructor
  · rintro ⟨⟨key', value'⟩, hread, heq⟩
    obtain ⟨rfl, rfl⟩ := Prod.mk.inj heq
    rw [hread, String.toList_ofList, String.toList_ofList]
  · intro hread
    exact ⟨_, hread, by simp⟩

theorem keyValue?_cases (s : List Char) :
    (∃ key value, IsEntry s key value ∧ keyValue? s = some (key, value) ∧
        entryOf? s = some (.ofList key, .ofList value)) ∨
      (keyValue? s = none ∧ entryOf? s = none) := by
  cases h : keyValue? s with
  | none => exact .inr ⟨rfl, by simp [entryOf?, h]⟩
  | some entry =>
      exact .inl ⟨entry.1, entry.2, keyValue?_eq_some_iff.mp h, rfl, by simp [entryOf?, h]⟩

end Line

/-- What is wrong with a content line in itself. A rule line is refused for its shape first, then
for its move, and then for the first of its symbols that is too long. -/
inductive Defect (mode : Mode) (l : ContentLine) : Error → Prop
  | blank {value : List Char} (place : l.place = .config)
      (entry : Line.IsEntry l.text "blank_symbol".toList value) (long : 1 < value.length) :
      Defect mode l (.invalidSymbol (.ofList value) l.number)
  | ceiling {value : List Char} (place : l.place = .config)
      (entry : Line.IsEntry l.text "max_steps".toList value)
      (invalid : ∀ n, 1 ≤ n → n < Text.wordBound → ¬ Text.Denotes value n) :
      Defect mode l (.invalidSetting "max_steps" (.ofList value))
  | arrows {a b c : List Char} (place : l.place = .transitions)
      (text : l.text = a ++ '-' :: '>' :: (b ++ '-' :: '>' :: c)) :
      Defect mode l (.malformedRule l.number (.ofList l.text))
  | shape (strict : mode = .strict) (place : l.place = .transitions)
      (shapeless : ∀ state read write move next,
        ¬ Line.IsRule l.text state read write move next) :
      Defect mode l (.malformedRule l.number (.ofList l.text))
  | move {state read write move next : List Char} (place : l.place = .transitions)
      (rule : Line.IsRule l.text state read write move next)
      (unknown : ∀ m : Move, ¬ Text.sameLetters move [m.letter] = true) :
      Defect mode l (.invalidMove (.ofList move) (some l.number))
  | read {state read write move next : List Char} {m : Move} (place : l.place = .transitions)
      (rule : Line.IsRule l.text state read write move next)
      (known : Text.sameLetters move [m.letter] = true) (long : 1 < read.length) :
      Defect mode l (.invalidSymbol (.ofList read) l.number)
  | write {state read write move next : List Char} {m : Move} (place : l.place = .transitions)
      (rule : Line.IsRule l.text state read write move next)
      (known : Text.sameLetters move [m.letter] = true) (short : read.length ≤ 1)
      (long : 1 < write.length) :
      Defect mode l (.invalidSymbol (.ofList write) l.number)

/-- The rule that a line holds, if it has the shape of one and names a move. -/
def RuleLine.ofText? (number : Nat) (s : List Char) : Option RuleLine :=
  match Line.plainSides s with
  | [[state, read], [write, move, next]] =>
      (Move.ofToken? move).map fun move =>
        ⟨number, .ofList state, read.head?, write.head?, move, .ofList next⟩
  | _ => none

namespace Item

/-- What an entry of the configuration says if nothing is wrong with it. -/
def ofConfig (key value : String) : List Item :=
  if key = "accept_states" then [.accept (listOf value.toList)]
  else if key = "reject_states" then [.reject (listOf value.toList)]
  else if key = "blank_symbol" then [.blank value.toList.head?, .setting key value]
  else if key = "max_steps" then
    [.ceiling ((readLimit? value.toList).getD 0), .setting key value]
  else [.setting key value]

end Item

/-- What a content line says if nothing is wrong with it. -/
def ContentLine.items (l : ContentLine) : List Item :=
  match l.place with
  | .metadata => (Line.entryOf? l.text).toList.map fun (key, value) => .metadata key value
  | .config => (Line.entryOf? l.text).toList.flatMap fun (key, value) => Item.ofConfig key value
  | .alphabet =>
      (Line.entryOf? l.text).toList.map fun (key, value) => .alphabet key (Item.listOf value.toList)
  | .transitions => (RuleLine.ofText? l.number l.text).toList.map .rule
  | .input => [.input (.ofList l.text)]
  | .unknown => []

namespace Item

variable {mode : Mode} {number : Nat} {text : List Char}

theorem ofRuleLine_of_isRule {state read write move next : List Char}
    (h : Line.IsRule text state read write move next) :
    ofRuleLine mode number text = ofFields number state read write move next := by
  unfold Line.IsRule at h
  simp only [ofRuleLine, Line.sides?_eq, h]

theorem ofRuleLine_of_arrows (h : 2 < (Line.plainSides text).length) :
    ofRuleLine mode number text = .error (.malformedRule number (.ofList text)) := by
  simp only [ofRuleLine, Line.sides?_eq]
  split
  · rename_i heq
    simp [Option.some.inj heq] at h
  · rename_i heq
    simp [Option.some.inj heq] at h
  · rename_i heq
    simp [Option.some.inj heq] at h
  · rfl

theorem ofRuleLine_of_shapeless (hlength : ¬ 2 < (Line.plainSides text).length)
    (h : ∀ state read write move next, ¬ Line.IsRule text state read write move next) :
    ofRuleLine mode number text =
      if mode = .strict then .error (.malformedRule number (.ofList text)) else .ok [] := by
  simp only [ofRuleLine, Line.sides?_eq]
  split
  · rename_i heq
    exact absurd (Option.some.inj heq) (h _ _ _ _ _)
  · cases mode <;> rfl
  · cases mode <;> rfl
  · rename_i hone htwo
    rcases hsides : Line.plainSides text with _ | ⟨lhs, _ | ⟨rhs, _ | ⟨side, sides⟩⟩⟩
    · have hne := Text.splitArrows_ne_nil text
      exact absurd (List.map_eq_nil_iff.mp hsides) hne
    · exact absurd (congrArg some hsides) (hone lhs)
    · exact absurd (congrArg some hsides) (htwo lhs rhs)
    · simp [hsides] at hlength

theorem ofFields_of_unknown {state read write move next : List Char}
    (h : Move.ofToken? move = none) :
    ofFields number state read write move next =
      .error (.invalidMove (.ofList move) (some number)) := by
  simp only [ofFields, h]

theorem ofFields_of_long_read {state read write move next : List Char} {m : Move}
    (hmove : Move.ofToken? move = some m) (hread : 1 < read.length) :
    ofFields number state read write move next =
      .error (.invalidSymbol (.ofList read) number) := by
  simp only [ofFields, hmove, readSymbol_of_long number hread]
  rfl

theorem ofFields_of_long_write {state read write move next : List Char} {m : Move}
    (hmove : Move.ofToken? move = some m) (hread : read.length ≤ 1) (hwrite : 1 < write.length) :
    ofFields number state read write move next =
      .error (.invalidSymbol (.ofList write) number) := by
  simp only [ofFields, hmove, readSymbol_of_short number hread, readSymbol_of_long number hwrite]
  rfl

theorem ofFields_of_short {state read write move next : List Char} {m : Move}
    (hmove : Move.ofToken? move = some m) (hread : read.length ≤ 1) (hwrite : write.length ≤ 1) :
    ofFields number state read write move next =
      .ok [.rule ⟨number, .ofList state, read.head?, write.head?, m, .ofList next⟩] := by
  simp only [ofFields, hmove, readSymbol_of_short number hread,
    readSymbol_of_short number hwrite]
  rfl

theorem ofSetting_cases (number : Nat) (key : String) (value : List Char) :
    (key = "blank_symbol" ∧ 1 < value.length) ∨ (key = "max_steps" ∧ readLimit? value = none) ∨
      ofSetting number key value = .ok (ofConfig key (.ofList value)) := by
  unfold ofSetting ofConfig
  rw [String.toList_ofList]
  split
  · exact .inr (.inr rfl)
  split
  · exact .inr (.inr rfl)
  split
  · rename_i hkey
    rcases Nat.lt_or_ge 1 value.length with hlong | hshort
    · exact .inl ⟨hkey, hlong⟩
    · rw [readSymbol_of_short number hshort]
      exact .inr (.inr rfl)
  split
  · rename_i hkey
    right
    cases hlimit : readLimit? value with
    | none => exact .inl ⟨hkey, rfl⟩
    | some limit => exact .inr rfl
  · exact .inr (.inr rfl)

end Item

theorem RuleLine.ofText?_of_isRule {s state read write move next : List Char}
    (h : Line.IsRule s state read write move next) (number : Nat) :
    ofText? number s = (Move.ofToken? move).map fun move =>
      ⟨number, .ofList state, read.head?, write.head?, move, .ofList next⟩ := by
  unfold Line.IsRule at h
  simp only [ofText?, h]

theorem RuleLine.ofText?_of_shapeless {s : List Char}
    (h : ∀ state read write move next, ¬ Line.IsRule s state read write move next)
    (number : Nat) : ofText? number s = none := by
  unfold ofText?
  split
  · rename_i hsides
    exact absurd hsides (h _ _ _ _ _)
  · rfl

namespace Defect

variable {mode : Mode} {l : ContentLine} {e : Error}

theorem ofLine (h : Defect mode l e) : Item.ofLine mode l = .error e := by
  cases h with
  | blank place entry long =>
      simp only [Item.ofLine, place, Line.keyValue?_eq_some_iff.mpr entry, String.ofList_toList,
        Item.ofSetting, Item.readSymbol_of_long l.number long]
      rfl
  | @ceiling value place entry invalid =>
      have hlimit : Item.readLimit? value = none := by
        rw [Option.eq_none_iff_forall_ne_some]
        intro n hn
        obtain ⟨hdenotes, hpos, hlt⟩ := Item.readLimit?_eq_some_iff.mp hn
        exact invalid n hpos hlt hdenotes
      simp only [Item.ofLine, place, Line.keyValue?_eq_some_iff.mpr entry, String.ofList_toList,
        Item.ofSetting, hlimit]
      rfl
  | arrows place text =>
      have hlength : 2 < (Line.plainSides l.text).length := by
        rw [Line.plainSides, List.length_map]
        exact Text.two_lt_length_splitArrows_iff.mpr ⟨_, _, _, text⟩
      simp only [Item.ofLine, place, Item.ofRuleLine_of_arrows hlength]
  | shape strict place shapeless =>
      simp only [Item.ofLine, place]
      by_cases hlength : 2 < (Line.plainSides l.text).length
      · exact Item.ofRuleLine_of_arrows hlength
      · rw [Item.ofRuleLine_of_shapeless hlength shapeless, if_pos strict]
  | move place rule unknown =>
      simp only [Item.ofLine, place, Item.ofRuleLine_of_isRule rule,
        Item.ofFields_of_unknown (Move.ofToken?_eq_none_iff.mpr unknown)]
  | read place rule known long =>
      simp only [Item.ofLine, place, Item.ofRuleLine_of_isRule rule,
        Item.ofFields_of_long_read (Move.ofToken?_eq_some_iff.mpr known) long]
  | write place rule known short long =>
      simp only [Item.ofLine, place, Item.ofRuleLine_of_isRule rule,
        Item.ofFields_of_long_write (Move.ofToken?_eq_some_iff.mpr known) short long]

theorem or_ofLine_config (place : l.place = .config) :
    (∃ e, Defect mode l e) ∨ Item.ofLine mode l = .ok l.items := by
  rcases Line.keyValue?_cases l.text with ⟨key, value, hentry, hread, hitem⟩ | ⟨hread, hitem⟩
  · rcases Item.ofSetting_cases l.number (.ofList key) value with
      ⟨hkey, hlong⟩ | ⟨hkey, hlimit⟩ | hok
    · obtain rfl : key = "blank_symbol".toList := by rw [← hkey, String.toList_ofList]
      exact .inl ⟨_, .blank place hentry hlong⟩
    · obtain rfl : key = "max_steps".toList := by rw [← hkey, String.toList_ofList]
      refine .inl ⟨_, .ceiling place hentry ?_⟩
      intro n hpos hlt hdenotes
      rw [Item.readLimit?_eq_some_iff.mpr ⟨hdenotes, hpos, hlt⟩] at hlimit
      contradiction
    · right
      simp [Item.ofLine, ContentLine.items, place, hread, hitem, hok]
  · right
    simp [Item.ofLine, ContentLine.items, place, hread, hitem]

theorem or_ofLine_transitions (place : l.place = .transitions) :
    (∃ e, Defect mode l e) ∨ Item.ofLine mode l = .ok l.items := by
  by_cases hrule : ∃ state read write move next,
    Line.IsRule l.text state read write move next
  · obtain ⟨state, read, write, move, next, hrule⟩ := hrule
    cases hmove : Move.ofToken? move with
    | none => exact .inl ⟨_, .move place hrule (Move.ofToken?_eq_none_iff.mp hmove)⟩
    | some m =>
        have hknown := Move.ofToken?_eq_some_iff.mp hmove
        rcases Nat.lt_or_ge 1 read.length with hread | hread
        · exact .inl ⟨_, .read place hrule hknown hread⟩
        rcases Nat.lt_or_ge 1 write.length with hwrite | hwrite
        · exact .inl ⟨_, .write place hrule hknown hread hwrite⟩
        · right
          simp [Item.ofLine, ContentLine.items, place, Item.ofRuleLine_of_isRule hrule,
            RuleLine.ofText?_of_isRule hrule, hmove, Item.ofFields_of_short hmove hread hwrite]
  · have hshapeless : ∀ state read write move next,
        ¬ Line.IsRule l.text state read write move next :=
      fun state read write move next h => hrule ⟨state, read, write, move, next, h⟩
    by_cases hlength : 2 < (Line.plainSides l.text).length
    · rw [Line.plainSides, List.length_map] at hlength
      obtain ⟨a, b, c, htext⟩ := Text.two_lt_length_splitArrows_iff.mp hlength
      exact .inl ⟨_, .arrows place htext⟩
    · cases mode with
      | strict => exact .inl ⟨_, .shape rfl place hshapeless⟩
      | normal =>
          right
          simp [Item.ofLine, ContentLine.items, place,
            Item.ofRuleLine_of_shapeless hlength hshapeless,
            RuleLine.ofText?_of_shapeless hshapeless]

/-- A line without a defect says what plain splitting finds in it. -/
theorem or_ofLine (mode : Mode) (l : ContentLine) :
    (∃ e, Defect mode l e) ∨ Item.ofLine mode l = .ok l.items := by
  cases hplace : l.place with
  | config => exact or_ofLine_config hplace
  | transitions => exact or_ofLine_transitions hplace
  | metadata =>
      right
      rcases Line.keyValue?_cases l.text with ⟨key, value, -, hread, hitem⟩ | ⟨hread, hitem⟩ <;>
        simp [Item.ofLine, ContentLine.items, hplace, hread, hitem]
  | alphabet =>
      right
      rcases Line.keyValue?_cases l.text with ⟨key, value, -, hread, hitem⟩ | ⟨hread, hitem⟩ <;>
        simp [Item.ofLine, ContentLine.items, hplace, hread, hitem]
  | input => exact .inr (by simp [Item.ofLine, ContentLine.items, hplace])
  | unknown => exact .inr (by simp [Item.ofLine, ContentLine.items, hplace])

theorem ofLine_eq_error_iff : Item.ofLine mode l = .error e ↔ Defect mode l e := by
  constructor
  · intro herror
    rcases or_ofLine mode l with ⟨e', hdefect⟩ | hok
    · have heq := hdefect.ofLine.symm.trans herror
      injection heq with heq
      exact heq ▸ hdefect
    · rw [hok] at herror
      contradiction
  · exact Defect.ofLine

theorem ofLine_eq_ok_iff {items : List Item} :
    Item.ofLine mode l = .ok items ↔ (∀ e, ¬ Defect mode l e) ∧ items = l.items := by
  constructor
  · intro hok
    rcases or_ofLine mode l with ⟨e, hdefect⟩ | hitems
    · rw [hdefect.ofLine] at hok
      contradiction
    · refine ⟨?_, (Except.ok.inj (hitems.symm.trans hok)).symm⟩
      intro e hdefect
      rw [hdefect.ofLine] at hok
      contradiction
  · rintro ⟨hnone, rfl⟩
    rcases or_ofLine mode l with ⟨e, hdefect⟩ | hitems
    · exact absurd hdefect (hnone e)
    · exact hitems

end Defect

end TapeMachine
