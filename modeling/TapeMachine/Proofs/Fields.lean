import TapeMachine.Definition.Item

namespace TapeMachine

namespace Text

/-- A text denotes a number: decimal digits, after an optional plus sign. -/
def Denotes (s : List Char) (n : Nat) : Prop :=
  ∃ digits, digits ≠ [] ∧ (s = digits ∨ s = '+' :: digits) ∧
    (∀ c ∈ digits, c.isDigit = true) ∧ Nat.ofDigitChars 10 digits 0 = n

theorem digitValue?_eq_some_iff {c : Char} {d : Nat} :
    digitValue? c = some d ↔ c.isDigit = true ∧ c.toNat - '0'.toNat = d := by
  have hrange : ('0' ≤ c ∧ c ≤ '9') ↔ c.isDigit = true := Char.isDigit_iff_toNat.symm
  unfold digitValue?
  by_cases hdigit : c.isDigit = true
  · rw [if_pos (hrange.mpr hdigit)]
    simp [hdigit]
  · rw [if_neg (fun h => hdigit (hrange.mp h))]
    simp [hdigit]

theorem digitsValue?_eq_some_iff {value n : Nat} {digits : List Char} :
    digitsValue? value digits = some n ↔
      (∀ c ∈ digits, c.isDigit = true) ∧ Nat.ofDigitChars 10 digits value = n := by
  induction digits generalizing value with
  | nil => simp [digitsValue?]
  | cons c rest ih =>
      rw [digitsValue?, Option.bind_eq_some_iff, Nat.ofDigitChars_cons, List.forall_mem_cons]
      constructor
      · rintro ⟨d, hd, hrest⟩
        obtain ⟨hdigit, rfl⟩ := digitValue?_eq_some_iff.mp hd
        obtain ⟨hdigits, hvalue⟩ := ih.mp hrest
        exact ⟨⟨hdigit, hdigits⟩, hvalue⟩
      · rintro ⟨⟨hdigit, hdigits⟩, hvalue⟩
        exact ⟨_, digitValue?_eq_some_iff.mpr ⟨hdigit, rfl⟩, ih.mpr ⟨hdigits, hvalue⟩⟩

theorem readDigits?_cons {c : Char} (h : c ≠ '+') (rest : List Char) :
    readDigits? (c :: rest) = digitsValue? 0 (c :: rest) := by
  unfold readDigits?
  split
  · rename_i heq
    injection heq with hplus
    exact absurd hplus h
  · rename_i heq
    rw [heq]
  · contradiction

theorem readDigits?_eq_some_iff {s : List Char} {n : Nat} :
    readDigits? s = some n ↔ Denotes s n := by
  constructor
  · intro h
    unfold readDigits? at h
    split at h
    · rename_i c rest
      obtain ⟨hdigits, hvalue⟩ := digitsValue?_eq_some_iff.mp h
      exact ⟨c :: rest, List.cons_ne_nil c rest, .inr rfl, hdigits, hvalue⟩
    · rename_i c rest _
      obtain ⟨hdigits, hvalue⟩ := digitsValue?_eq_some_iff.mp h
      exact ⟨c :: rest, List.cons_ne_nil c rest, .inl rfl, hdigits, hvalue⟩
    · contradiction
  · rintro ⟨digits, hne, hs, hdigits, hvalue⟩
    obtain ⟨c, rest, rfl⟩ := List.exists_cons_of_ne_nil hne
    have hread := digitsValue?_eq_some_iff.mpr ⟨hdigits, hvalue⟩
    rcases hs with rfl | rfl
    · have hc : c ≠ '+' := by
        rintro rfl
        exact absurd (hdigits '+' List.mem_cons_self) (by decide)
      rw [readDigits?_cons hc]
      exact hread
    · exact hread

theorem readWord?_eq_some_iff {s : List Char} {n : Nat} :
    readWord? s = some n ↔ Denotes s n ∧ n < wordBound := by
  rw [readWord?, Option.filter_eq_some_iff, readDigits?_eq_some_iff, decide_eq_true_iff]

theorem toNat_lowerAscii {c : Char} (h : 'A' ≤ c ∧ c ≤ 'Z') :
    (lowerAscii c).toNat = c.toNat + 32 := by
  have hle : c.toNat ≤ 90 := h.2
  have hvalid : (c.toNat + 32).isValidChar := by
    left
    omega
  rw [lowerAscii, if_pos h, Char.ofNat, dif_pos hvalid]
  rfl

theorem eq_or_eq_of_lowerAscii {c d : Char} (hd : d.toNat + 32 = (lowerAscii d).toNat)
    (h : lowerAscii c = lowerAscii d) : c = d ∨ c = lowerAscii d := by
  by_cases hrange : 'A' ≤ c ∧ c ≤ 'Z'
  · rw [← h, toNat_lowerAscii hrange] at hd
    exact .inl (Char.toNat_inj.mp (Nat.add_right_cancel hd.symm))
  · exact .inr ((if_neg hrange).symm.trans h)

theorem exists_of_sameLetters_singleton {s : List Char} {d : Char}
    (h : sameLetters s [d] = true) : ∃ c, s = [c] ∧ lowerAscii c = lowerAscii d := by
  simp only [sameLetters, beq_iff_eq, List.map_cons, List.map_nil] at h
  cases s with
  | nil => contradiction
  | cons c rest =>
      injection h with hc hrest
      exact ⟨c, by rw [List.map_eq_nil_iff.mp hrest], hc⟩

end Text

theorem Move.ofToken?_eq_some_iff {token : List Char} {move : Move} :
    ofToken? token = some move ↔ Text.sameLetters token [move.letter] = true := by
  constructor
  · intro h
    unfold ofToken? at h
    split at h <;> cases h <;> rfl
  · intro h
    obtain ⟨c, rfl, hc⟩ := Text.exists_of_sameLetters_singleton h
    have hletter : move.letter.toNat + 32 = (Text.lowerAscii move.letter).toNat := by
      cases move <;> rfl
    rcases Text.eq_or_eq_of_lowerAscii hletter hc with rfl | rfl <;> cases move <;> rfl

theorem Move.ofToken?_eq_none_iff {token : List Char} :
    ofToken? token = none ↔ ∀ move : Move, ¬ Text.sameLetters token [move.letter] = true := by
  rw [Option.eq_none_iff_forall_ne_some]
  exact forall_congr' fun move => not_congr ofToken?_eq_some_iff

namespace Item

theorem readLimit?_eq_some_iff {value : List Char} {n : Nat} :
    readLimit? value = some n ↔ Text.Denotes value n ∧ 1 ≤ n ∧ n < Text.wordBound := by
  rw [readLimit?, Option.filter_eq_some_iff, Text.readWord?_eq_some_iff, decide_eq_true_iff]
  constructor
  · rintro ⟨⟨hdenotes, hlt⟩, hpos⟩
    exact ⟨hdenotes, hpos, hlt⟩
  · rintro ⟨hdenotes, hpos, hlt⟩
    exact ⟨⟨hdenotes, hlt⟩, hpos⟩

theorem readSymbol_of_short {field : List Char} (number : Nat) (h : field.length ≤ 1) :
    readSymbol number field = .ok field.head? := by
  match field, h with
  | [], _ => rfl
  | [c], _ => rfl

theorem readSymbol_of_long {field : List Char} (number : Nat) (h : 1 < field.length) :
    readSymbol number field = .error (.invalidSymbol (.ofList field) number) := by
  match field, h with
  | c :: d :: rest, _ => rfl

end Item

end TapeMachine
