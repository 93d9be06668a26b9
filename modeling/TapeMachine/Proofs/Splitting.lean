import TapeMachine.Definition.Line

namespace TapeMachine

/-- A list is divided at its first element or at one behind it. -/
theorem exists_eq_append_cons_iff {α : Type} {a : α} {rest : List α}
    {P : List α → α → List α → Prop} :
    (∃ before b after, a :: rest = before ++ b :: after ∧ P before b after) ↔
      P [] a rest ∨ ∃ before b after, rest = before ++ b :: after ∧ P (a :: before) b after := by
  constructor
  · rintro ⟨before, b, after, happend, h⟩
    cases before with
    | nil =>
        injection happend with ha hrest
        subst ha hrest
        exact .inl h
    | cons a' before =>
        injection happend with ha hrest
        subst ha
        exact .inr ⟨before, b, after, hrest, h⟩
  · rintro (h | ⟨before, b, after, rfl, h⟩)
    · exact ⟨[], a, rest, rfl, h⟩
    · exact ⟨a :: before, b, after, rfl, h⟩

namespace Text

def arrow : List Char := ['-', '>']

theorem noArrow_cons_iff {c : Char} {s : List Char} :
    ¬ arrow <:+: c :: s ↔ (∀ tail, c = '-' → s ≠ '>' :: tail) ∧ ¬ arrow <:+: s := by
  have hprefix : arrow <+: c :: s ↔ ∃ tail, c = '-' ∧ s = '>' :: tail := by
    constructor
    · rintro ⟨tail, htail⟩
      injection htail with hc hs
      exact ⟨tail, hc.symm, hs.symm⟩
    · rintro ⟨tail, rfl, rfl⟩
      exact ⟨tail, rfl⟩
  rw [List.infix_cons_iff, not_or, hprefix, not_exists]
  simp only [not_and, ne_eq]

theorem noArrow_append {s t : List Char} (hs : ¬ arrow <:+: s) (ht : ¬ arrow <:+: t)
    (hhead : t.head? ≠ some '>') : ¬ arrow <:+: s ++ t := by
  induction s with
  | nil => exact ht
  | cons c s ih =>
      obtain ⟨hfirst, hrest⟩ := noArrow_cons_iff.mp hs
      refine noArrow_cons_iff.mpr ⟨?_, ih hrest⟩
      intro tail hc htail
      cases s with
      | nil =>
          have hhead' : t.head? = some '>' := congrArg List.head? htail
          exact hhead hhead'
      | cons d s =>
          injection htail with hd
          exact hfirst s hc (by rw [hd])

theorem splitArrows_ne_nil (s : List Char) : splitArrows s ≠ [] := by
  induction s with
  | nil => simp
  | cons c rest ih =>
      by_cases harrow : ∃ tail, c = '-' ∧ rest = '>' :: tail
      · obtain ⟨tail, rfl, rfl⟩ := harrow
        simp
      · rw [splitArrows_cons fun tail hc hrest => harrow ⟨tail, hc, hrest⟩]
        simpa using ih

theorem splitArrows_append (s t : List Char) :
    splitArrows (s ++ '-' :: '>' :: t) = splitArrows s ++ splitArrows t := by
  match s with
  | [] => rfl
  | c :: rest =>
      by_cases harrow : ∃ tail, c = '-' ∧ rest = '>' :: tail
      · obtain ⟨tail, rfl, rfl⟩ := harrow
        exact congrArg ([] :: ·) (splitArrows_append tail t)
      · have hnot : ∀ tail, c = '-' → rest = '>' :: tail → False :=
          fun tail hc hrest => harrow ⟨tail, hc, hrest⟩
        have hlonger : ∀ tail, c = '-' → rest ++ '-' :: '>' :: t = '>' :: tail → False := by
          intro tail hc htail
          cases rest with
          | nil => simp at htail
          | cons d rest =>
              injection htail with hd
              exact hnot rest hc (by rw [hd])
        rw [List.cons_append, splitArrows_cons hlonger, splitArrows_cons hnot,
          splitArrows_append rest t]
        cases hsplit : splitArrows rest with
        | nil => exact absurd hsplit (splitArrows_ne_nil rest)
        | cons piece pieces => rfl

theorem splitArrows_of_noArrow {s : List Char} (h : ¬ arrow <:+: s) : splitArrows s = [s] := by
  induction s with
  | nil => rfl
  | cons c rest ih =>
      obtain ⟨hfirst, hrest⟩ := noArrow_cons_iff.mp h
      rw [splitArrows_cons hfirst, ih hrest]
      rfl

theorem exists_arrow_of_splitArrows {s piece next : List Char} {pieces : List (List Char)}
    (h : splitArrows s = piece :: next :: pieces) :
    ∃ t, s = piece ++ '-' :: '>' :: t ∧ splitArrows t = next :: pieces := by
  induction s generalizing piece with
  | nil => simp at h
  | cons c rest ih =>
      by_cases harrow : ∃ tail, c = '-' ∧ rest = '>' :: tail
      · obtain ⟨tail, rfl, rfl⟩ := harrow
        rw [splitArrows_arrow] at h
        injection h with hpiece hpieces
        exact ⟨tail, by rw [← hpiece]; rfl, hpieces⟩
      · rw [splitArrows_cons fun tail hc hrest => harrow ⟨tail, hc, hrest⟩] at h
        cases hsplit : splitArrows rest with
        | nil => exact absurd hsplit (splitArrows_ne_nil rest)
        | cons first others =>
            rw [hsplit] at h
            injection h with hpiece hpieces
            obtain ⟨t, rfl, ht⟩ := ih (hpieces ▸ hsplit)
            exact ⟨t, by rw [← hpiece]; rfl, ht⟩

theorem two_lt_length_splitArrows_iff {s : List Char} :
    2 < (splitArrows s).length ↔
      ∃ a b c, s = a ++ '-' :: '>' :: (b ++ '-' :: '>' :: c) := by
  constructor
  · intro hlength
    match hsplit : splitArrows s, hlength with
    | a :: b :: c :: pieces, _ =>
        obtain ⟨t, rfl, ht⟩ := exists_arrow_of_splitArrows hsplit
        obtain ⟨u, rfl, -⟩ := exists_arrow_of_splitArrows ht
        exact ⟨a, b, u, rfl⟩
  · rintro ⟨a, b, c, rfl⟩
    have ha := List.length_pos_iff.mpr (splitArrows_ne_nil a)
    have hb := List.length_pos_iff.mpr (splitArrows_ne_nil b)
    have hc := List.length_pos_iff.mpr (splitArrows_ne_nil c)
    rw [splitArrows_append, splitArrows_append, List.length_append, List.length_append]
    omega

theorem commaFields_append {s : List Char} (h : ',' ∉ s) (t : List Char) :
    commaFields (s ++ ',' :: t) = trim s :: commaFields t := by
  rw [commaFields, List.splitOn_append_cons_self_of_not_mem h]
  rfl

theorem commaFields_of_not_mem {s : List Char} (h : ',' ∉ s) : commaFields s = [trim s] := by
  rw [commaFields, List.splitOn_eq_singleton h]
  rfl

end Text

namespace Line

open TapeMachine.Text

variable {stop : List Char → Bool} {s pre post : List Char}

theorem upToFrom_eq (stop : List Char → Bool) (read s : List Char) :
    upToFrom stop read s = (read.reverse ++ (upTo stop s).1, (upTo stop s).2) := by
  unfold upTo
  induction s generalizing read with
  | nil => simp [upToFrom]
  | cons c rest ih =>
      unfold upToFrom
      by_cases hstop : stop (c :: rest) = true
      · simp [hstop]
      · rw [if_neg hstop, if_neg hstop, ih (c :: read), ih [c]]
        simp

theorem upTo_of_stop {c : Char} (h : stop (c :: s) = true) : upTo stop (c :: s) = ([], c :: s) :=
  if_pos h

theorem upTo_of_not_stop {c : Char} (h : ¬ stop (c :: s) = true) :
    upTo stop (c :: s) = (c :: (upTo stop s).1, (upTo stop s).2) :=
  (if_neg h).trans (upToFrom_eq stop [c] s)

theorem upTo_eq_iff :
    upTo stop s = (pre, post) ↔ s = pre ++ post ∧ (post = [] ∨ stop post = true) ∧
      ∀ rest, rest <:+ pre → rest ≠ [] → stop (rest ++ post) = false := by
  induction s generalizing pre with
  | nil =>
      constructor
      · intro h
        injection h with hpre hpost
        subst hpre hpost
        exact ⟨rfl, .inl rfl, fun rest hrest hne => absurd (List.suffix_nil.mp hrest) hne⟩
      · rintro ⟨happend, -, -⟩
        obtain ⟨rfl, rfl⟩ := List.append_eq_nil_iff.mp happend.symm
        rfl
  | cons c s ih =>
      by_cases hstop : stop (c :: s) = true
      · rw [upTo_of_stop hstop]
        constructor
        · intro h
          injection h with hpre hpost
          subst hpre hpost
          exact ⟨rfl, .inr hstop, fun rest hrest hne => absurd (List.suffix_nil.mp hrest) hne⟩
        · rintro ⟨happend, -, hbefore⟩
          cases pre with
          | nil => rw [happend, List.nil_append]
          | cons d pre =>
              have hfirst := hbefore (d :: pre) (List.suffix_refl _) (List.cons_ne_nil d pre)
              rw [← happend, hstop] at hfirst
              contradiction
      · rw [upTo_of_not_stop hstop]
        constructor
        · intro h
          injection h with hpre hpost
          obtain ⟨happend, hend, hbefore⟩ := ih.mp (Prod.ext rfl hpost)
          subst hpre
          refine ⟨congrArg (c :: ·) happend, hend, ?_⟩
          intro rest hrest hne
          rcases List.suffix_cons_iff.mp hrest with rfl | hrest
          · rw [List.cons_append, ← happend]
            simpa using hstop
          · exact hbefore rest hrest hne
        · rintro ⟨happend, hend, hbefore⟩
          cases pre with
          | nil =>
              rcases hend with rfl | hend
              · contradiction
              · rw [List.nil_append] at happend
                rw [happend] at hstop
                exact absurd hend hstop
          | cons d pre =>
              injection happend with hc happend
              have hrest : upTo stop s = (pre, post) := ih.mpr ⟨happend, hend,
                fun rest hrest hne => hbefore rest (List.suffix_cons_iff.mpr (.inr hrest)) hne⟩
              rw [hrest, hc]

theorem header?_eq_some_iff {name : List Char} :
    header? s = some name ↔ s = '[' :: (name ++ [']']) := by
  constructor
  · intro h
    unfold header? at h
    split at h
    · rename_i rest
      split at h
      · rename_i read hread
        injection h with hname
        subst hname
        rw [(upTo_eq_iff.mp hread).1]
      · contradiction
    · contradiction
  · rintro rfl
    have hread : upTo (· == [']']) (name ++ [']']) = (name, [']']) := by
      refine upTo_eq_iff.mpr ⟨rfl, .inr rfl, ?_⟩
      intro rest hrest hne
      cases rest with
      | nil => contradiction
      | cons c rest => simp
    simp [header?, hread]

/-- A text is an entry if it is divided by its first colon into a key and a value. -/
def IsEntry (s key value : List Char) : Prop :=
  ∃ before after, s = before ++ ':' :: after ∧ ':' ∉ before ∧ trim before = key ∧
    trim after = value

theorem upTo_colon_iff {before after : List Char} :
    upTo (·.head? == some ':') s = (before, ':' :: after) ↔
      s = before ++ ':' :: after ∧ ':' ∉ before := by
  rw [upTo_eq_iff]
  constructor
  · rintro ⟨happend, -, hbefore⟩
    refine ⟨happend, ?_⟩
    intro hmem
    obtain ⟨first, last, rfl⟩ := List.append_of_mem hmem
    have hcolon := hbefore (':' :: last) ⟨first, rfl⟩ (List.cons_ne_nil _ _)
    simp at hcolon
  · rintro ⟨happend, hnot⟩
    refine ⟨happend, .inr (by simp), ?_⟩
    intro rest hrest hne
    cases rest with
    | nil => contradiction
    | cons c rest =>
        have hmem : c ∈ before := hrest.subset List.mem_cons_self
        have hc : c ≠ ':' := fun h => hnot (h ▸ hmem)
        simpa using hc

theorem keyValue?_eq_some_iff {key value : List Char} :
    keyValue? s = some (key, value) ↔ IsEntry s key value := by
  constructor
  · intro h
    unfold keyValue? at h
    split at h
    · rename_i before after hread
      obtain ⟨happend, hnot⟩ := upTo_colon_iff.mp hread
      simp only [Option.some.injEq, Prod.mk.injEq] at h
      exact ⟨before, after, happend, hnot, h.1, h.2⟩
    · contradiction
  · rintro ⟨before, after, happend, hnot, rfl, rfl⟩
    simp [keyValue?, upTo_colon_iff.mpr ⟨happend, hnot⟩]

theorem IsEntry.unique {key value key' value' : List Char} (h : IsEntry s key value)
    (h' : IsEntry s key' value') : key = key' ∧ value = value' := by
  have hread := (keyValue?_eq_some_iff.mpr h).symm.trans (keyValue?_eq_some_iff.mpr h')
  exact Prod.mk.inj (Option.some.inj hread)

theorem field_eq (s : List Char) :
    ∃ text rest, s = text ++ rest ∧ ',' ∉ text ∧ ¬ arrow <:+: text ∧
      (rest = [] ∨ (∃ tail, rest = ',' :: tail) ∨ ∃ tail, rest = '-' :: '>' :: tail) ∧
      field s = (trim text, rest) := by
  rcases hread : upTo (fun s => (comma? s).isSome || (arrow? s).isSome) s with ⟨text, rest⟩
  obtain ⟨happend, hend, hbefore⟩ := upTo_eq_iff.mp hread
  refine ⟨text, rest, happend, ?_, ?_, ?_, by rw [field, hread]⟩
  · intro hmem
    obtain ⟨first, last, rfl⟩ := List.append_of_mem hmem
    have hcomma := hbefore (',' :: last) ⟨first, rfl⟩ (List.cons_ne_nil _ _)
    simp [comma?] at hcomma
  · rintro ⟨first, last, rfl⟩
    have harrow := hbefore ('-' :: '>' :: last) ⟨first, by simp [arrow]⟩ (List.cons_ne_nil _ _)
    simp [arrow?] at harrow
  · rcases hend with hend | hend
    · exact .inl hend
    · right
      rcases Bool.or_eq_true_iff.mp hend with hcomma | harrow
      · left
        unfold comma? at hcomma
        split at hcomma
        · exact ⟨_, rfl⟩
        · contradiction
      · right
        unfold arrow? at harrow
        split at harrow
        · exact ⟨_, rfl⟩
        · contradiction

section Separated

variable {α : Type} {separator? : List Char → Option (List Char)}
  {item : List Char → α × List Char}

theorem itemsFrom_eq (n : Nat) (items : List α) (s : List Char) :
    itemsFrom separator? item n items s =
      (items.reverse ++ (itemsFrom separator? item n [] s).1,
        (itemsFrom separator? item n [] s).2) := by
  induction n generalizing items s with
  | zero => simp [itemsFrom]
  | succ n ih =>
      unfold itemsFrom
      cases separator? s with
      | none => simp
      | some rest =>
          dsimp only
          rw [ih ((item rest).1 :: items), ih [(item rest).1]]
          simp

theorem separated_of_none {n : Nat} (h : separator? (item s).2 = none) :
    separated separator? item n s = ([(item s).1], (item s).2) := by
  cases n <;> simp [separated, itemsFrom, h]

theorem separated_of_some {n : Nat} {rest : List Char} (h : separator? (item s).2 = some rest) :
    separated separator? item (n + 1) s =
      ((item s).1 :: (separated separator? item n rest).1,
        (separated separator? item n rest).2) := by
  simp only [separated, itemsFrom, h]
  rw [itemsFrom_eq n [(item rest).1, (item s).1], itemsFrom_eq n [(item rest).1]]
  rfl

end Separated

/-- A side reaches to the first arrow, and its fields are the pieces between its commas. -/
theorem side_eq {n : Nat} (hn : s.length ≤ n) :
    ∃ text rest, s = text ++ rest ∧ ¬ arrow <:+: text ∧
      (rest = [] ∨ ∃ tail, rest = '-' :: '>' :: tail) ∧
      side n s = (commaFields text, rest) := by
  induction n generalizing s with
  | zero =>
      obtain rfl := List.length_eq_zero_iff.mp (Nat.le_zero.mp hn)
      exact ⟨[], [], rfl, by simp [arrow], .inl rfl, rfl⟩
  | succ n ih =>
      obtain ⟨text, rest, happend, hcomma, harrow, hend, hfield⟩ := field_eq s
      have hone : ∀ m, comma? rest = none → side m s = (commaFields text, rest) := by
        intro m hnone
        rw [side, separated_of_none (by rw [hfield]; exact hnone), hfield,
          commaFields_of_not_mem hcomma]
      rcases hend with rfl | ⟨tail, rfl⟩ | ⟨tail, rfl⟩
      · exact ⟨text, [], happend, harrow, .inl rfl, hone _ rfl⟩
      · have hlength : tail.length ≤ n := by
          rw [happend, List.length_append, List.length_cons] at hn
          omega
        obtain ⟨text', rest, htail, harrow', hend, hside⟩ := ih hlength
        refine ⟨text ++ ',' :: text', rest, ?_, ?_, hend, ?_⟩
        · rw [happend, htail, List.append_assoc]
          rfl
        · exact noArrow_append harrow
            (noArrow_cons_iff.mpr ⟨fun _ h => absurd h (by decide), harrow'⟩) (by simp)
        · have hmore : side (n + 1) s = (trim text :: (side n tail).1, (side n tail).2) := by
            have hnext : comma? (field s).2 = some tail := by
              rw [hfield]
              rfl
            rw [side, separated_of_some hnext, hfield]
            rfl
          rw [hmore, hside, commaFields_append hcomma]
      · exact ⟨text, _, happend, harrow, .inr ⟨tail, rfl⟩, hone _ rfl⟩

/-- The sides of a line as plain splitting gives them. -/
def plainSides (s : List Char) : List (List (List Char)) :=
  (splitArrows s).map commaFields

theorem separated_side_eq {n k : Nat} (hn : s.length ≤ n) (hk : s.length ≤ k) :
    separated arrow? (side n) k s = (plainSides s, []) := by
  induction k generalizing s with
  | zero =>
      obtain rfl := List.length_eq_zero_iff.mp (Nat.le_zero.mp hk)
      obtain ⟨text, rest, happend, -, -, hside⟩ := side_eq hn
      obtain ⟨rfl, rfl⟩ := List.append_eq_nil_iff.mp happend.symm
      rw [separated_of_none (by rw [hside]; rfl), hside]
      rfl
  | succ k ih =>
      obtain ⟨text, rest, rfl, harrow, hend, hside⟩ := side_eq hn
      have hsplit := splitArrows_of_noArrow harrow
      rcases hend with rfl | ⟨tail, rfl⟩
      · rw [separated_of_none (by rw [hside]; rfl), hside, plainSides, List.append_nil, hsplit]
        rfl
      · have hmore : plainSides (text ++ '-' :: '>' :: tail) =
            commaFields text :: plainSides tail := by
          rw [plainSides, splitArrows_append, hsplit]
          rfl
        rw [List.length_append, List.length_cons, List.length_cons] at hn hk
        have hnext : arrow? (side n (text ++ '-' :: '>' :: tail)).2 = some tail := by
          rw [hside]
          rfl
        rw [separated_of_some hnext, hside, ih (by omega) (by omega), hmore]

theorem sides?_eq (s : List Char) : sides? s = some (plainSides s) := by
  simp [sides?, separated_side_eq (Nat.le_refl s.length) (Nat.le_refl s.length)]

end Line

namespace Text

theorem noArrow_or_first_arrow (s : List Char) :
    ¬ arrow <:+: s ∨ ∃ lhs rhs, s = lhs ++ '-' :: '>' :: rhs ∧ ¬ arrow <:+: lhs := by
  obtain ⟨text, rest, rfl, hnone, rfl | ⟨tail, rfl⟩, -⟩ := Line.side_eq (Nat.le_refl s.length)
  · rw [List.append_nil]
    exact .inl hnone
  · exact .inr ⟨text, tail, rfl, hnone⟩

/-- Induction from what follows the first arrow of a text to the text. -/
theorem arrow_induction {P : List Char → Prop} (hnone : ∀ s, ¬ arrow <:+: s → P s)
    (hfirst : ∀ lhs rhs, ¬ arrow <:+: lhs → P rhs → P (lhs ++ '-' :: '>' :: rhs))
    (s : List Char) : P s := by
  induction hlength : s.length using Nat.strongRecOn generalizing s with
  | ind n ih =>
      rcases noArrow_or_first_arrow s with hs | ⟨lhs, rhs, rfl, hlhs⟩
      · exact hnone s hs
      · have hshorter : rhs.length < n := by
          rw [← hlength, List.length_append, List.length_cons, List.length_cons]
          omega
        exact hfirst lhs rhs hlhs (ih rhs.length hshorter rhs rfl)

theorem splitArrows_of_first {lhs : List Char} (h : ¬ arrow <:+: lhs) (rhs : List Char) :
    splitArrows (lhs ++ '-' :: '>' :: rhs) = lhs :: splitArrows rhs := by
  rw [splitArrows_append, splitArrows_of_noArrow h]
  rfl

theorem noArrow_of_mem_splitArrows {s piece : List Char} (h : piece ∈ splitArrows s) :
    ¬ arrow <:+: piece ∧ piece <:+: s := by
  induction s using arrow_induction with
  | hnone s hs =>
      rw [splitArrows_of_noArrow hs] at h
      obtain rfl := List.mem_singleton.mp h
      exact ⟨hs, List.infix_refl piece⟩
  | hfirst lhs rhs hlhs ih =>
      rw [splitArrows_of_first hlhs] at h
      rcases List.mem_cons.mp h with rfl | h
      · exact ⟨hlhs, (List.prefix_append _ _).isInfix⟩
      · obtain ⟨hpiece, hinside⟩ := ih h
        exact ⟨hpiece, hinside.trans ⟨lhs ++ ['-', '>'], [], by simp⟩⟩

theorem intercalate_splitArrows (s : List Char) : arrow.intercalate (splitArrows s) = s := by
  induction s using arrow_induction with
  | hnone s hs => rw [splitArrows_of_noArrow hs, List.intercalate_singleton]
  | hfirst lhs rhs hlhs ih =>
      rw [splitArrows_of_first hlhs, List.intercalate_cons_of_ne_nil (splitArrows_ne_nil rhs), ih,
        List.append_assoc]
      rfl

/-- The pieces of a text are the only texts without an arrow that make up the text when arrows are
put between them. -/
theorem splitArrows_eq_iff {s : List Char} {pieces : List (List Char)} :
    splitArrows s = pieces ↔
      pieces ≠ [] ∧ (∀ piece ∈ pieces, ¬ arrow <:+: piece) ∧ arrow.intercalate pieces = s := by
  constructor
  · rintro rfl
    exact ⟨splitArrows_ne_nil s, fun piece h => (noArrow_of_mem_splitArrows h).1,
      intercalate_splitArrows s⟩
  · rintro ⟨hne, hpieces, rfl⟩
    induction pieces with
    | nil => contradiction
    | cons piece pieces ih =>
        obtain ⟨hpiece, hpieces⟩ := List.forall_mem_cons.mp hpieces
        by_cases hmore : pieces = []
        · rw [hmore, List.intercalate_singleton, splitArrows_of_noArrow hpiece]
        · rw [List.intercalate_cons_of_ne_nil hmore, List.append_assoc]
          exact (splitArrows_of_first hpiece _).trans (congrArg (piece :: ·) (ih hmore hpieces))

end Text

end TapeMachine
