import TapeMachine.Definition.Grammar
import TapeMachine.Proofs.Splitting

namespace TapeMachine

open TapeMachine.Text

namespace Line

variable {α : Type} {separator? : List Char → Option (List Char)}
  {item : List Char → α × List Char}

theorem separated_eq (n : Nat) (s : List Char) :
    separated separator? item n s =
      ((item s).1 :: (itemsFrom separator? item n [] (item s).2).1,
        (itemsFrom separator? item n [] (item s).2).2) :=
  itemsFrom_eq n [(item s).1] (item s).2

theorem itemsFrom_of_some {n : Nat} {s rest : List Char} (h : separator? s = some rest) :
    itemsFrom separator? item (n + 1) [] s = separated separator? item n rest := by
  simp only [itemsFrom, h]
  rfl

theorem comma?_eq_some_iff (s rest : List Char) : comma? s = some rest ↔ s = [','] ++ rest := by
  constructor
  · intro h
    unfold comma? at h
    split at h
    · injection h with h
      rw [h]
      rfl
    · contradiction
  · rintro rfl
    rfl

theorem arrow?_eq_some_iff (s rest : List Char) : arrow? s = some rest ↔ s = arrow ++ rest := by
  constructor
  · intro h
    unfold arrow? at h
    split at h
    · injection h with h
      rw [h]
      rfl
    · contradiction
  · rintro rfl
    rfl

theorem isSome_header?_iff (s : List Char) :
    (header? s).isSome = true ↔
      2 ≤ s.length ∧ s.head? = some '[' ∧ s.getLast? = some ']' := by
  rw [Option.isSome_iff_exists]
  constructor
  · rintro ⟨name, hname⟩
    obtain rfl := header?_eq_some_iff.mp hname
    refine ⟨by simp, rfl, ?_⟩
    rw [← List.cons_append, List.getLast?_concat]
  · rintro ⟨hlength, hfirst, hlast⟩
    obtain ⟨rest, rfl⟩ := List.head?_eq_some_iff.mp hfirst
    have hrest : rest ≠ [] := by
      rintro rfl
      simp at hlength
    rw [List.getLast?_cons_of_ne_nil hrest] at hlast
    obtain ⟨name, rfl⟩ := List.getLast?_eq_some_iff.mp hlast
    exact ⟨name, header?_eq_some_iff.mpr rfl⟩

theorem isSome_keyValue?_iff (s : List Char) : (keyValue? s).isSome = true ↔ ':' ∈ s := by
  rw [Option.isSome_iff_exists]
  constructor
  · rintro ⟨⟨key, value⟩, hentry⟩
    obtain ⟨before, after, rfl, -⟩ := keyValue?_eq_some_iff.mp hentry
    simp
  · intro hcolon
    obtain ⟨before, after, rfl, hnot⟩ := List.eq_append_cons_of_mem hcolon
    exact ⟨_, keyValue?_eq_some_iff.mpr ⟨before, after, rfl, hnot, rfl, rfl⟩⟩

end Line

namespace Grammar

open TapeMachine.Text.Expression

section UpTo

/-- `stop` reads something exactly where `test` holds of what follows. -/
def Detects (stop : Expression LinePart) (test : List Char → Bool) : Prop :=
  ∀ n s, ∃ r, stop.Reads n s r ∧ r.isSome = test s

variable {stop stop' : Expression LinePart} {test test' : List Char → Bool}

theorem detects_literal {text : List Char} (htest : ∀ s, test s = true ↔ text <+: s) :
    Detects (.literal text) test := by
  intro n s
  by_cases hprefix : text <+: s
  · obtain ⟨rest, happend⟩ := hprefix
    exact ⟨_, .literal happend.symm, ((htest s).mpr ⟨rest, happend⟩).symm⟩
  · exact ⟨_, .not_literal hprefix, (Bool.eq_false_iff.mpr (mt (htest s).mp hprefix)).symm⟩

theorem Detects.choice (h : Detects stop test) (h' : Detects stop' test') :
    Detects (.choice stop stop') fun s => test s || test' s := by
  intro n s
  obtain ⟨r, hreads, hsome⟩ := h n s
  cases r with
  | none =>
      obtain ⟨r', hreads', hsome'⟩ := h' n s
      exact ⟨r', .choice_second hreads hreads', by simp [← hsome, hsome']⟩
  | some a => exact ⟨some a, .choice_first hreads, by simp [← hsome]⟩

/-- A repetition that looks ahead at every character reads up to the first place where the test
holds, or to the end. -/
theorem reads_upTo (h : Detects stop test) (n : Nat) (s : List Char) :
    (upTo stop).Reads n s (some ⟨(Line.upTo test s).1, [], (Line.upTo test s).2⟩) := by
  induction s generalizing n with
  | nil =>
      obtain ⟨r, hreads, -⟩ := h n []
      cases r with
      | none => exact .many_done (.seq_second (.absent hreads) .not_any)
      | some a => exact .many_done (.seq_first (.not_absent hreads))
  | cons c s ih =>
      obtain ⟨r, hreads, hsome⟩ := h n (c :: s)
      cases r with
      | none =>
          rw [Line.upTo_of_not_stop (by simp [← hsome])]
          exact .many_more (.seq (.absent hreads) .any) (ih (n + 1))
      | some a =>
          rw [Line.upTo_of_stop (by simp [← hsome])]
          exact .many_done (.seq_first (.not_absent hreads))

end UpTo

theorem reads_anything (n : Nat) (s : List Char) :
    Reads (.many .any : Expression LinePart) n s (some ⟨s, [], []⟩) := by
  induction s generalizing n with
  | nil => exact .many_done .not_any
  | cons c s ih => exact .many_more .any (ih (n + 1))

theorem not_literal_of_head?_ne {c : Char} {n : Nat} {s : List Char} (h : s.head? ≠ some c) :
    Reads (.literal [c] : Expression LinePart) n s none := by
  refine .not_literal ?_
  rintro ⟨rest, rfl⟩
  exact h rfl

theorem detects_closing : Detects (.seq (.literal [']']) lineEnd) (· == [']']) := by
  intro n s
  cases s with
  | nil => exact ⟨none, .seq_first (not_literal_of_head?_ne (by simp)), rfl⟩
  | cons c rest =>
      by_cases hc : c = ']'
      · subst hc
        cases rest with
        | nil => exact ⟨_, .seq (.literal rfl) (.named .finish), rfl⟩
        | cons d rest =>
            exact ⟨none, .seq_second (.literal rfl) (.not_named .not_finish), by simp⟩
      · exact ⟨none, .seq_first (not_literal_of_head?_ne (by simpa using hc)), by simp [hc]⟩

theorem exists_parses_header (s : List Char) :
    ∃ tree?, header.Parses s tree? ∧ tree?.bind titleOf? = Line.header? s ∧
      tree?.isSome = (Line.header? s).isSome := by
  by_cases hopening : s.head? = some '['
  · obtain ⟨rest, rfl⟩ := List.head?_eq_some_iff.mp hopening
    have htitle := reads_upTo detects_closing 1 rest
    rcases hread : Line.upTo (· == [']']) rest with ⟨name, post⟩
    rw [hread] at htitle
    obtain ⟨-, rfl | hclosing, -⟩ := Line.upTo_eq_iff.mp hread
    · refine ⟨none, ⟨none, ?_, rfl⟩, ?_⟩
      · exact .not_named (.seq_second .start (.seq_second (.literal rfl)
          (.seq_second (.named htitle) (.seq_first (not_literal_of_head?_ne (by simp))))))
      · simp [Line.header?, hread]
    · obtain rfl := eq_of_beq hclosing
      have hheader : header.Reads 0 ('[' :: rest) (some _) :=
        .named (.seq .start (.seq (.literal rfl)
          (.seq (.named htitle) (.seq (.literal rfl) (.named .finish)))))
      refine ⟨_, ⟨_, hheader, rfl⟩, ?_⟩
      simp only [Line.header?, hread]
      exact ⟨rfl, rfl⟩
  · refine ⟨none, ⟨none, ?_, rfl⟩, ?_⟩
    · exact .not_named (.seq_second .start (.seq_first (not_literal_of_head?_ne hopening)))
    · cases hread : Line.header? s with
      | none => exact ⟨rfl, rfl⟩
      | some name =>
          rw [Line.header?_eq_some_iff.mp hread] at hopening
          exact absurd rfl hopening

theorem detects_colon : Detects (.literal [':']) (·.head? == some ':') := by
  refine detects_literal fun s => ?_
  cases s with
  | nil => simp
  | cons c rest => simp [List.cons_prefix_cons, eq_comm (a := c)]

theorem exists_parses_entry (s : List Char) :
    ∃ tree?, entry.Parses s tree? ∧ tree?.bind keyValueOf? = Line.keyValue? s ∧
      tree?.isSome = (Line.keyValue? s).isSome := by
  have hkey := reads_upTo detects_colon 0 s
  rcases hread : Line.upTo (·.head? == some ':') s with ⟨before, post⟩
  rw [hread] at hkey
  obtain ⟨-, rfl | hcolon, -⟩ := Line.upTo_eq_iff.mp hread
  · refine ⟨none, ⟨none, ?_, rfl⟩, ?_⟩
    · exact .not_named (.seq_second .start (.seq_second (.named hkey)
        (.seq_first (not_literal_of_head?_ne (by simp)))))
    · simp [Line.keyValue?, hread]
  · obtain ⟨after, rfl⟩ := List.head?_eq_some_iff.mp (eq_of_beq hcolon)
    have hentry : entry.Reads 0 s (some _) :=
      .named (.seq .start (.seq (.named hkey) (.seq (.literal rfl)
        (.seq (.named (reads_anything _ after)) (.named .finish)))))
    refine ⟨_, ⟨_, hentry, rfl⟩, ?_⟩
    simp only [Line.keyValue?, hread]
    exact ⟨rfl, rfl⟩

section Separated

variable {α : Type} {item : List Char → α × List Char} {name : LinePart}
  {f : ParseTree LinePart → α} {e : Expression LinePart} {m : Nat} {separator : List Char}
  {separator? : List Char → Option (List Char)}

/-- On texts of at most `m` characters `e` reads as far as `item` does, and what `item` returns is
the value `f` of the one tree named `name`. -/
def ReadsItem (name : LinePart) (f : ParseTree LinePart → α) (m : Nat) (e : Expression LinePart)
    (item : List Char → α × List Char) : Prop :=
  ∀ n s, s.length ≤ m → ∃ a, e.Reads n s (some a) ∧
    (ParseTree.select name a.trees).map f = [(item s).1] ∧ a.rest = (item s).2

theorem detects_separator
    (hseparator : ∀ s rest, separator? s = some rest ↔ s = separator ++ rest) :
    Detects (.literal separator) fun s => (separator? s).isSome := by
  refine detects_literal fun s => ?_
  rw [Option.isSome_iff_exists]
  exact exists_congr fun rest => (hseparator s rest).trans eq_comm

theorem reads_many_of_none {n : Nat} {s : List Char}
    (hseparator : ∀ s rest, separator? s = some rest ↔ s = separator ++ rest)
    (hnone : separator? s = none) :
    Reads (.many (.seq (.literal separator) e)) n s (some (.nothing s)) := by
  refine .many_done (.seq_first (.not_literal ?_))
  rintro ⟨rest, happend⟩
  rw [(hseparator s rest).mpr happend.symm] at hnone
  contradiction

theorem exists_reads_items (hitem : ReadsItem name f m e item) (hne : separator ≠ [])
    (hseparator : ∀ s rest, separator? s = some rest ↔ s = separator ++ rest) {k n : Nat}
    {s : List Char} (hm : s.length ≤ m) (hk : s.length ≤ k) :
    ∃ a, Reads (.many (.seq (.literal separator) e)) n s (some a) ∧
      (ParseTree.select name a.trees).map f = (Line.itemsFrom separator? item k [] s).1 ∧
      a.rest = (Line.itemsFrom separator? item k [] s).2 := by
  induction k generalizing n s with
  | zero =>
      obtain rfl := List.length_eq_zero_iff.mp (Nat.le_zero.mp hk)
      have hnone : separator? [] = none := by
        refine Option.eq_none_iff_forall_ne_some.mpr fun rest hsome => ?_
        exact hne (List.append_eq_nil_iff.mp ((hseparator [] rest).mp hsome).symm).1
      exact ⟨_, reads_many_of_none hseparator hnone, rfl, rfl⟩
  | succ k ih =>
      cases hsome : separator? s with
      | none =>
          refine ⟨_, reads_many_of_none hseparator hsome, ?_⟩
          simp [Line.itemsFrom, hsome, Reading.nothing]
      | some rest =>
          obtain rfl := (hseparator s rest).mp hsome
          have hpos := List.length_pos_iff.mpr hne
          rw [List.length_append] at hm hk
          obtain ⟨a, ha, hvalue, hrest⟩ := hitem (n + separator.length) rest (by omega)
          have hlength := congrArg List.length ha.append_rest
          rw [List.length_append] at hlength
          obtain ⟨b, hb, hvalues, hend⟩ := ih (n := n + (separator ++ a.text).length)
            (s := a.rest) (by omega) (by omega)
          rw [Line.itemsFrom_of_some hsome, Line.separated_eq, ← hrest]
          refine ⟨_, .many_more (.seq (.literal rfl) ha) hb, ?_, hend⟩
          simp [hvalue, hvalues]

/-- If the grammar reads an item as the reader of items does, it reads a list of them with
separators as the reader of such lists does. -/
theorem exists_reads_separated (hitem : ReadsItem name f m e item) (hne : separator ≠ [])
    (hseparator : ∀ s rest, separator? s = some rest ↔ s = separator ++ rest) {k n : Nat}
    {s : List Char} (hm : s.length ≤ m) (hk : s.length ≤ k) :
    ∃ a, (separated separator e).Reads n s (some a) ∧
      (ParseTree.select name a.trees).map f = (Line.separated separator? item k s).1 ∧
      a.rest = (Line.separated separator? item k s).2 := by
  obtain ⟨a, ha, hvalue, hrest⟩ := hitem n s hm
  have hlength := congrArg List.length ha.append_rest
  rw [List.length_append] at hlength
  obtain ⟨b, hb, hvalues, hend⟩ := exists_reads_items (k := k) (n := n + a.text.length)
    (s := a.rest) hitem hne hseparator (by omega) (by omega)
  rw [Line.separated_eq, ← hrest]
  refine ⟨_, .seq ha hb, ?_, hend⟩
  simp [hvalue, hvalues]

end Separated

theorem readsItem_field (m : Nat) :
    ReadsItem .field (fun tree => trim tree.text) m field Line.field := by
  intro n s _
  have hstop := (detects_separator Line.comma?_eq_some_iff).choice
    (detects_separator Line.arrow?_eq_some_iff)
  exact ⟨_, .named (reads_upTo hstop n s), rfl, rfl⟩

theorem readsItem_side (m : Nat) : ReadsItem .side fieldsOf m side (Line.side m) := by
  intro n s hm
  obtain ⟨a, ha, hfields, hrest⟩ := exists_reads_separated (readsItem_field m)
    (List.cons_ne_nil _ _) Line.comma?_eq_some_iff hm hm
  refine ⟨_, .named ha, congrArg (· :: []) ?_, hrest⟩
  exact (List.map_map ..).trans hfields

theorem exists_parses_ruleLine (s : List Char) :
    ∃ tree, ruleLine.Parses s (some tree) ∧ Line.sides? s = some (sidesOf tree) := by
  have hlength := Nat.le_refl s.length
  obtain ⟨⟨text, trees, rest⟩, hsequence, hsides, hrest⟩ := exists_reads_separated (n := 0)
    (readsItem_side s.length) (List.cons_ne_nil _ _) Line.arrow?_eq_some_iff hlength hlength
  rw [Line.separated_side_eq hlength hlength] at hsides hrest
  subst hrest
  have hline : ruleLine.Reads 0 s (some _) :=
    .named (.seq .start (.seq hsequence (.named .finish)))
  refine ⟨_, ⟨_, hline, rfl⟩, (Line.sides?_eq s).trans (congrArg some ?_)⟩
  calc
    _ = (ParseTree.select .side trees).map fieldsOf := hsides.symm
    _ = (ParseTree.select .side (trees ++ [.mk .lineEnd [] []])).map fieldsOf := by
      rw [ParseTree.select_append]
      exact congrArg (List.map fieldsOf) (List.append_nil _).symm

/-- The grammar comes to exactly one result on every line, and it is that of plain splitting. A
header is what stands between an opening and a closing bracket at the two ends, an entry is divided
at its first colon, and every line is divided into sides by its arrows and into fields by the commas
of its sides. -/
theorem splits_plainly (s : List Char) :
    (∃ tree?, (∀ t?, header.Parses s t? ↔ t? = tree?) ∧
      (tree?.isSome = true ↔ 2 ≤ s.length ∧ s.head? = some '[' ∧ s.getLast? = some ']') ∧
      (∀ name, tree?.bind titleOf? = some name ↔ s = '[' :: (name ++ [']'])) ∧
      Line.header? s = tree?.bind titleOf?) ∧
    (∃ tree?, (∀ t?, entry.Parses s t? ↔ t? = tree?) ∧
      (tree?.isSome = true ↔ ':' ∈ s) ∧
      (∀ key value, tree?.bind keyValueOf? = some (key, value) ↔
        ∃ before after, s = before ++ ':' :: after ∧ ':' ∉ before ∧
          trim before = key ∧ trim after = value) ∧
      Line.keyValue? s = tree?.bind keyValueOf?) ∧
    (∃ tree, (∀ t?, ruleLine.Parses s t? ↔ t? = some tree) ∧
      (∀ pieces, splitArrows s = pieces ↔ pieces ≠ [] ∧
        (∀ piece ∈ pieces, ¬ ['-', '>'] <:+: piece) ∧ ['-', '>'].intercalate pieces = s) ∧
      sidesOf tree = (splitArrows s).map (fun side => (side.splitOn ',').map trim) ∧
      Line.sides? s = some (sidesOf tree)) := by
  refine ⟨?_, ?_, ?_⟩
  · obtain ⟨tree?, hparses, htitle, hsome⟩ := exists_parses_header s
    refine ⟨tree?, hparses.iff, ?_, fun name => ?_, htitle.symm⟩
    · rw [hsome, Line.isSome_header?_iff]
    · rw [htitle, Line.header?_eq_some_iff]
  · obtain ⟨tree?, hparses, hkeyValue, hsome⟩ := exists_parses_entry s
    refine ⟨tree?, hparses.iff, ?_, fun key value => ?_, hkeyValue.symm⟩
    · rw [hsome, Line.isSome_keyValue?_iff]
    · rw [hkeyValue, Line.keyValue?_eq_some_iff]
      rfl
  · obtain ⟨tree, hparses, hsides⟩ := exists_parses_ruleLine s
    refine ⟨tree, hparses.iff, fun pieces => splitArrows_eq_iff, ?_, hsides⟩
    exact Option.some.inj (hsides.symm.trans (Line.sides?_eq s))

example : Line.sides? "-, >->->a-b,".toList =
    some [[['-'], ['>']], [[]], [['a', '-', 'b'], []]] := by
  decide

end Grammar

end TapeMachine
