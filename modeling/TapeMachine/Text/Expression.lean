/-!
Parsing expressions: grammars of texts that are read from left to right. A choice tries its second
branch only where the first one fails, a repetition goes on for as long as it can, and neither is
taken back for the sake of what follows. Looking ahead for an absent expression reads nothing.
-/

namespace TapeMachine.Text

/-- What a named expression has read, and the trees of the named expressions inside it. -/
inductive ParseTree (ν : Type) where
  | mk (name : ν) (text : List Char) (children : List (ParseTree ν))

namespace ParseTree

variable {ν : Type}

def name : ParseTree ν → ν
  | mk name _ _ => name

def text : ParseTree ν → List Char
  | mk _ text _ => text

def children : ParseTree ν → List (ParseTree ν)
  | mk _ _ children => children

def select [DecidableEq ν] (name : ν) (trees : List (ParseTree ν)) : List (ParseTree ν) :=
  trees.filter fun tree => tree.name = name

@[simp] theorem select_nil [DecidableEq ν] (name : ν) : select name [] = [] := rfl

@[simp] theorem select_append [DecidableEq ν] (name : ν) (trees trees' : List (ParseTree ν)) :
    select name (trees ++ trees') = select name trees ++ select name trees' :=
  List.filter_append _ _

end ParseTree

/-- A successful reading: the text that is read, its trees, and what follows. -/
structure Reading (ν : Type) where
  text : List Char
  trees : List (ParseTree ν)
  rest : List Char

namespace Reading

variable {ν : Type}

def nothing (s : List Char) : Reading ν :=
  ⟨[], [], s⟩

/-- A reading and the one that goes on behind it. -/
def append (a b : Reading ν) : Reading ν :=
  ⟨a.text ++ b.text, a.trees ++ b.trees, b.rest⟩

def named (name : ν) (a : Reading ν) : Reading ν :=
  ⟨a.text, [.mk name a.text a.trees], a.rest⟩

@[simp] theorem append_trees (a b : Reading ν) : (a.append b).trees = a.trees ++ b.trees := rfl

@[simp] theorem named_rest (name : ν) (a : Reading ν) : (a.named name).rest = a.rest := rfl

end Reading

/-- A parsing expression with names from `ν`. -/
inductive Expression (ν : Type) where
  | start
  | finish
  | any
  | literal (text : List Char)
  | seq (first second : Expression ν)
  | choice (first second : Expression ν)
  | many (body : Expression ν)
  | absent (body : Expression ν)
  | named (name : ν) (body : Expression ν)

namespace Expression

variable {ν : Type}

/-- `e.Reads n s r`: behind the first `n` characters of a text, where `s` follows, `e` comes to the
result `r`, which is `none` if `e` fails. -/
inductive Reads : Expression ν → Nat → List Char → Option (Reading ν) → Prop
  | start {s} : Reads .start 0 s (some (.nothing s))
  | not_start {n s} : Reads .start (n + 1) s none
  | finish {n} : Reads .finish n [] (some (.nothing []))
  | not_finish {n c s} : Reads .finish n (c :: s) none
  | any {n c s} : Reads .any n (c :: s) (some ⟨[c], [], s⟩)
  | not_any {n} : Reads .any n [] none
  | literal {n text s rest} (happend : s = text ++ rest) :
      Reads (.literal text) n s (some ⟨text, [], rest⟩)
  | not_literal {n text s} (hnot : ¬ text <+: s) : Reads (.literal text) n s none
  | seq {p q n s a b} (hfirst : Reads p n s (some a))
      (hsecond : Reads q (n + a.text.length) a.rest (some b)) :
      Reads (.seq p q) n s (some (a.append b))
  | seq_first {p q n s} (hfirst : Reads p n s none) : Reads (.seq p q) n s none
  | seq_second {p q n s a} (hfirst : Reads p n s (some a))
      (hsecond : Reads q (n + a.text.length) a.rest none) : Reads (.seq p q) n s none
  | choice_first {p q n s a} (hfirst : Reads p n s (some a)) : Reads (.choice p q) n s (some a)
  | choice_second {p q n s r} (hfirst : Reads p n s none) (hsecond : Reads q n s r) :
      Reads (.choice p q) n s r
  | many_done {p n s} (hbody : Reads p n s none) : Reads (.many p) n s (some (.nothing s))
  | many_more {p n s a b} (hbody : Reads p n s (some a))
      (hmore : Reads (.many p) (n + a.text.length) a.rest (some b)) :
      Reads (.many p) n s (some (a.append b))
  | absent {p n s} (hbody : Reads p n s none) : Reads (.absent p) n s (some (.nothing s))
  | not_absent {p n s a} (hbody : Reads p n s (some a)) : Reads (.absent p) n s none
  | named {name p n s a} (hbody : Reads p n s (some a)) :
      Reads (.named name p) n s (some (a.named name))
  | not_named {name p n s} (hbody : Reads p n s none) : Reads (.named name p) n s none

variable {e : Expression ν} {n : Nat} {s : List Char}

theorem Reads.unique {r r' : Option (Reading ν)} (h : e.Reads n s r) (h' : e.Reads n s r') :
    r = r' := by
  induction h generalizing r' with
  | start | not_start | finish | not_finish | any | not_any =>
      cases h'
      rfl
  | literal happend =>
      cases h' with
      | literal happend' => rw [List.append_cancel_left (happend.symm.trans happend')]
      | not_literal hnot => exact absurd ⟨_, happend.symm⟩ hnot
  | not_literal hnot =>
      cases h' with
      | literal happend => exact absurd ⟨_, happend.symm⟩ hnot
      | not_literal => rfl
  | seq _ _ ihfirst ihsecond =>
      cases h' with
      | seq hfirst hsecond =>
          cases ihfirst hfirst
          cases ihsecond hsecond
          rfl
      | seq_first hfirst => cases ihfirst hfirst
      | seq_second hfirst hsecond =>
          cases ihfirst hfirst
          cases ihsecond hsecond
  | seq_first _ ih =>
      cases h' with
      | seq hfirst => cases ih hfirst
      | seq_first | seq_second => rfl
  | seq_second _ _ ihfirst ihsecond =>
      cases h' with
      | seq hfirst hsecond =>
          cases ihfirst hfirst
          cases ihsecond hsecond
      | seq_first | seq_second => rfl
  | choice_first _ ih =>
      cases h' with
      | choice_first hfirst => exact ih hfirst
      | choice_second hfirst => cases ih hfirst
  | choice_second _ _ ihfirst ihsecond =>
      cases h' with
      | choice_first hfirst => cases ihfirst hfirst
      | choice_second _ hsecond => exact ihsecond hsecond
  | many_done _ ih =>
      cases h' with
      | many_done => rfl
      | many_more hbody => cases ih hbody
  | many_more _ _ ihbody ihmore =>
      cases h' with
      | many_done hbody => cases ihbody hbody
      | many_more hbody hmore =>
          cases ihbody hbody
          cases ihmore hmore
          rfl
  | absent _ ih =>
      cases h' with
      | absent => rfl
      | not_absent hbody => cases ih hbody
  | not_absent _ ih =>
      cases h' with
      | absent hbody => cases ih hbody
      | not_absent => rfl
  | named _ ih =>
      cases h' with
      | named hbody =>
          cases ih hbody
          rfl
      | not_named hbody => cases ih hbody
  | not_named _ ih =>
      cases h' with
      | named hbody => cases ih hbody
      | not_named => rfl

theorem Reads.append_rest {a : Reading ν} (h : e.Reads n s (some a)) : s = a.text ++ a.rest := by
  generalize hr : some a = r at h
  induction h generalizing a with
  | start | finish | any | many_done | absent =>
      cases hr
      rfl
  | literal happend =>
      cases hr
      exact happend
  | seq _ _ ihfirst ihsecond =>
      cases hr
      rw [ihfirst rfl, ihsecond rfl]
      exact (List.append_assoc _ _ _).symm
  | many_more _ _ ihbody ihmore =>
      cases hr
      rw [ihbody rfl, ihmore rfl]
      exact (List.append_assoc _ _ _).symm
  | choice_first _ ih => exact ih hr
  | choice_second _ _ _ ih => exact ih hr
  | named _ ih =>
      cases hr
      have hbody := ih rfl
      exact hbody
  | _ => cases hr

/-- What `e` makes of a text: the tree of what it reads, or none if it fails. -/
def Parses (e : Expression ν) (s : List Char) (tree? : Option (ParseTree ν)) : Prop :=
  ∃ r, e.Reads 0 s r ∧ tree? = r.bind (·.trees.head?)

theorem Parses.iff {tree? : Option (ParseTree ν)} (h : e.Parses s tree?)
    (t? : Option (ParseTree ν)) : e.Parses s t? ↔ t? = tree? := by
  obtain ⟨r, hreads, rfl⟩ := h
  constructor
  · rintro ⟨r', hreads', rfl⟩
    rw [hreads'.unique hreads]
  · rintro rfl
    exact ⟨r, hreads, rfl⟩

end Expression

end TapeMachine.Text
