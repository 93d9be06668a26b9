import TapeMachine.Table

/-!
Tables with an index: the rules in their slots, and beside them the slot of each state and symbol.
Nothing but the insertions keeps the two in step, so looking into a slot may have no result. Tables
without an index answer the same insertions.
-/

namespace TapeMachine.Table

/-- The requests that write rules to a table. -/
inductive Insertion where
  | add (state : String) (read write : Char) (move next : String)
  | insert (r : Rule)
  | insertUnique (r : Rule)
  deriving DecidableEq, Repr

/-- The rule that an insertion is about, if it names a move. -/
def Insertion.rule? : Insertion → Option Rule
  | .add state read write move next => (ruleOf state read write move next).toOption
  | .insert r => some r
  | .insertUnique r => some r

inductive Answer where
  | done
  | replaced (rule : Option Rule)
  | refused (cause : Error)
  deriving DecidableEq, Repr

def Answer.isRefusal : Answer → Bool
  | .refused _ => true
  | _ => false

/-- The rules that insertions have written, given their answers. -/
def written (insertions : List Insertion) (answers : List Answer) : List Rule :=
  (insertions.zip answers).filterMap fun (insertion, answer) =>
    if answer.isRefusal then none else insertion.rule?

/-- Answers an insertion with what came of it, and keeps the table if it fails. -/
def settle (t : Table) : Except Error Table → Answer × Table
  | .ok changed => (.done, changed)
  | .error cause => (.refused cause, t)

def perform (t : Table) : Insertion → Answer × Table
  | .add state read write move next => t.settle (t.add state read write move next)
  | .insert r => (.replaced (t.exchange r).1, (t.exchange r).2)
  | .insertUnique r => t.settle (t.insertUnique r)

def performAll (t : Table) : List Insertion → List Answer × Table
  | [] => ([], t)
  | insertion :: rest =>
      let (answer, t) := t.perform insertion
      let (answers, t) := t.performAll rest
      (answer :: answers, t)

structure Indexed where
  rules : List Rule
  index : List ((String × Char) × Nat)
  deriving DecidableEq, Repr

namespace Indexed

def empty : Indexed :=
  ⟨[], []⟩

def table (t : Indexed) : Table :=
  ⟨t.rules⟩

def slot? (t : Indexed) (key : String × Char) : Option Nat :=
  (Keyed.find? Prod.fst key t.index).map Prod.snd

/-- The rule in the slot of a state and a symbol, if they have one. There is no result if the slot
is not in the table. -/
def lookup? (t : Indexed) (state : String) (symbol : Char) : Option (Option Rule) :=
  match t.slot? (state, symbol) with
  | none => some none
  | some slot => t.rules[slot]?.map some

/-- Inserts a rule in the slot of its state and symbol, or else in a new one. -/
def exchange? (t : Indexed) (r : Rule) : Option (Option Rule × Indexed) :=
  match t.slot? r.key with
  | none => some (none, ⟨t.rules ++ [r], Keyed.put Prod.fst (r.key, t.rules.length) t.index⟩)
  | some slot =>
      t.rules[slot]?.map fun replaced => (some replaced, { t with rules := t.rules.set slot r })

def insert? (t : Indexed) (r : Rule) : Option Indexed :=
  (t.exchange? r).map Prod.snd

def perform? (t : Indexed) : Insertion → Option (Answer × Indexed)
  | .add state read write move next =>
      match ruleOf state read write move next with
      | .error cause => some (.refused cause, t)
      | .ok r => (t.insert? r).map (.done, ·)
  | .insert r => (t.exchange? r).map fun (replaced, t) => (.replaced replaced, t)
  | .insertUnique r =>
      (t.lookup? r.state r.read).bind fun found =>
        if found.isSome then some (.refused (.duplicateRule r.state r.read none), t)
        else (t.insert? r).map (.done, ·)

def performAll? (t : Indexed) : List Insertion → Option (List Answer × Indexed)
  | [] => some ([], t)
  | insertion :: rest =>
      (t.perform? insertion).bind fun (answer, t) =>
        (t.performAll? rest).map fun (answers, t) => (answer :: answers, t)

end Indexed

end TapeMachine.Table
