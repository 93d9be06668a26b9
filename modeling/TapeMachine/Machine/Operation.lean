import TapeMachine.Machine.Run

/-!
The operations on a machine as values, so that a history of use is a list. An operation that cannot
be carried out leaves the machine as it is.
-/

namespace TapeMachine

inductive Operation where
  | configure (initial : String) (accept reject : List String) (blank : Char)
  | loadTape (input : String)
  | addRule (state : String) (read write : Char) (move : String) (next : String)
  | setTable (table : Table)
  | setCeiling (ceiling : Nat)
  | step
  | run (ceiling : Option Nat)
  | rewind
  | reset (keepTape : Bool)
  deriving DecidableEq, Repr

namespace Machine

def perform (m : Machine) : Operation → Machine
  | .configure initial accept reject blank => m.configure initial accept reject blank
  | .loadTape input => m.loadTape input
  | .addRule state read write move next => (m.addRule state read write move next).toOption.getD m
  | .setTable table => m.setTable table
  | .setCeiling ceiling => m.setCeiling ceiling
  | .step => m.step
  | .run ceiling => m.run ceiling
  | .rewind => m.rewind?.getD m
  | .reset keepTape => m.reset keepTape

def performAll (m : Machine) (operations : List Operation) : Machine :=
  operations.foldl perform m

/-- The machines that come about by use. -/
def Reachable (m : Machine) : Prop :=
  ∃ name description operations, m = (new name description).performAll operations

theorem perform_addRule (m : Machine) (state : String) (read write : Char) (move next : String) :
    m.perform (.addRule state read write move next) = m ∨
      ∃ table, m.perform (.addRule state read write move next) = m.setTable table := by
  simp only [perform, addRule]
  cases m.table.add state read write move next with
  | error e => exact .inl rfl
  | ok table => exact .inr ⟨table, rfl⟩

theorem perform_rewind (m : Machine) :
    m.perform .rewind = m ∨ m.rewind? = some (m.perform .rewind) := by
  simp only [perform]
  cases m.rewind? with
  | none => exact .inl rfl
  | some before => exact .inr rfl

theorem performAll_append (m : Machine) (first second : List Operation) :
    m.performAll (first ++ second) = (m.performAll first).performAll second :=
  List.foldl_append

theorem Reachable.performAll {m : Machine} (h : m.Reachable) (operations : List Operation) :
    (m.performAll operations).Reachable := by
  obtain ⟨name, description, first, rfl⟩ := h
  exact ⟨name, description, first ++ operations, (performAll_append _ first operations).symm⟩

/-- What holds of a new machine and is kept by every operation holds of every reachable machine. -/
theorem Reachable.induct {m : Machine} (h : m.Reachable) (holds : Machine → Prop)
    (base : ∀ name description, holds (new name description))
    (kept : ∀ m operation, holds m → holds (m.perform operation)) : holds m := by
  obtain ⟨name, description, operations, rfl⟩ := h
  suffices hall : ∀ m, holds m → holds (m.performAll operations) from
    hall _ (base name description)
  induction operations with
  | nil => exact fun m hm => hm
  | cons operation rest ih => exact fun m hm => ih _ (kept m operation hm)

end Machine

end TapeMachine
