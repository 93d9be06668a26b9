import TapeMachine.Error
import TapeMachine.Rule
import TapeMachine.Sorted

namespace TapeMachine

def Move.ofToken (token : String) : Except Error Move :=
  match ofToken? token.toList with
  | some move => .ok move
  | none => .error (.invalidMove token none)

structure Table where
  rules : List Rule
  deriving DecidableEq, Repr

namespace Table

def empty : Table :=
  ⟨[]⟩

/-- The rule for a state and the symbol under the head. -/
def lookup (t : Table) (state : String) (symbol : Char) : Option Rule :=
  Keyed.find? Rule.key (state, symbol) t.rules

def contains (t : Table) (state : String) (symbol : Char) : Bool :=
  (t.lookup state symbol).isSome

/-- Inserts a rule in the place of the one with its state and symbol, which is returned, or else
behind all others. -/
def exchange (t : Table) (r : Rule) : Option Rule × Table :=
  let (replaced, rules) := Keyed.exchange Rule.key r t.rules
  (replaced, ⟨rules⟩)

def insert (t : Table) (r : Rule) : Table :=
  (t.exchange r).2

def insertUnique (t : Table) (r : Rule) : Except Error Table :=
  if t.contains r.state r.read then .error (.duplicateRule r.state r.read none)
  else .ok (t.insert r)

/-- The table of a list of rules, in which a later rule replaces an earlier one. -/
def ofRules (rules : List Rule) : Table :=
  rules.foldl insert empty

def ruleOf (state : String) (read write : Char) (move : String) (next : String) :
    Except Error Rule :=
  (Move.ofToken move).map fun move => ⟨state, read, write, move, next⟩

def add (t : Table) (state : String) (read write : Char) (move : String) (next : String) :
    Except Error Table :=
  (ruleOf state read write move next).map t.insert

def size (t : Table) : Nat :=
  t.rules.length

def isEmpty (t : Table) : Bool :=
  t.rules.isEmpty

/-- The states that the rules name, as source or as target. -/
def states (t : Table) : List String :=
  Sorted.ofList (t.rules.flatMap fun r => [r.state, r.next])

def symbols (t : Table) : List Char :=
  Sorted.ofList (t.rules.flatMap fun r => [r.read, r.write])

def display (t : Table) : String :=
  "Transition function:\n" ++ String.join (t.rules.map fun r => "  " ++ r.display ++ "\n")

theorem exchange_replaced (t : Table) (r : Rule) :
    (t.exchange r).1 = t.lookup r.state r.read :=
  Keyed.exchange_fst Rule.key r t.rules

theorem lookup_insert_self (t : Table) (r : Rule) :
    (t.insert r).lookup r.state r.read = some r :=
  Keyed.find?_put_self Rule.key r t.rules

theorem lookup_insert_of_ne (t : Table) (r : Rule) {state : String} {symbol : Char}
    (h : (state, symbol) ≠ r.key) : (t.insert r).lookup state symbol = t.lookup state symbol :=
  Keyed.find?_put_of_ne Rule.key r h t.rules

theorem mem_states {t : Table} {state : String} :
    state ∈ t.states ↔ ∃ r ∈ t.rules, state = r.state ∨ state = r.next := by
  simp [states]

theorem mem_symbols {t : Table} {symbol : Char} :
    symbol ∈ t.symbols ↔ ∃ r ∈ t.rules, symbol = r.read ∨ symbol = r.write := by
  simp [symbols]

end Table

end TapeMachine
