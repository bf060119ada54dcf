import PostfixRegex.Alphabet
import PostfixRegex.State.Table

/-!
# Finite automata

An automaton is a table of states with a start state and an alphabet. Transitions may lead to
identifiers that are not in the table; such a target is a state without transitions that does not
accept. `Nfa` adds the one rule that is checked when an automaton is put together: the start state
is one of the states, unless there are none.
-/

namespace PostfixRegex

/-- A table of states with a start state and the characters it is meant to read. -/
structure Automaton where
  start : Nat
  states : Table
  alphabet : Alphabet
deriving DecidableEq

namespace Automaton

/-- The state with the given identifier. -/
def state? (a : Automaton) (id : Nat) : Option State :=
  a.states.get? id

/-- The targets of a state on the given label. An unknown state has none. -/
def targets (a : Automaton) (symbol : Symbol) (id : Nat) : List Nat :=
  match a.state? id with
  | none => []
  | some s => s.targets symbol

/-- The targets of a state on any label, in the order of its transitions. -/
def successors (a : Automaton) (id : Nat) : List Nat :=
  match a.state? id with
  | none => []
  | some s => s.transitions.map Transition.target

/-- The targets of all transitions. -/
def allTargets (a : Automaton) : List Nat :=
  a.states.toList.flatMap fun s => s.transitions.map Transition.target

/-- The accepting states, by increasing identifier. -/
def accepting (a : Automaton) : List State :=
  a.states.toList.filter State.accepting

/-- The states whose transitions all lead back to themselves, by increasing identifier. -/
def traps (a : Automaton) : List State :=
  a.states.toList.filter State.isTrap

/-- The number of transitions of all states, repetitions counted. -/
def transitionCount (a : Automaton) : Nat :=
  (a.states.toList.flatMap State.transitions).length

/-- Whether one of the given states accepts. -/
def anyAccepting (a : Automaton) (ids : List Nat) : Bool :=
  ids.any fun id => (a.state? id).any State.accepting

theorem mem_targets {a : Automaton} {symbol : Symbol} {id target : Nat} :
    target ∈ a.targets symbol id ↔
      ∃ s, a.state? id = some s ∧ ⟨symbol, target⟩ ∈ s.transitions := by
  rw [targets]
  cases a.state? id <;> simp [State.mem_targets]

theorem mem_successors {a : Automaton} {id target : Nat} :
    target ∈ a.successors id ↔ ∃ symbol, target ∈ a.targets symbol id := by
  unfold successors targets
  cases a.state? id with
  | none => simp
  | some s =>
    simp only [List.mem_map, State.mem_targets]
    exact ⟨fun ⟨t, ht, e⟩ => ⟨t.symbol, e ▸ ht⟩, fun ⟨symbol, h⟩ => ⟨_, h, rfl⟩⟩

theorem mem_allTargets_of_mem_successors {a : Automaton} {id target : Nat}
    (h : target ∈ a.successors id) : target ∈ a.allTargets := by
  rw [successors] at h
  cases hs : a.state? id with
  | none => simp [hs] at h
  | some s =>
    rw [hs] at h
    exact List.mem_flatMap.mpr ⟨s, (Table.get?_eq_some_iff.mp hs).1, h⟩

theorem mem_allTargets_of_mem_targets {a : Automaton} {symbol : Symbol} {id target : Nat}
    (h : target ∈ a.targets symbol id) : target ∈ a.allTargets :=
  mem_allTargets_of_mem_successors (mem_successors.mpr ⟨symbol, h⟩)

theorem anyAccepting_iff {a : Automaton} {ids : List Nat} :
    a.anyAccepting ids = true ↔ ∃ id ∈ ids, ∃ s, a.state? id = some s ∧ s.accepting = true := by
  simp [anyAccepting, Option.any_eq_true]

end Automaton

/-- An automaton whose start state is one of its states, if it has any. -/
structure Nfa extends Automaton where
  start_mem : states.isEmpty = true ∨ states.contains start = true

namespace Nfa

theorem ext {a b : Nfa} (h : a.toAutomaton = b.toAutomaton) : a = b := by
  cases a; cases b; cases h; rfl

instance : DecidableEq Nfa := fun a b =>
  decidable_of_iff (a.toAutomaton = b.toAutomaton) ⟨ext, fun h => h ▸ rfl⟩

/-- Puts an automaton together from a table of states. -/
def ofTable (start : Nat) (states : Table) (alphabet : Alphabet) : Checked Nfa :=
  if h : states.isEmpty = true ∨ states.contains start = true then
    .ok ⟨⟨start, states, alphabet⟩, h⟩
  else .error (.unknownStart start)

/-- Puts an automaton together from states in any order. -/
def ofStates (start : Nat) (states : List State) (alphabet : Alphabet) : Checked Nfa := do
  ofTable start (← Table.ofList states) alphabet

end Nfa

end PostfixRegex
