import PostfixRegex.Symbol

/-!
# States and transitions

A state carries an identifier, which is a natural number, an accepting flag and its outgoing
transitions. Transitions keep the order in which they were added, and a transition that is added
twice is kept twice. A transition names its target by identifier and says nothing about whether a
state with that identifier exists.
-/

namespace PostfixRegex

/-- A move to the state `target` on the label `symbol`. -/
structure Transition where
  symbol : Symbol
  target : Nat
deriving DecidableEq

namespace Transition

/-- Transitions are ordered by label and then by target. -/
def le (a b : Transition) : Prop :=
  a.symbol.rank < b.symbol.rank ∨ a.symbol.rank = b.symbol.rank ∧ a.target ≤ b.target

instance : LE Transition := ⟨le⟩

instance : DecidableLE Transition := fun a b => inferInstanceAs (Decidable
  (a.symbol.rank < b.symbol.rank ∨ a.symbol.rank = b.symbol.rank ∧ a.target ≤ b.target))

/-- The given transitions in increasing order, repetitions kept. -/
def sort (transitions : List Transition) : List Transition :=
  transitions.mergeSort fun a b => decide (a ≤ b)

end Transition

/-- A state together with its outgoing transitions, in the order in which they were added. -/
structure State where
  id : Nat
  accepting : Bool := false
  transitions : List Transition := []
deriving DecidableEq

namespace State

/-- Puts a transition after those the state already has. -/
def addTransition (s : State) (symbol : Symbol) (target : Nat) : State :=
  { s with transitions := s.transitions ++ [⟨symbol, target⟩] }

/-- Sets the accepting flag. -/
def setAccepting (s : State) (accepting : Bool) : State :=
  { s with accepting }

/-- Appends moves to the given states that consume nothing, in this order, and stops accepting. -/
def leaveTo (s : State) (targets : List Nat) : State :=
  { s with accepting := false, transitions := s.transitions ++ targets.map (⟨.epsilon, ·⟩) }

/-- The targets of all transitions on the given label, in order. -/
def targets (s : State) (symbol : Symbol) : List Nat :=
  (s.transitions.filter (·.symbol = symbol)).map Transition.target

/-- The target of the first transition on the given label. -/
def next? (s : State) (symbol : Symbol) : Option Nat :=
  (s.targets symbol).head?

/-- Whether every transition leads back to the state itself. A state without transitions is a
trap too. -/
def isTrap (s : State) : Bool :=
  s.transitions.all (·.target = s.id)

@[simp] theorem id_addTransition (s : State) (symbol : Symbol) (target : Nat) :
    (s.addTransition symbol target).id = s.id := rfl

@[simp] theorem id_setAccepting (s : State) (accepting : Bool) :
    (s.setAccepting accepting).id = s.id := rfl

@[simp] theorem id_leaveTo (s : State) (targets : List Nat) : (s.leaveTo targets).id = s.id := rfl

theorem mem_targets {s : State} {symbol : Symbol} {target : Nat} :
    target ∈ s.targets symbol ↔ ⟨symbol, target⟩ ∈ s.transitions := by
  simp only [targets, List.mem_map, List.mem_filter, decide_eq_true_eq]
  constructor
  · rintro ⟨⟨_, _⟩, ⟨h, rfl⟩, rfl⟩
    exact h
  · exact fun h => ⟨_, ⟨h, rfl⟩, rfl⟩

end State

end PostfixRegex
