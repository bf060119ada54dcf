import PostfixRegex.Automaton
import PostfixRegex.Search
import PostfixRegex.State.Set

/-!
# Closures and steps

The states an automaton can be in after reading a word are followed as a set. Reading a character
is a step of two parts: `move` collects the targets on that character, and `closure` adds every
state that can be reached from there by moves that consume nothing.

The closure lists its members in the order in which a search with a stack finds them, the given
states first.

## Main definitions

* `Automaton.closure`: the smallest set that holds the given states and all targets of its members
  on epsilon;
* `Automaton.move`: the targets of a set on one character;
* `Automaton.step`: the states after one more character;
* `Automaton.reachable`: the states that can be reached from the start by any transitions.
-/

namespace PostfixRegex

namespace Automaton

/-- The moves that consume nothing. -/
def epsilonGraph (a : Automaton) : Graph Nat where
  successors := a.targets .epsilon
  finite := ⟨a.allTargets, fun _ _ => mem_allTargets_of_mem_targets⟩

/-- All moves, whatever they consume. -/
def moveGraph (a : Automaton) : Graph Nat where
  successors := a.successors
  finite := ⟨a.allTargets, fun _ _ => mem_allTargets_of_mem_successors⟩

/-- The given states and all that can be reached from them without consuming a character, in order
of discovery. A state outside the automaton stays in the closure and leads nowhere. -/
def closure (a : Automaton) (ids : List Nat) : StateSet :=
  ⟨(a.epsilonGraph.search .stack ids).found, Graph.nodup_found _ _ _⟩

/-- The targets of the given states on the character `c`. -/
def move (a : Automaton) (c : Char) (set : StateSet) : StateSet :=
  .ofList (set.order.flatMap (a.targets (.char c)))

/-- The states after reading `c` in one of the given states. -/
def step (a : Automaton) (c : Char) (set : StateSet) : StateSet :=
  a.closure (a.move c set).order

/-- The states that can be reached from the start state, in the order in which a search with a
stack takes them up. There are none if the automaton lacks its start state. -/
def reachable (a : Automaton) : List Nat :=
  if a.states.contains a.start then (a.moveGraph.search .stack [a.start]).visited else []

theorem mem_move {a : Automaton} {c : Char} {set : StateSet} {id : Nat} :
    id ∈ (a.move c set).order ↔ ∃ p ∈ set.order, id ∈ a.targets (.char c) p := by
  simp [move]

theorem mem_allTargets_of_mem_step {a : Automaton} {c : Char} {set : StateSet} {id : Nat}
    (h : id ∈ (a.step c set).order) : id ∈ a.allTargets := by
  rcases Graph.mem_found h with h | ⟨p, h⟩
  · obtain ⟨p, _, hp⟩ := mem_move.mp h
    exact mem_allTargets_of_mem_targets hp
  · exact mem_allTargets_of_mem_targets h

end Automaton

end PostfixRegex
