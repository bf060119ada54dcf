import PostfixRegex.Automaton
import PostfixRegex.State.Signature
import PostfixRegex.Word

/-!
# Deterministic automata

A deterministic automaton is run by following one transition per character. Each of its states
stands for a set of states of the automaton it was made from, and remembers that set.
-/

namespace PostfixRegex

/-- An automaton whose states stand for sets of states of another one. -/
structure Dfa extends Automaton where
  /-- The sets that the states stand for, in the order of the table. -/
  subsets : List Signature
deriving DecidableEq

namespace Dfa

/-- The target of the transition from a state on a character. -/
def next? (d : Dfa) (id : Nat) (c : Char) : Option Nat :=
  (d.state? id).bind (·.next? (.char c))

/-- Each state with the set it stands for, by increasing identifier. -/
def provenance (d : Dfa) : List (Nat × Signature) :=
  d.states.ids.zip d.subsets

/-- The set that a state stands for. -/
def subset? (d : Dfa) (id : Nat) : Option Signature :=
  d.provenance.lookup id

/-- The state after reading a word, unless a transition is missing on the way. -/
def run? (d : Dfa) (id : Nat) : Word → Option Nat
  | [] => some id
  | c :: cs =>
    match d.next? id c with
    | some target => d.run? target cs
    | none => none

/-- Whether the word leads from the start state to an accepting state. -/
def accepts (d : Dfa) (w : Word) : Bool :=
  ((d.run? d.start w).bind d.state?).any State.accepting

end Dfa

end PostfixRegex
