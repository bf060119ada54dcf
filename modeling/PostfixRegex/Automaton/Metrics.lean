import PostfixRegex.Automaton

/-!
# Metrics of an automaton

The counts that describe the size of an automaton, and the five lines that report them.
-/

namespace PostfixRegex

/-- How large an automaton is. -/
structure Metrics where
  states : Nat
  transitions : Nat
  accepting : Nat
  traps : Nat
  /-- The number of distinct characters in the alphabet. -/
  alphabet : Nat
deriving DecidableEq

/-- Counts the parts of an automaton. -/
def Automaton.metrics (a : Automaton) : Metrics where
  states := a.states.size
  transitions := a.transitionCount
  accepting := a.accepting.length
  traps := a.traps.length
  alphabet := a.alphabet.size

namespace Metrics

/-- One line per count. -/
def lines (m : Metrics) : List String :=
  [s!"Number of states: {m.states}",
    s!"Number of transitions: {m.transitions}",
    s!"Number of accepting states: {m.accepting}",
    s!"Number of trap states: {m.traps}",
    s!"Alphabet size: {m.alphabet}"]

/-- The report: the lines without a line break at the end. -/
def text (m : Metrics) : String :=
  "\n".intercalate m.lines

end Metrics

end PostfixRegex
