import PostfixRegex.Automaton.Closure
import PostfixRegex.Word

/-!
# Reading a word

An automaton reads a word by following the set of states it can be in. Reading stops early once
that set is empty, because no continuation of the word can be accepted any more; `Reading` records
after how many characters that happened.
-/

namespace PostfixRegex

/-- How reading a word ended. -/
inductive Reading where
  /-- The whole word was read, and these are the possible states. -/
  | reached (states : StateSet)
  /-- No state was left after this many characters. -/
  | stuck (count : Nat)
deriving DecidableEq

namespace Automaton

/-- Reads on from the given states, after `count` characters. -/
def readFrom (a : Automaton) (current : StateSet) (count : Nat) : Word → Reading
  | [] => .reached current
  | c :: cs =>
    let next := a.step c current
    if next.isEmpty then .stuck (count + 1) else a.readFrom next (count + 1) cs

/-- Reads a word from the start state. -/
def read (a : Automaton) (w : Word) : Reading :=
  a.readFrom (a.closure [a.start]) 0 w

end Automaton

/-- Whether one of the states after reading the word accepts. An automaton without states accepts
nothing. -/
def Nfa.accepts (n : Nfa) (w : Word) : Bool :=
  if n.states.isEmpty then false
  else
    match n.read w with
    | .reached states => n.anyAccepting states.order
    | .stuck _ => false

end PostfixRegex
