import PostfixRegex.State.Table

/-!
# Fragments

A fragment is a piece of an automaton under construction: a table of states with a start state and
a last state. A word belongs to the fragment when it leads from the start to the last state. The
last state accepts and has no transitions yet; it is left by the operator that encloses the
fragment.

The four ways to make a fragment are given the fresh identifiers they need and check what they rely
on, see `Violation`.

## Main definitions

* `Fragment.atom`: one character;
* `Fragment.concatenate`: one fragment after another, which needs no state of its own;
* `Fragment.star`: any number of repetitions;
* `Fragment.union`: one fragment or another.
-/

namespace PostfixRegex

/-- States with one way in and one way out. -/
structure Fragment where
  states : Table
  start : Nat
  last : Nat
deriving DecidableEq

namespace Fragment

/-- The fragment itself, if its last state is one of its states and accepts. -/
def checked (f : Fragment) : Checked Fragment :=
  if (f.states.get? f.last).any State.accepting then .ok f else .error .lastNotAccepting

/-- Turns the last state into an inner one: it gets moves to the given states that consume nothing,
in this order, and stops accepting. -/
def leaveLast (f : Fragment) (targets : List Nat) : Checked Fragment :=
  if f.states.contains f.last then
    .ok { f with states := f.states.modify f.last (·.leaveTo targets) fun _ => rfl }
  else .error .lastMissing

/-- Reads the character `c` between two fresh states. -/
def atom (c : Char) (first second : Nat) : Checked Fragment := do
  let states ← Table.ofList
    [{ id := first, transitions := [⟨.char c, second⟩] }, { id := second, accepting := true }]
  return { states, start := first, last := second }

/-- Reads the left fragment and then the right one. -/
def concatenate (left right : Fragment) : Checked Fragment := do
  let left ← left.leaveLast [right.start]
  let states ← left.states.append right.states
  checked { states, start := left.start, last := right.last }

/-- Reads the inner fragment any number of times, between two fresh states. The new start can go to
the new end at once; the old last state goes to the new end or back to the old start. -/
def star (inner : Fragment) (start last : Nat) : Checked Fragment := do
  let left ← inner.leaveLast [last, inner.start]
  let states ← left.states.insert
    { id := start, transitions := [⟨.epsilon, last⟩, ⟨.epsilon, inner.start⟩] }
  let states ← states.insert { id := last, accepting := true }
  checked { states, start, last }

/-- Reads one of two fragments, between two fresh states. -/
def union (left right : Fragment) (start last : Nat) : Checked Fragment := do
  let first ← left.leaveLast [last]
  let second ← right.leaveLast [last]
  let states ← first.states.append second.states
  let states ← states.insert
    { id := start, transitions := [⟨.epsilon, left.start⟩, ⟨.epsilon, right.start⟩] }
  let states ← states.insert { id := last, accepting := true }
  checked { states, start, last }

end Fragment

end PostfixRegex
