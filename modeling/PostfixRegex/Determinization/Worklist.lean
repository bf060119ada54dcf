import PostfixRegex.Determinization

/-!
# The loop of the subset construction

The subset construction step by step. A set that is discovered takes the next identifier, gets a
state that has no transitions yet, and waits in a queue. Each round takes up the set that has waited
longest and lays out its transitions, one for each character of the alphabet in order; a set that is
reached for the first time is discovered on the way. The loop is over when no set waits.

`Nfa.determinize` lists all sets first and makes the states from the list. Here table, queue and
supply change together, so this is what a round has to keep in order and where the number of rounds
can be counted.

## Main definitions

* `Worklist`: the loop between two rounds;
* `Worklist.discover`, `Worklist.follow`: one set, and one transition;
* `Worklist.round`, `Worklist.afterRounds`: one round, and some number of rounds from the start.
-/

namespace PostfixRegex

/-- The loop between two rounds. -/
structure Worklist where
  supply : Supply
  states : Table := .empty
  /-- The sets that were discovered, with their identifiers. -/
  known : List (Signature × Nat) := []
  /-- The sets that wait for their transitions, with their identifiers. -/
  queue : List (Nat × StateSet) := []

namespace Worklist

/-- The identifier of a set. A new set takes the next one of the supply, gets a state and joins the
queue. -/
def discover (n : Nfa) (w : Worklist) (set : StateSet) : Checked (Nat × Worklist) :=
  match w.known.lookup set.signature with
  | some id => return (id, w)
  | none => do
    let (id, supply) := w.supply.fresh
    let states ← w.states.insert { id, accepting := n.anyAccepting set.order }
    return (id, { supply, states, known := w.known ++ [(set.signature, id)],
                  queue := w.queue ++ [(id, set)] })

/-- Lays out the transition on `c` of the state `id`, which stands for `set`. -/
def follow (n : Nfa) (id : Nat) (set : StateSet) (w : Worklist) (c : Char) : Checked Worklist := do
  let (target, w) ← w.discover n (n.step c set)
  if w.states.contains id then
    return { w with states := w.states.addTransition id (.char c) target }
  else throw .setWithoutState

/-- One round: lays out the transitions of the set that has waited longest. Nothing happens when
none waits. -/
def round (n : Nfa) (w : Worklist) : Checked Worklist :=
  match w.queue with
  | [] => return w
  | (id, set) :: rest => n.alphabet.toList.foldlM (follow n id set) { w with queue := rest }

/-- The loop before its first round: the closure of the start state was discovered. -/
def start (n : Nfa) (supply : Supply) : Checked Worklist := do
  let (_, w) ← discover n { supply } (n.closure [n.start])
  return w

/-- The loop after some rounds. -/
def afterRounds (n : Nfa) (supply : Supply) : Nat → Checked Worklist
  | 0 => start n supply
  | rounds + 1 => do
    let w ← afterRounds n supply rounds
    w.round n

end Worklist

end PostfixRegex
