import PostfixRegex.Automaton.Closure
import PostfixRegex.Dfa
import PostfixRegex.State.Supply

/-!
# Determinization

The subset construction. A node is a set of states in canonical form; its successors are the sets
that each character of the alphabet leads to, in the order of the alphabet. The sets that can be
reached from the closure of the start state, in the order in which a search with a queue finds
them, become the states of the deterministic automaton and are numbered in that order. The empty
set is a set like any other: it is found when some character leads nowhere, and it becomes a state
that does not accept and that every character leads back to.

The construction sees an automaton only through the sets, so neither the order of its transitions
nor the order in which a closure lists its members can be told from the result.

## Main definitions

* `Nfa.subsetGraph`: the sets and the steps between them;
* `Nfa.subsets`: the sets in order of discovery;
* `Nfa.determinize`: the deterministic automaton with identifiers from a supply.
-/

namespace PostfixRegex

/-! ### The finitely many sets over given identifiers -/

/-- All lists that arise by leaving out entries. -/
def sublists : List Nat → List (List Nat)
  | [] => [[]]
  | x :: xs => (sublists xs).map (x :: ·) ++ sublists xs

theorem mem_sublists : ∀ {xs ys : List Nat}, xs.Sublist ys → xs ∈ sublists ys
  | _, [], h => by simp [sublists, List.sublist_nil.mp h]
  | _, y :: ys, h => by
      rw [sublists, List.mem_append, List.mem_map]
      cases h with
      | cons _ h => exact .inr (mem_sublists h)
      | cons_cons _ h => exact .inl ⟨_, mem_sublists h, rfl⟩

/-- There are only finitely many signatures over given identifiers. -/
theorem Signature.mem_map_sublists {s : Signature} (ids : List Nat)
    (h : ∀ x ∈ s.toList, x ∈ ids) :
    s ∈ (sublists (Signature.ofList ids).toList).map Signature.ofList := by
  refine List.mem_map.mpr ⟨(Signature.ofList ids).toList.filter (· ∈ s.toList),
    mem_sublists List.filter_sublist, ext_mem fun x => ?_⟩
  simp only [mem_toList_ofList, List.mem_filter, decide_eq_true_eq]
  exact ⟨fun hx => hx.2, fun hx => ⟨h x hx, hx⟩⟩

namespace Nfa

/-! ### The sets of states -/

/-- The set the automaton is in before it reads anything. -/
def initialSubset (n : Nfa) : Signature :=
  (n.closure [n.start]).signature

/-- The set the automaton is in after it reads `c` in the given set. -/
def nextSubset (n : Nfa) (s : Signature) (c : Char) : Signature :=
  (n.step c (.ofSignature s)).signature

theorem mem_allTargets_of_mem_nextSubset {n : Nfa} {s : Signature} {c : Char} {x : Nat}
    (h : x ∈ (n.nextSubset s c).toList) : x ∈ n.allTargets :=
  Automaton.mem_allTargets_of_mem_step (StateSet.mem_signature.mp h)

/-- The sets and the steps between them, one per character of the alphabet. -/
def subsetGraph (n : Nfa) : Graph Signature where
  successors s := n.alphabet.toList.map (n.nextSubset s)
  finite := by
    refine ⟨_, fun s t ht => Signature.mem_map_sublists n.allTargets fun x hx => ?_⟩
    obtain ⟨c, _, rfl⟩ := List.mem_map.mp ht
    exact mem_allTargets_of_mem_nextSubset hx

/-- The sets that words over the alphabet lead to, in order of discovery. -/
def subsets (n : Nfa) : List Signature :=
  (n.subsetGraph.search .queue [n.initialSubset]).found

/-! ### The deterministic automaton -/

/-- The state that stands for the set `s`, when the listed sets are numbered from `first` on. -/
def subsetRow (n : Nfa) (first : Nat) (subsets : List Signature) (s : Signature) : Table.Row where
  accepting := n.anyAccepting s.toList
  transitions := n.alphabet.toList.map fun c =>
    ⟨.char c, first + subsets.idxOf (n.nextSubset s c)⟩

/-- The automaton of the listed sets, numbered from `first` on. -/
def dfaOfSubsets (n : Nfa) (first : Nat) (subsets : List Signature) : Dfa where
  start := first
  states := .ofRows first (subsets.map (n.subsetRow first subsets))
  alphabet := n.alphabet
  subsets := subsets

/-- The deterministic automaton, with the next identifiers of the supply, and the supply
afterwards. Nothing is made of an automaton without states. -/
def determinize (n : Nfa) (supply : Supply) : Option (Dfa × Supply) :=
  if n.states.isEmpty then none
  else
    let subsets := n.subsets
    some (n.dfaOfSubsets supply.next subsets, supply.skip subsets.length)

end Nfa

end PostfixRegex
