import PostfixRegex.Proofs.Path
import PostfixRegex.Proofs.Search.Rounds

/-!
# What a closure lists, and in which order

The closure of some states is computed by a loop that keeps a stack. `Automaton.ListsClosure` says
what the loop leaves behind, without mentioning the stack: the members are the states that the seeds
lead to on epsilon, each is listed once, the seeds come first, and every other member was found on
the way from an earlier one. Nothing is asked of the automaton. There may be cycles, and targets
that are no states, which are members like any others and lead nowhere.

The order depends on the seeds and on the order of transitions, but the members do not depend on the
order of the seeds. A closure is closed, so closing it again finds nothing new.

## Main definitions

* `Automaton.ListsClosure` — a list of the closure in an order of discovery

## Main results

* `Automaton.listsClosure_closure` — the closure is listed in such an order
* `Automaton.closure_closure` — closing twice
* `Automaton.closure_ends` — when the loop ends, and with what
-/

namespace PostfixRegex

namespace Automaton

variable {a : Automaton} {seeds : List Nat} {p q x : Nat}

/-- The list holds the states that the seeds lead to without a character, in an order in which they
can be discovered. -/
structure ListsClosure (a : Automaton) (seeds order : List Nat) : Prop where
  /-- The members are the states that some seed leads to by any number of moves on epsilon. -/
  mem_iff : ∀ x, x ∈ order ↔ ∃ p ∈ seeds, Relation.ReflTransGen (a.states.Move .epsilon) p x
  nodup : order.Nodup
  /-- The seeds come first, each at its first occurrence. -/
  seeds_prefix : seeds.eraseDups <+: order
  /-- Every other member is the target of a move on epsilon from a member before it. -/
  found_from : ∀ before x after, order = before ++ x :: after → x ∉ seeds →
    ∃ p ∈ before, a.states.Move .epsilon p x

theorem edge_epsilonGraph_iff : a.epsilonGraph.Edge p q ↔ a.states.Move .epsilon p q :=
  mem_targets_iff_move

theorem mem_closure_iff : x ∈ (a.closure seeds).order ↔
    ∃ p ∈ seeds, Relation.ReflTransGen (a.states.Move .epsilon) p x := by
  rw [mem_closure]
  simp only [Table.path_nil_iff]

/-- A closure is closed under moves on epsilon. -/
theorem mem_closure_of_move (hp : p ∈ (a.closure seeds).order) (hm : a.states.Move .epsilon p q) :
    q ∈ (a.closure seeds).order := by
  obtain ⟨s, hs, hpath⟩ := mem_closure_iff.mp hp
  exact mem_closure_iff.mpr ⟨s, hs, hpath.tail hm⟩

theorem listsClosure_closure (a : Automaton) (seeds : List Nat) :
    a.ListsClosure seeds (a.closure seeds).order where
  mem_iff _ := mem_closure_iff
  nodup := Graph.nodup_found _ _ _
  seeds_prefix := Graph.prefix_eraseDups_search
  found_from before x after heq hx := by
    rcases Graph.traced_search before x after heq with hseed | ⟨p, hp, hedge⟩
    · exact absurd hseed hx
    · exact ⟨p, hp, edge_epsilonGraph_iff.mp hedge⟩

/-- Closing a closure finds nothing new and keeps the order. -/
theorem closure_closure (a : Automaton) (seeds : List Nat) :
    a.closure (a.closure seeds).order = a.closure seeds :=
  StateSet.ext <| Graph.found_search_of_closed (a.closure seeds).nodup fun _ hp _ hx =>
    mem_closure_of_move hp (edge_epsilonGraph_iff.mp hx)

/-- **Closures.** The loop ends after as many rounds as the closure has members, and not earlier.
The closure is then listed in an order of discovery. Its members depend on which seeds there are and
on nothing else about them, and closing it again gives the same list. -/
theorem closure_ends (a : Automaton) (seeds : List Nat) :
    (∃ visited, (a.epsilonGraph.round .stack)^[(a.closure seeds).size] (.start .stack seeds) =
        ⟨(a.closure seeds).order, visited, []⟩) ∧
      (∀ rounds < (a.closure seeds).size,
        ((a.epsilonGraph.round .stack)^[rounds] (.start .stack seeds)).waiting ≠ []) ∧
      a.ListsClosure seeds (a.closure seeds).order ∧
      (∀ seeds', (∀ x, x ∈ seeds' ↔ x ∈ seeds) →
        ∀ x, x ∈ (a.closure seeds').order ↔ x ∈ (a.closure seeds).order) ∧
      (a.closure (a.closure seeds).order).order = (a.closure seeds).order := by
  refine ⟨⟨_, Graph.iterate_round_search a.epsilonGraph .stack seeds⟩, fun rounds h => ?_,
    a.listsClosure_closure seeds, fun seeds' hseeds x => ?_, ?_⟩
  · exact Graph.waiting_iterate_round_ne_nil h
  · rw [mem_closure_iff, mem_closure_iff]
    simp only [hseeds]
  · rw [closure_closure]

end Automaton

end PostfixRegex
