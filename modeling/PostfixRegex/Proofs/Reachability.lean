import PostfixRegex.Compilation
import PostfixRegex.Proofs.Path
import PostfixRegex.Proofs.Search.Stack
import PostfixRegex.Proofs.Table

/-!
# What an automaton reaches

`Automaton.reachable` lists identifiers, and here it is said which ones: the ends of all paths from
the start, whatever words these spell. A path may end at an identifier that is no state of the
automaton, and such an identifier is listed as well. If the start itself is no state, nothing is
listed. The start is listed first, and of every other identifier a transition leads to it from one
that is listed before it.

The order is not that of a recursive search, whichever way transitions are chosen: an identifier
keeps the place that the first transition to it gave it, and later transitions to it do not count.
Along the transitions that do count the order is depth first.

Of an automaton without such loose ends one can ask whether it has states that no path leads to. If
not, the list has the identifiers of its states and nothing else.

## Main definitions

* `Automaton.Accessible` — the states are what paths from the start lead to
* `Automaton.ListsReachable` — a list of everything the start leads to, in an order of discovery

## Main results

* `Automaton.mem_reachable`, `Automaton.nodup_reachable` — what is listed, each once
* `Automaton.Accessible.perm_reachable` — the states of an accessible automaton
* `Automaton.reachable_ends` — the loop ends, and what it lists in which order
* `Automaton.depthFirst_reachable` — the order, along the transitions that discover an identifier
-/

namespace PostfixRegex

namespace Automaton

variable {a : Automaton} {x : Nat}

theorem edge_moveGraph_iff {p q : Nat} :
    a.moveGraph.Edge p q ↔ ∃ symbol, a.states.Move symbol p q := by
  simp only [← mem_targets_iff_move]
  exact mem_successors

/-- **What is listed.** If the start is a state, everything that some path leads to. -/
theorem mem_reachable :
    x ∈ a.reachable ↔ a.start ∈ a.states.ids ∧ ∃ w, a.states.Path a.start w x := by
  have hedge : a.moveGraph.Edge = fun p q => ∃ symbol, a.states.Move symbol p q :=
    funext₂ fun _ _ => propext edge_moveGraph_iff
  rw [reachable, ← Table.contains_iff]
  split
  · next hstart =>
    rw [Graph.perm_visited_search.mem_iff, Graph.mem_found_search, Graph.Reachable, hedge,
      Table.exists_path_iff]
    simp [hstart]
  · next hstart => simp [hstart]

theorem nodup_reachable (a : Automaton) : a.reachable.Nodup := by
  rw [reachable]
  split
  · exact Graph.perm_visited_search.nodup_iff.mpr (Graph.nodup_found _ _ _)
  · exact List.nodup_nil

/-- The states are exactly what paths from the start lead to. -/
def Accessible (a : Automaton) : Prop :=
  ∀ x, x ∈ a.states.ids ↔ ∃ w, a.states.Path a.start w x

/-- **Nothing is missing and nothing is superfluous.** The identifiers of the states are listed,
each of them once. -/
theorem Accessible.perm_reachable (h : a.Accessible) : a.reachable.Perm a.states.ids := by
  have hstart : a.start ∈ a.states.ids := (h a.start).mpr ⟨[], .nil _⟩
  refine (List.perm_ext_iff_of_nodup a.nodup_reachable a.states.nodup_ids).mpr fun x => ?_
  rw [mem_reachable, h x, and_iff_right hstart]

/-! ### The order -/

/-- The list has everything that transitions lead to from the start, each identifier once, and goes
from what is listed to what is next. -/
structure ListsReachable (a : Automaton) (order : List Nat) : Prop where
  mem_iff : ∀ x, x ∈ order ↔
    Relation.ReflTransGen (fun p q => ∃ symbol, a.states.Move symbol p q) a.start x
  nodup : order.Nodup
  head?_eq : order.head? = some a.start
  /-- Every later entry is the target of a transition of an entry before it. -/
  listed_from : ∀ before x after, order = before ++ x :: after → before ≠ [] →
    ∃ p ∈ before, ∃ symbol, a.states.Move symbol p x

/-- An automaton that has its start state lists what a search with a stack takes up. -/
theorem reachable_eq (h : a.start ∈ a.states.ids) :
    a.reachable = (a.moveGraph.search .stack [a.start]).visited :=
  if_pos (Table.contains_iff.mpr h)

theorem listsReachable (h : a.start ∈ a.states.ids) : a.ListsReachable a.reachable where
  mem_iff x := by rw [mem_reachable, and_iff_right h, Table.exists_path_iff]
  nodup := a.nodup_reachable
  head?_eq := by
    have hstart : a.start ∈ a.reachable := mem_reachable.mpr ⟨h, [], .nil _⟩
    rw [reachable_eq h] at hstart ⊢
    exact Graph.traced_visited_search.head?_eq (List.ne_nil_of_mem hstart)
  listed_from before x after heq hne := by
    have hnodup := a.nodup_reachable
    rw [reachable_eq h] at heq hnodup
    obtain ⟨p, hp, hedge⟩ := Graph.traced_visited_search.exists_of_ne_nil hnodup heq hne
    exact ⟨p, hp, edge_moveGraph_iff.mp hedge⟩

/-- **What an automaton reaches.** If the start is no state, nothing is listed. Otherwise the loop
ends, after as many rounds as identifiers are listed and not earlier, and lists everything that
transitions lead to from the start, each identifier once, in an order that goes from what is listed
to what is next. -/
theorem reachable_ends (a : Automaton) :
    (a.start ∉ a.states.ids ∧ a.reachable = []) ∨
      (a.start ∈ a.states.ids ∧
        (∃ found, (a.moveGraph.round .stack)^[a.reachable.length] (.start .stack [a.start]) =
          ⟨found, a.reachable, []⟩) ∧
        (∀ rounds < a.reachable.length,
          ((a.moveGraph.round .stack)^[rounds] (.start .stack [a.start])).waiting ≠ []) ∧
        a.ListsReachable a.reachable) := by
  by_cases h : a.start ∈ a.states.ids
  · have hlength : (a.moveGraph.search .stack [a.start]).found.length = a.reachable.length := by
      rw [reachable_eq h, Graph.perm_visited_search.length_eq]
    refine .inr ⟨h, ⟨(a.moveGraph.search .stack [a.start]).found, ?_⟩, fun rounds hrounds => ?_,
      listsReachable h⟩
    · rw [← hlength, Graph.iterate_round_search, reachable_eq h]
    · exact Graph.waiting_iterate_round_ne_nil (hlength ▸ hrounds)
  · exact .inl ⟨h, if_neg (mt Table.contains_iff.mp h)⟩

/-- **The order of the list** is depth first along the transitions that discover an identifier: if
an entry is the first to lead to a later one, every entry between the two is discovered by the
former or by one that stands between them. -/
theorem depthFirst_reachable (a : Automaton) :
    DepthFirst (Discovers a.moveGraph.Edge a.reachable) a.reachable := by
  by_cases h : a.start ∈ a.states.ids
  · rw [reachable_eq h]
    exact Graph.depthFirst_visited_search_stack a.start
  · have hnil : a.reachable = [] := if_neg (mt Table.contains_iff.mp h)
    rw [hnil]
    exact depthFirst_nil _

/-- Along all transitions the order need not be depth first, and no recursive search lists the
states like this. When state `5`, the end of the union, is taken up, the transition to `7` leads to
a state that waits already, and state `0`, to which no transition leads from there, comes before it.
-/
theorem not_depthFirst_reachable_starred_union :
    ∃ compilation n, compile "ab|*" {} = .ok compilation ∧ compilation.result = .ok n ∧
      n.reachable = [6, 4, 2, 3, 5, 0, 1, 7] ∧ ¬ DepthFirst n.moveGraph.Edge n.reachable ∧
      ¬ n.moveGraph.Preorder [] [n.start] n.reachable := by
  have hcompiled : ((compile "ab|*" {}).toOption.map fun c => c.result.toOption.map fun n =>
      (n.reachable, n.successors 5)) = some (some ([6, 4, 2, 3, 5, 0, 1, 7], [7, 4])) := by cbv
  obtain ⟨compilation, hcompile, hrest⟩ := exists_eq_ok_of_map hcompiled
  obtain ⟨n, hresult, heq⟩ := exists_eq_ok_of_map hrest
  obtain ⟨hreachable, hsuccessors⟩ := Prod.mk.inj heq
  have hnot : ¬ DepthFirst n.moveGraph.Edge n.reachable := by
    rw [hreachable]
    intro hdepth
    have hseven : n.moveGraph.Edge 5 7 := by
      change 7 ∈ n.successors 5
      rw [hsuccessors]
      exact List.mem_cons_self
    obtain ⟨m, hlow, hhigh, hlead⟩ := hdepth 4 5 7 (by decide) (by decide) (by decide) hseven
    obtain rfl : m = 4 := by omega
    have hzero : 0 ∈ n.successors 5 := hlead
    simp [hsuccessors] at hzero
  exact ⟨compilation, n, hcompile, hresult, hreachable, hnot, fun hpre => hnot hpre.depthFirst⟩

end Automaton

end PostfixRegex
