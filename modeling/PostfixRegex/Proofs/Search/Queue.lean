import Mathlib.Data.List.Basic
import PostfixRegex.Proofs.Search.Rounds

/-!
# The order of a search with a queue

A queue takes nodes up in the order in which they were found, so the nodes that are found can be
listed without a loop: the seeds come first, then the successors of the first node, then those of
the second one, and each of them counts at its first occurrence only. That is `found_search_queue`,
an equation in which the list of found nodes occurs on both sides.

What precedes a node in such a list precedes each of its occurrences. Hence a node that is found
earlier than a successor of `a` is itself a successor of `a` that comes earlier, or a successor of a
node that was taken up before `a`, or a seed.

## Main results

* `Graph.visited_search_queue` — nodes are taken up as they were found
* `Graph.found_search_queue` — the order of discovery as an equation
* `Graph.mem_of_idxOf_found_lt` — what is found earlier than a successor
-/

namespace PostfixRegex

variable {α : Type} [DecidableEq α]

/-! ### First occurrences -/

theorem eraseDups_append_unseen (xs ys : List α) :
    xs.eraseDups ++ unseen xs.eraseDups ys = (xs ++ ys).eraseDups := by
  rw [List.eraseDups_append, unseen_eq_eraseDups, List.removeAll]
  congr 2
  exact List.filter_congr fun y _ => by simp

/-- Of two first occurrences the earlier one stands before every occurrence of the later one. -/
theorem mem_of_idxOf_eraseDups_lt {before after : List α} {x y : α}
    (h : (before ++ x :: after).eraseDups.idxOf y < (before ++ x :: after).eraseDups.idxOf x) :
    y ∈ before := by
  by_contra hy
  rw [← List.mem_eraseDups] at hy
  rw [List.eraseDups_append, List.idxOf_append_of_notMem hy] at h
  by_cases hx : x ∈ before.eraseDups
  · rw [List.idxOf_append_of_mem hx] at h
    have hlt := List.idxOf_lt_length_of_mem hx
    omega
  · have hfirst : (x :: after).removeAll before = x :: after.removeAll before := by
      rw [List.mem_eraseDups] at hx
      rw [List.removeAll, List.filter_cons_of_pos (by simpa using hx), List.removeAll]
    rw [List.idxOf_append_of_notMem hx, hfirst, List.eraseDups_cons, List.idxOf_cons_self] at h
    omega

/-- In a list without repetitions the entries before another one stand at smaller positions. -/
theorem idxOf_lt_idxOf_of_nodup {before after : List α} {x y : α}
    (h : (before ++ x :: after).Nodup) (hy : y ∈ before) :
    (before ++ x :: after).idxOf y < (before ++ x :: after).idxOf x := by
  have hx : x ∉ before := by
    intro hbefore
    exact (List.nodup_append.mp h).2.2 x hbefore x List.mem_cons_self rfl
  rw [List.idxOf_append_of_mem hy, List.idxOf_append_of_notMem hx]
  exact Nat.lt_add_right _ (List.idxOf_lt_length_of_mem hy)

namespace Graph

variable {g : Graph α} {seeds found visited waiting : List α}

/-! ### The queue -/

/-- As long as the found nodes are those taken up followed by those that wait, they are taken up in
their order. -/
theorem visited_explore_queue (h : visited ++ waiting = found) :
    (g.explore .queue found visited waiting).visited =
      (g.explore .queue found visited waiting).found := by
  fun_induction Graph.explore g .queue found visited waiting with
  | case1 found visited => rwa [List.append_nil] at h
  | case2 found visited a rest new ih =>
    refine ih ?_
    rw [← h]
    simp [Agenda.join]

/-- A queue takes nodes up as they were found. -/
theorem visited_search_queue :
    (g.search .queue seeds).visited = (g.search .queue seeds).found :=
  visited_explore_queue rfl

/-- Between two rounds the found nodes are the seeds and the successors of the nodes taken up, and
each round appends the successors of one more node. -/
theorem found_explore_queue (h : found = (seeds ++ visited.flatMap g.successors).eraseDups) :
    (g.explore .queue found visited waiting).found =
      (seeds ++
        (g.explore .queue found visited waiting).visited.flatMap g.successors).eraseDups := by
  fun_induction Graph.explore g .queue found visited waiting with
  | case1 => exact h
  | case2 found visited a rest new ih =>
    refine ih ?_
    rw [List.flatMap_append, List.flatMap_singleton, ← List.append_assoc, ← eraseDups_append_unseen,
      ← h]

/-- **The order of discovery.** First come the seeds and then the successors of the found nodes,
node by node, each at its first occurrence. -/
theorem found_search_queue :
    (g.search .queue seeds).found =
      (seeds ++ (g.search .queue seeds).found.flatMap g.successors).eraseDups := by
  have hfound : (g.search .queue seeds).found =
      (seeds ++ (g.search .queue seeds).visited.flatMap g.successors).eraseDups := by
    refine found_explore_queue ?_
    rw [unseen_nil_eq_eraseDups, List.flatMap_nil, List.append_nil]
  rwa [visited_search_queue] at hfound

/-- **What is found earlier.** When `x` is a successor of `a`, then a node that is found before `x`
is a seed, or a successor of a node that was found before `a`, or a successor of `a` that is listed
before `x`. -/
theorem mem_of_idxOf_found_lt {earlier later before after : List α} {a x y : α}
    (hfound : (g.search .queue seeds).found = earlier ++ a :: later)
    (hsuccessors : g.successors a = before ++ x :: after)
    (h : (g.search .queue seeds).found.idxOf y < (g.search .queue seeds).found.idxOf x) :
    y ∈ seeds ∨ (∃ b ∈ earlier, y ∈ g.successors b) ∨ y ∈ before := by
  have hsplit : (g.search .queue seeds).found =
      ((seeds ++ earlier.flatMap g.successors ++ before) ++
        x :: (after ++ later.flatMap g.successors)).eraseDups := by
    rw [found_search_queue, hfound, List.flatMap_append, List.flatMap_cons, hsuccessors]
    simp only [List.append_assoc, List.cons_append]
  rw [hsplit] at h
  have hmem := mem_of_idxOf_eraseDups_lt h
  rw [List.mem_append, List.mem_append, List.mem_flatMap, or_assoc] at hmem
  exact hmem

end Graph

end PostfixRegex
