import Mathlib.Data.List.Nodup
import Mathlib.Logic.Function.Iterate
import PostfixRegex.Proofs.Search

/-!
# The rounds of a search

A search is a loop, and `Graph.explore` is that loop as a recursion. Here the loop is taken apart
into its rounds, so that it can be said when it ends: after as many rounds as there are nodes to be
found, because a node joins the agenda once, when it is found, and leaves it once.

The second subject is the order of discovery. The seeds come first, at their first occurrences, and
every other node is found as the successor of a node that is found already. That holds between any
two rounds, whichever node is taken up next.

A search from nodes that are closed under successors finds nothing new and keeps their order.

## Main definitions

* `Graph.Progress`, `Graph.round` — a search between two rounds, and one round
* `Graph.Traced` — every listed node is a seed or the successor of an earlier one

## Main results

* `Graph.perm_visited_search` — each found node is taken up once
* `Graph.iterate_round_search`, `Graph.waiting_iterate_round_ne_nil` — the loop ends, and not
  earlier
* `Graph.traced_search`, `Graph.prefix_eraseDups_search` — the order of discovery
* `Graph.traced_visited_search` — the order in which nodes are taken up
* `Graph.found_search_of_closed` — a search from closed seeds
-/

namespace PostfixRegex

open scoped List

variable {α : Type} [DecidableEq α]

/-- What is new in a list comes in the order of first occurrence. -/
theorem unseen_eq_eraseDups (known xs : List α) :
    unseen known xs = (xs.filter (· ∉ known)).eraseDups := by
  induction xs generalizing known with
  | nil => rfl
  | cons x xs ih =>
    rw [unseen]
    by_cases hx : x ∈ known
    · rw [if_pos hx, ih, List.filter_cons_of_neg (by simpa using hx)]
    · rw [if_neg hx, ih, List.filter_cons_of_pos (by simpa using hx), List.eraseDups_cons,
        List.filter_filter]
      congr 2
      exact List.filter_congr fun y _ => by simp [not_or, beq_eq_decide]

theorem unseen_nil_eq_eraseDups (xs : List α) : unseen [] xs = xs.eraseDups := by
  rw [unseen_eq_eraseDups, List.filter_eq_self.mpr fun x _ => by simp]

/-- Nothing is new among nodes that are known. -/
theorem unseen_eq_nil {known xs : List α} (h : ∀ x ∈ xs, x ∈ known) : unseen known xs = [] :=
  List.eq_nil_iff_forall_not_mem.mpr fun x hx =>
    (mem_unseen.mp hx).2 (h x (mem_unseen.mp hx).1)

/-- Distinct entries that are not known are all new. -/
theorem unseen_eq_self {xs known : List α} (hnodup : xs.Nodup) (h : ∀ x ∈ xs, x ∉ known) :
    unseen known xs = xs := by
  induction xs generalizing known with
  | nil => rfl
  | cons x xs ih =>
    rw [List.nodup_cons] at hnodup
    rw [List.forall_mem_cons] at h
    rw [unseen, if_neg h.1, ih hnodup.2 fun y hy hknown => ?_]
    rcases List.mem_cons.mp hknown with rfl | hknown
    · exact hnodup.1 hy
    · exact h.2 y hy hknown

omit [DecidableEq α] in
theorem Agenda.perm_join (agenda : Agenda) (new waiting : List α) :
    (agenda.join new waiting).Perm (new ++ waiting) := by
  cases agenda with
  | stack => exact (List.reverse_perm new).append_right waiting
  | queue => exact List.perm_append_comm

namespace Graph

variable {g : Graph α} {agenda : Agenda} {seeds found visited waiting : List α}

/-! ### One round -/

/-- A search between two rounds. -/
structure Progress (α : Type) where
  found : List α
  visited : List α
  waiting : List α

/-- A search before its first round. -/
def Progress.start (agenda : Agenda) (seeds : List α) : Progress α where
  found := unseen [] seeds
  visited := []
  waiting := agenda.join (unseen [] seeds) []

/-- One round: takes up the next waiting node. Nothing happens when none is left. -/
def round (g : Graph α) (agenda : Agenda) (p : Progress α) : Progress α :=
  match p.waiting with
  | [] => p
  | a :: rest =>
    let new := unseen p.found (g.successors a)
    { found := p.found ++ new, visited := p.visited ++ [a], waiting := agenda.join new rest }

theorem round_of_waiting_eq_nil {p : Progress α} (h : p.waiting = []) :
    g.round agenda p = p := by
  simp only [round, h]

/-! ### The end of the loop -/

/-- What is found has been taken up or waits. One round moves a node from the waiting ones to those
taken up, and puts what it finds among the waiting ones. -/
theorem perm_visited_explore (h : (visited ++ waiting).Perm found) :
    (g.explore agenda found visited waiting).visited.Perm
      (g.explore agenda found visited waiting).found := by
  fun_induction Graph.explore g agenda found visited waiting with
  | case1 found visited => rwa [List.append_nil] at h
  | case2 found visited a rest new ih =>
    refine ih ?_
    calc (visited ++ [a]) ++ agenda.join new rest
      _ ~ (visited ++ [a]) ++ (new ++ rest) := (agenda.perm_join new rest).append_left _
      _ ~ (visited ++ [a]) ++ (rest ++ new) := List.perm_append_comm.append_left _
      _ = (visited ++ a :: rest) ++ new := by simp
      _ ~ found ++ new := h.append_right new

/-- Each found node is taken up once. -/
theorem perm_visited_search :
    (g.search agenda seeds).visited.Perm (g.search agenda seeds).found := by
  refine perm_visited_explore ((agenda.perm_join _ _).trans ?_)
  rw [List.append_nil]

/-- The recursion is the loop: as many rounds as nodes are taken up, until none waits. -/
theorem exists_iterate_round_explore (g : Graph α) (agenda : Agenda)
    (found visited waiting : List α) :
    ∃ rounds,
      (g.explore agenda found visited waiting).visited.length = visited.length + rounds ∧
        (g.round agenda)^[rounds] ⟨found, visited, waiting⟩ =
          ⟨(g.explore agenda found visited waiting).found,
            (g.explore agenda found visited waiting).visited, []⟩ := by
  fun_induction Graph.explore g agenda found visited waiting with
  | case1 => exact ⟨0, rfl, rfl⟩
  | case2 found visited a rest new ih =>
    obtain ⟨rounds, hlength, hiterate⟩ := ih
    refine ⟨rounds + 1, ?_, hiterate⟩
    rw [hlength, List.length_append, List.length_singleton]
    omega

/-- **The loop ends.** After as many rounds as there are found nodes nothing waits. -/
theorem iterate_round_search (g : Graph α) (agenda : Agenda) (seeds : List α) :
    (g.round agenda)^[(g.search agenda seeds).found.length] (.start agenda seeds) =
      ⟨(g.search agenda seeds).found, (g.search agenda seeds).visited, []⟩ := by
  obtain ⟨rounds, hlength, hiterate⟩ := exists_iterate_round_explore g agenda
    (unseen [] seeds) [] (agenda.join (unseen [] seeds) [])
  have hrounds : (g.search agenda seeds).found.length = rounds := by
    rw [← perm_visited_search.length_eq]
    exact hlength.trans (Nat.zero_add rounds)
  rw [hrounds]
  exact hiterate

theorem length_visited_iterate_round_le (g : Graph α) (agenda : Agenda) (p : Progress α)
    (rounds : Nat) :
    ((g.round agenda)^[rounds] p).visited.length ≤ p.visited.length + rounds := by
  induction rounds generalizing p with
  | zero => exact Nat.le_refl _
  | succ rounds ih =>
    rw [Function.iterate_succ_apply]
    refine (ih _).trans ?_
    cases hwaiting : p.waiting with
    | nil =>
      rw [round_of_waiting_eq_nil hwaiting]
      omega
    | cons a rest =>
      simp only [round, hwaiting, List.length_append, List.length_singleton]
      omega

/-- **It does not end earlier**: before that round some node still waits. -/
theorem waiting_iterate_round_ne_nil {rounds : Nat}
    (h : rounds < (g.search agenda seeds).found.length) :
    ((g.round agenda)^[rounds] (.start agenda seeds)).waiting ≠ [] := by
  intro hnil
  -- once nothing waits, further rounds change nothing, and too few nodes were taken up
  obtain ⟨more, hmore⟩ := Nat.exists_eq_add_of_le (Nat.le_of_lt h)
  have hend := iterate_round_search g agenda seeds
  rw [hmore, Nat.add_comm, Function.iterate_add_apply,
    Function.iterate_fixed (round_of_waiting_eq_nil hnil)] at hend
  have hle := length_visited_iterate_round_le g agenda (.start agenda seeds) rounds
  rw [hend, perm_visited_search.length_eq] at hle
  have hzero : (Progress.start agenda seeds).visited.length = 0 := rfl
  omega

/-! ### The order of discovery -/

/-- Every listed node is a seed or the successor of a node that is listed before it. -/
def Traced (g : Graph α) (seeds found : List α) : Prop :=
  ∀ before x after, found = before ++ x :: after → x ∈ seeds ∨ ∃ a ∈ before, x ∈ g.successors a

omit [DecidableEq α] in
/-- A list goes on as it began, when what is appended has its origins in all that stands before. -/
theorem Traced.append_of_forall {more : List α} (h : g.Traced seeds found)
    (hmore : ∀ before x after, more = before ++ x :: after →
      x ∈ seeds ∨ ∃ a ∈ found ++ before, x ∈ g.successors a) : g.Traced seeds (found ++ more) := by
  intro before x after heq
  rcases List.append_eq_append_iff.mp heq with ⟨earlier, rfl, hsplit⟩ | ⟨later, hfound, hsplit⟩
  · exact hmore earlier x after hsplit
  · cases later with
    | nil =>
      rw [List.append_nil] at hfound
      rw [List.nil_append] at hsplit
      simpa [hfound] using hmore [] x after hsplit.symm
    | cons y later =>
      obtain ⟨rfl, -⟩ := List.cons.inj hsplit
      exact h before x later hfound

omit [DecidableEq α] in
theorem Traced.append {new : List α} (h : g.Traced seeds found)
    (hnew : ∀ x ∈ new, x ∈ seeds ∨ ∃ a ∈ found, x ∈ g.successors a) :
    g.Traced seeds (found ++ new) := by
  refine h.append_of_forall fun before x after heq => ?_
  refine (hnew x (heq ▸ by simp)).imp_right ?_
  rintro ⟨a, ha, hsucc⟩
  exact ⟨a, List.mem_append_left _ ha, hsucc⟩

omit [DecidableEq α] in
/-- With a single seed the list begins with it. -/
theorem Traced.head?_eq {seed : α} (h : g.Traced [seed] found) (hne : found ≠ []) :
    found.head? = some seed := by
  obtain ⟨x, rest, rfl⟩ := List.exists_cons_of_ne_nil hne
  rcases h [] x rest rfl with hseed | ⟨_, hnone, _⟩
  · rw [List.mem_singleton.mp hseed, List.head?_cons]
  · exact absurd hnone List.not_mem_nil

omit [DecidableEq α] in
/-- With a single seed every node but the first one is listed as a successor. -/
theorem Traced.exists_of_ne_nil {seed x : α} {before after : List α} (h : g.Traced [seed] found)
    (hnodup : found.Nodup) (heq : found = before ++ x :: after) (hne : before ≠ []) :
    ∃ a ∈ before, x ∈ g.successors a := by
  refine (h before x after heq).resolve_left fun hseed => ?_
  obtain ⟨y, rest, rfl⟩ := List.exists_cons_of_ne_nil hne
  subst heq
  -- the seed would be listed a second time
  obtain rfl : y = seed := Option.some.inj (h.head?_eq (by simp))
  obtain rfl : x = y := List.mem_singleton.mp hseed
  simp at hnodup

/-- A search adds only successors of found nodes. -/
theorem Traced.explore (h : g.Traced seeds found) (hwaiting : ∀ x ∈ waiting, x ∈ found) :
    g.Traced seeds (g.explore agenda found visited waiting).found := by
  fun_induction Graph.explore g agenda found visited waiting with
  | case1 => exact h
  | case2 found visited a rest new ih =>
    rw [List.forall_mem_cons] at hwaiting
    have hnew : ∀ x ∈ new, x ∈ seeds ∨ ∃ b ∈ found, x ∈ g.successors b := fun x hx =>
      .inr ⟨a, hwaiting.1, (mem_unseen.mp hx).1⟩
    refine ih (h.append hnew) fun x hx => ?_
    rcases Agenda.mem_join.mp hx with hx | hx
    · exact List.mem_append_right _ hx
    · exact List.mem_append_left _ (hwaiting.2 x hx)

/-- **The order of discovery.** Every found node is a seed or the successor of a node that was found
before it. -/
theorem traced_search : g.Traced seeds (g.search agenda seeds).found := by
  refine Traced.explore (fun before x after heq => .inl ?_) (Frontier.initial g agenda seeds).2
  exact (mem_unseen.mp (heq ▸ by simp : x ∈ unseen [] seeds)).1

/-- A node waits only as a seed or as the successor of a node that was taken up, so that is what it
is when it is taken up. -/
theorem Traced.visited_explore (h : g.Traced seeds visited)
    (hwaiting : ∀ x ∈ waiting, x ∈ seeds ∨ ∃ a ∈ visited, x ∈ g.successors a) :
    g.Traced seeds (g.explore agenda found visited waiting).visited := by
  fun_induction Graph.explore g agenda found visited waiting with
  | case1 => exact h
  | case2 found visited a rest new ih =>
    rw [List.forall_mem_cons] at hwaiting
    have ha : ∀ x ∈ [a], x ∈ seeds ∨ ∃ b ∈ visited, x ∈ g.successors b := by
      simpa using hwaiting.1
    refine ih (h.append ha) fun x hx => ?_
    rcases Agenda.mem_join.mp hx with hx | hx
    · exact .inr ⟨a, by simp, (mem_unseen.mp hx).1⟩
    · refine (hwaiting.2 x hx).imp_right ?_
      rintro ⟨b, hb, hsucc⟩
      exact ⟨b, List.mem_append_left _ hb, hsucc⟩

/-- **The order in which nodes are taken up.** Every one of them is a seed or the successor of a
node that was taken up before it. With a stack this order is another one than that of discovery. -/
theorem traced_visited_search : g.Traced seeds (g.search agenda seeds).visited := by
  refine Traced.visited_explore (fun before x after heq => ?_) fun x hx => .inl ?_
  · exact absurd heq.symm (by simp)
  · simpa [mem_unseen] using hx

/-- The seeds are found first, in the order of their first occurrences. -/
theorem prefix_eraseDups_search : seeds.eraseDups <+: (g.search agenda seeds).found := by
  rw [← unseen_nil_eq_eraseDups]
  exact prefix_found_explore

/-! ### Closed seeds -/

theorem found_explore_of_closed (hclosed : ∀ a ∈ found, ∀ x ∈ g.successors a, x ∈ found)
    (hwaiting : ∀ x ∈ waiting, x ∈ found) :
    (g.explore agenda found visited waiting).found = found := by
  fun_induction Graph.explore g agenda found visited waiting with
  | case1 => rfl
  | case2 found visited a rest new ih =>
    rw [List.forall_mem_cons] at hwaiting
    have hnew : new = [] := unseen_eq_nil (hclosed a hwaiting.1)
    rw [hnew, List.append_nil] at ih
    rw [hnew, List.append_nil]
    refine ih hclosed fun x hx => hwaiting.2 x ?_
    exact (Agenda.mem_join.mp hx).resolve_left List.not_mem_nil

/-- A search from distinct nodes that are closed under successors finds these nodes, in their
order. -/
theorem found_search_of_closed (hnodup : seeds.Nodup)
    (hclosed : ∀ a ∈ seeds, ∀ x ∈ g.successors a, x ∈ seeds) :
    (g.search agenda seeds).found = seeds := by
  have hseeds : unseen [] seeds = seeds := unseen_eq_self hnodup fun _ _ => List.not_mem_nil
  rw [search, hseeds]
  refine found_explore_of_closed hclosed fun x hx => ?_
  exact (Agenda.mem_join.mp hx).resolve_right List.not_mem_nil

end Graph

end PostfixRegex
