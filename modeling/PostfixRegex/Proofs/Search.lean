import Mathlib.Data.Set.Function
import Mathlib.Logic.Relation
import PostfixRegex.Search

/-!
# What a search finds

A search finds the seeds and everything that can be reached from them, and nothing else. The order
in which waiting nodes are taken up does not matter for that, so the result covers a stack and a
queue at once.

The invariant is `Graph.Frontier`: whatever is found is reachable, and a found node that no longer
waits has all its successors found. Once nothing waits, the second half says that the found nodes
are closed under successors.

Which node comes when does depend on the agenda, but on nothing else than the lists of successors:
in a graph that looks the same under other names (`Graph.Copy`) the nodes are found in the same
order.

## Main definitions

* `Graph.Reachable` — a node that some seed leads to
* `Graph.Frontier` — what holds between two rounds of a search
* `Graph.Copy` — the same graph under other names

## Main results

* `Graph.Frontier.take` — one round keeps the invariant
* `Graph.mem_found_search` — the found nodes are exactly the reachable ones
* `Graph.head?_found_search` — the only seed comes first
* `Graph.Copy.found_search` — the order of discovery in a copy
-/

namespace PostfixRegex

/-- What a list holds is known before or new. -/
theorem mem_append_unseen {α : Type} [DecidableEq α] {known xs : List α} {x : α} (h : x ∈ xs) :
    x ∈ known ++ unseen known xs := by
  by_cases hx : x ∈ known
  · exact List.mem_append_left _ hx
  · exact List.mem_append_right _ (mem_unseen.mpr ⟨h, hx⟩)

namespace Graph

variable {α : Type}

/-- One move along the graph. -/
def Edge (g : Graph α) (a b : α) : Prop := b ∈ g.successors a

/-- Some seed leads to the node. -/
def Reachable (g : Graph α) (seeds : List α) (x : α) : Prop :=
  ∃ s ∈ seeds, Relation.ReflTransGen g.Edge s x

theorem Reachable.of_mem {g : Graph α} {seeds : List α} {x : α} (h : x ∈ seeds) :
    g.Reachable seeds x :=
  ⟨x, h, .refl⟩

theorem Reachable.tail {g : Graph α} {seeds : List α} {x y : α} (h : g.Reachable seeds x)
    (hy : y ∈ g.successors x) : g.Reachable seeds y := by
  obtain ⟨s, hs, hx⟩ := h
  exact ⟨s, hs, hx.tail hy⟩

/-! ### The invariant of a search -/

/-- What holds between two rounds of a search: the waiting nodes are among the found ones, the
found nodes are reachable, and the successors of a found node are missing only while it waits. -/
structure Frontier (g : Graph α) (seeds found waiting : List α) : Prop where
  /-- The seeds are found before the first round. -/
  seeds_found : ∀ x ∈ seeds, x ∈ found
  /-- A node waits only after it was found. -/
  waiting_found : ∀ x ∈ waiting, x ∈ found
  /-- Nothing else is found. -/
  reachable : ∀ x ∈ found, g.Reachable seeds x
  /-- A node that was taken up has left its successors behind. -/
  expanded : ∀ x ∈ found, x ∈ waiting ∨ ∀ y ∈ g.successors x, y ∈ found

variable {g : Graph α} {seeds found waiting : List α}

/-- When nothing waits, the found nodes are closed under successors. -/
theorem Frontier.mem_iff_reachable (h : g.Frontier seeds found []) {x : α} :
    x ∈ found ↔ g.Reachable seeds x := by
  constructor
  · exact h.reachable x
  · rintro ⟨s, hs, hx⟩
    induction hx with
    | refl => exact h.seeds_found s hs
    | tail _ hy ih =>
      rcases h.expanded _ ih with hw | hclosed
      · exact absurd hw List.not_mem_nil
      · exact hclosed _ hy

variable [DecidableEq α]

theorem Frontier.initial (g : Graph α) (agenda : Agenda) (seeds : List α) :
    g.Frontier seeds (unseen [] seeds) (agenda.join (unseen [] seeds) []) where
  seeds_found x hx := mem_unseen.mpr ⟨hx, List.not_mem_nil⟩
  waiting_found x hx := by simpa using hx
  reachable x hx := .of_mem (mem_unseen.mp hx).1
  expanded x hx := .inl (Agenda.mem_join.mpr (.inl hx))

/-- **One round.** The node that is taken up stops waiting, and its new successors join. -/
theorem Frontier.take {agenda : Agenda} {a : α} (h : g.Frontier seeds found (a :: waiting)) :
    g.Frontier seeds (found ++ unseen found (g.successors a))
      (agenda.join (unseen found (g.successors a)) waiting) := by
  have ha : g.Reachable seeds a := h.reachable a (h.waiting_found a List.mem_cons_self)
  refine ⟨fun x hx => ?_, fun x hx => ?_, fun x hx => ?_, fun x hx => ?_⟩
  · exact List.mem_append_left _ (h.seeds_found x hx)
  · rcases Agenda.mem_join.mp hx with hx | hx
    · exact List.mem_append_right _ hx
    · exact List.mem_append_left _ (h.waiting_found x (List.mem_cons_of_mem a hx))
  · rcases List.mem_append.mp hx with hx | hx
    · exact h.reachable x hx
    · exact ha.tail (mem_unseen.mp hx).1
  · rcases List.mem_append.mp hx with hx | hx
    · rcases h.expanded x hx with hw | hs
      · rcases List.mem_cons.mp hw with rfl | hw
        · -- the node itself: a successor is either known or among the new ones
          exact .inr fun y hy => mem_append_unseen hy
        · exact .inl (Agenda.mem_join.mpr (.inr hw))
      · exact .inr fun y hy => List.mem_append_left _ (hs y hy)
    · exact .inl (Agenda.mem_join.mpr (.inl hx))

/-- A search that starts from a frontier ends with nothing waiting. -/
theorem Frontier.explore {agenda : Agenda} {visited : List α} (h : g.Frontier seeds found waiting) :
    g.Frontier seeds (g.explore agenda found visited waiting).found [] := by
  fun_induction Graph.explore g agenda found visited waiting with
  | case1 => exact h
  | case2 found visited a rest new ih => exact ih h.take

/-- **What a search finds.** The found nodes are exactly those that a seed leads to, whichever
agenda the search keeps. -/
theorem mem_found_search {agenda : Agenda} {x : α} :
    x ∈ (g.search agenda seeds).found ↔ g.Reachable seeds x :=
  (Frontier.initial g agenda seeds).explore.mem_iff_reachable

/-! ### The order of discovery -/

/-- What is found stays at its place: later rounds only add nodes at the end. -/
theorem prefix_found_explore {agenda : Agenda} {visited : List α} :
    found <+: (g.explore agenda found visited waiting).found := by
  fun_induction Graph.explore g agenda found visited waiting with
  | case1 => exact List.prefix_refl _
  | case2 found visited a rest new ih => exact (List.prefix_append found new).trans ih

/-- A search from one seed finds that seed first. -/
theorem head?_found_search {agenda : Agenda} {x : α} :
    (g.search agenda [x]).found.head? = some x := by
  have hseed : unseen [] [x] = [x] := by simp [unseen]
  obtain ⟨rest, hrest⟩ : [x] <+: (g.search agenda [x]).found := by
    rw [search, hseed]
    exact prefix_found_explore
  rw [← hrest]
  rfl

end Graph

/-! ### Copies of a graph -/

section Copy

variable {α β : Type} {φ : α → β} {known : Set α}

theorem mem_map_iff_of_injOn (hφ : known.InjOn φ) {x : α} {xs : List α} (hx : x ∈ known)
    (hxs : ∀ y ∈ xs, y ∈ known) : φ x ∈ xs.map φ ↔ x ∈ xs := by
  constructor
  · intro h
    obtain ⟨y, hy, heq⟩ := List.mem_map.mp h
    rwa [← hφ (hxs y hy) hx heq]
  · exact List.mem_map_of_mem

theorem Agenda.join_map (agenda : Agenda) (new waiting : List α) :
    agenda.join (new.map φ) (waiting.map φ) = (agenda.join new waiting).map φ := by
  cases agenda <;> simp [join]

variable [DecidableEq α] [DecidableEq β]

/-- An entry stands at the same place under its other name. -/
theorem idxOf_map_of_injOn (hφ : known.InjOn φ) {x : α} (hx : x ∈ known) {xs : List α}
    (hxs : ∀ y ∈ xs, y ∈ known) : (xs.map φ).idxOf (φ x) = xs.idxOf x := by
  induction xs with
  | nil => rfl
  | cons y xs ih =>
    rw [List.forall_mem_cons] at hxs
    have hbeq : (φ y == φ x) = (y == x) := by
      rw [Bool.eq_iff_iff, beq_iff_eq, beq_iff_eq, hφ.eq_iff hxs.1 hx]
    rw [List.map_cons, List.idxOf_cons, List.idxOf_cons, hbeq, ih hxs.2]

/-- What is new stays new under other names. -/
theorem unseen_map_of_injOn (hφ : known.InjOn φ) : ∀ {xs seen : List α}, (∀ x ∈ xs, x ∈ known) →
    (∀ x ∈ seen, x ∈ known) → unseen (seen.map φ) (xs.map φ) = (unseen seen xs).map φ
  | [], _, _, _ => rfl
  | x :: xs, seen, hxs, hseen => by
    rw [List.forall_mem_cons] at hxs
    have hmem : φ x ∈ seen.map φ ↔ x ∈ seen := mem_map_iff_of_injOn hφ hxs.1 hseen
    rw [List.map_cons, unseen, unseen]
    by_cases hx : x ∈ seen
    · rw [if_pos hx, if_pos (hmem.mpr hx)]
      exact unseen_map_of_injOn hφ hxs.2 hseen
    · rw [if_neg hx, if_neg (mt hmem.mp hx), List.map_cons, ← List.map_cons]
      rw [unseen_map_of_injOn hφ hxs.2 (List.forall_mem_cons.mpr ⟨hxs.1, hseen⟩)]

namespace Graph

variable {g : Graph α} {g' : Graph β} {seeds : List α}

/-- What the seeds lead to in `g` looks the same in `g'` under the names that `φ` gives: different
nodes have different names, and successors come in the same order. -/
structure Copy (g : Graph α) (g' : Graph β) (φ : α → β) (seeds : List α) : Prop where
  injOn : {x | g.Reachable seeds x}.InjOn φ
  successors_eq : ∀ x, g.Reachable seeds x → g'.successors (φ x) = (g.successors x).map φ

/-- Continuing a search in a copy. What was taken up before does not matter. -/
theorem Copy.found_explore (h : g.Copy g' φ seeds) {agenda : Agenda}
    {found visited waiting : List α} (visited' : List β)
    (hfound : ∀ x ∈ found, g.Reachable seeds x) (hwaiting : ∀ x ∈ waiting, g.Reachable seeds x) :
    (g'.explore agenda (found.map φ) visited' (waiting.map φ)).found =
      (g.explore agenda found visited waiting).found.map φ := by
  fun_induction Graph.explore g agenda found visited waiting generalizing visited' with
  | case1 => rw [List.map_nil, explore]
  | case2 found visited a rest new ih =>
    rw [List.forall_mem_cons] at hwaiting
    have hnext : ∀ x ∈ g.successors a, g.Reachable seeds x := fun x hx => hwaiting.1.tail hx
    have hnew : ∀ x ∈ new, g.Reachable seeds x := fun x hx => hnext x (mem_unseen.mp hx).1
    have hunseen : unseen (found.map φ) (g'.successors (φ a)) = new.map φ := by
      rw [h.successors_eq a hwaiting.1]
      exact unseen_map_of_injOn h.injOn hnext hfound
    have hjoined : ∀ x ∈ agenda.join new rest, g.Reachable seeds x := fun x hx =>
      (Agenda.mem_join.mp hx).elim (hnew x) (hwaiting.2 x)
    have hlonger : ∀ x ∈ found ++ new, g.Reachable seeds x := fun x hx =>
      (List.mem_append.mp hx).elim (hfound x) (hnew x)
    rw [List.map_cons, explore]
    simp only [hunseen, ← List.map_append, Agenda.join_map]
    exact ih _ hlonger hjoined

/-- **Searching a copy.** The nodes of the copy are found in the order in which the nodes of the
graph are found. -/
theorem Copy.found_search (h : g.Copy g' φ seeds) (agenda : Agenda) :
    (g'.search agenda (seeds.map φ)).found = (g.search agenda seeds).found.map φ := by
  have hseeds : ∀ x ∈ seeds, g.Reachable seeds x := fun x hx => .of_mem hx
  have hnew : ∀ x ∈ unseen [] seeds, g.Reachable seeds x := fun x hx =>
    hseeds x (mem_unseen.mp hx).1
  have hunseen : unseen [] (seeds.map φ) = (unseen [] seeds).map φ :=
    unseen_map_of_injOn h.injOn hseeds fun _ hx => absurd hx List.not_mem_nil
  have hjoin : agenda.join ((unseen [] seeds).map φ) [] =
      (agenda.join (unseen [] seeds) []).map φ := agenda.join_map _ []
  rw [search, search, hunseen, hjoin]
  refine h.found_explore [] hnew fun x hx => hnew x ?_
  exact (Agenda.mem_join.mp hx).resolve_right List.not_mem_nil

end Graph

end Copy

end PostfixRegex
