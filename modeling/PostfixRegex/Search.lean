/-!
# Graph search

All three searches of this library explore a graph from some seeds: the closure under moves that
consume nothing, the states an automaton can reach, and the sets of states that a deterministic
automaton is made of. They differ in what a node is, in which waiting node comes next, and in
whether the answer lists the nodes in the order in which they were found or in the order in which
they were taken up. This module holds what they share.

A node is found when it is first seen as a seed or as a successor, and it joins the agenda at that
moment, so no node joins the agenda twice. The agenda is a stack or a queue.

## Main definitions

* `Graph`: a successor function whose successors all lie in one finite list;
* `Graph.search`: the search from a list of seeds, which ends because every round either finds a
  new node among finitely many or shortens the agenda.

## Implementation notes

The finite list is only asserted to exist. It bounds the number of rounds and is never computed,
which matters where it holds all sets of states.
-/

namespace PostfixRegex

variable {α : Type}

/-! ### What is new in a list -/

section Unseen

variable [DecidableEq α]

/-- The entries of a list that are not known yet, each at its first occurrence. -/
def unseen (known : List α) : List α → List α
  | [] => []
  | x :: xs => if x ∈ known then unseen known xs else x :: unseen (x :: known) xs

theorem mem_unseen {x : α} : ∀ {xs known : List α}, x ∈ unseen known xs ↔ x ∈ xs ∧ x ∉ known
  | [], _ => by simp [unseen]
  | y :: ys, known => by
      rw [unseen]
      split
      · next h =>
        rw [mem_unseen, List.mem_cons]
        exact ⟨fun hx => ⟨.inr hx.1, hx.2⟩, fun hx =>
          ⟨hx.1.resolve_left fun e => hx.2 (e ▸ h), hx.2⟩⟩
      · next h =>
        rw [List.mem_cons, mem_unseen, List.mem_cons, List.mem_cons, not_or]
        constructor
        · rintro (rfl | hx)
          · exact ⟨.inl rfl, h⟩
          · exact ⟨.inr hx.1, hx.2.2⟩
        · rintro ⟨rfl | hx, hk⟩
          · exact .inl rfl
          · exact (Decidable.em (x = y)).imp id fun hxy => ⟨hx, hxy, hk⟩

theorem nodup_unseen : ∀ (xs known : List α), (unseen known xs).Nodup
  | [], _ => List.nodup_nil
  | y :: ys, known => by
      rw [unseen]
      split
      · exact nodup_unseen ys known
      · exact List.nodup_cons.mpr
          ⟨fun h => (mem_unseen.mp h).2 List.mem_cons_self, nodup_unseen ys (y :: known)⟩

theorem nodup_append_unseen {known : List α} (h : known.Nodup) (xs : List α) :
    (known ++ unseen known xs).Nodup :=
  List.nodup_append.mpr ⟨h, nodup_unseen xs known, fun _ hx _ hy e =>
    (mem_unseen.mp hy).2 (e ▸ hx)⟩

/-- What is new leaves the list of nodes still to be found: the number of unknown nodes drops by at
least as many. -/
theorem length_filter_add_length_unseen_le {nodes : List α} : ∀ {xs : List α} (known : List α),
    (∀ x ∈ xs, x ∈ nodes) →
    (nodes.filter (· ∉ known ++ unseen known xs)).length + (unseen known xs).length ≤
      (nodes.filter (· ∉ known)).length
  | [], _, _ => by simp [unseen]
  | x :: xs, known, h => by
      have hxs : ∀ y ∈ xs, y ∈ nodes := fun y hy => h y (List.mem_cons_of_mem _ hy)
      rw [unseen]
      split
      · exact length_filter_add_length_unseen_le known hxs
      · next hx =>
        have ih := length_filter_add_length_unseen_le (x :: known) hxs
        have heq : nodes.filter (· ∉ known ++ x :: unseen (x :: known) xs) =
            nodes.filter (· ∉ (x :: known) ++ unseen (x :: known) xs) :=
          List.filter_congr fun y _ => by simp [or_left_comm]
        have hlt : (nodes.filter (· ∉ x :: known)).length < (nodes.filter (· ∉ known)).length := by
          have : nodes.filter (· ∉ x :: known) = (nodes.filter (· ∉ known)).filter (· ≠ x) := by
            rw [List.filter_filter]
            exact List.filter_congr fun y _ => by simp
          rw [this]
          exact List.length_filter_lt_length_iff_exists.mpr
            ⟨x, by simp [hx, h x List.mem_cons_self], by simp⟩
        rw [heq, List.length_cons]
        omega

end Unseen

/-! ### Graphs -/

/-- A graph is given by the successors of each node. Only finitely many nodes are successors. -/
structure Graph (α : Type) where
  successors : α → List α
  finite : ∃ nodes : List α, ∀ a, ∀ b ∈ successors a, b ∈ nodes

/-- Which of the waiting nodes is taken up next. -/
inductive Agenda where
  /-- The node that joined last. -/
  | stack
  /-- The node that has waited longest. -/
  | queue
deriving DecidableEq

/-- Adds nodes that join in the given order to those that wait already, next one first. -/
def Agenda.join : Agenda → List α → List α → List α
  | stack, new, waiting => new.reverse ++ waiting
  | queue, new, waiting => waiting ++ new

@[simp] theorem Agenda.mem_join {agenda : Agenda} {new waiting : List α} {x : α} :
    x ∈ agenda.join new waiting ↔ x ∈ new ∨ x ∈ waiting := by
  cases agenda <;> simp [join, or_comm]

@[simp] theorem Agenda.length_join (agenda : Agenda) (new waiting : List α) :
    (agenda.join new waiting).length = new.length + waiting.length := by
  cases agenda <;> simp [join, Nat.add_comm]

/-- What a search reports. -/
structure Exploration (α : Type) where
  /-- The nodes in the order in which they were found. -/
  found : List α
  /-- The nodes in the order in which they were taken up. -/
  visited : List α

namespace Graph

variable [DecidableEq α]

/-- Continues a search: takes up the next waiting node until none is left. -/
def explore (g : Graph α) (agenda : Agenda) (found visited waiting : List α) : Exploration α :=
  match waiting with
  | [] => ⟨found, visited⟩
  | a :: rest =>
    let new := unseen found (g.successors a)
    g.explore agenda (found ++ new) (visited ++ [a]) (agenda.join new rest)
termination_by (g.finite.choose.filter (· ∉ found)).length + waiting.length
decreasing_by
  have := length_filter_add_length_unseen_le found (g.finite.choose_spec a)
  simp only [Agenda.length_join, List.length_cons]
  omega

/-- The search from the given seeds, which are found first. -/
def search (g : Graph α) (agenda : Agenda) (seeds : List α) : Exploration α :=
  g.explore agenda (unseen [] seeds) [] (agenda.join (unseen [] seeds) [])

/-- Every found node was found before or is the successor of some node. -/
theorem mem_found_explore {g : Graph α} {agenda : Agenda} {found visited waiting : List α} {x : α}
    (h : x ∈ (g.explore agenda found visited waiting).found) :
    x ∈ found ∨ ∃ a, x ∈ g.successors a := by
  fun_induction explore g agenda found visited waiting with
  | case1 => exact .inl h
  | case2 found visited a rest new ih =>
    rcases ih h with hx | hx
    · rcases List.mem_append.mp hx with hx | hx
      · exact .inl hx
      · exact .inr ⟨a, (mem_unseen.mp hx).1⟩
    · exact .inr hx

theorem nodup_found_explore {g : Graph α} {agenda : Agenda} {found visited waiting : List α}
    (h : found.Nodup) : (g.explore agenda found visited waiting).found.Nodup := by
  fun_induction explore g agenda found visited waiting with
  | case1 => exact h
  | case2 found visited a rest new ih => exact ih (nodup_append_unseen h _)

/-- No node is found twice. -/
theorem nodup_found (g : Graph α) (agenda : Agenda) (seeds : List α) :
    (g.search agenda seeds).found.Nodup :=
  nodup_found_explore (nodup_unseen seeds [])

/-- Every found node is a seed or the successor of some node. -/
theorem mem_found {g : Graph α} {agenda : Agenda} {seeds : List α} {x : α}
    (h : x ∈ (g.search agenda seeds).found) : x ∈ seeds ∨ ∃ a, x ∈ g.successors a :=
  (mem_found_explore h).imp_left fun hx => (mem_unseen.mp hx).1

end Graph

end PostfixRegex
