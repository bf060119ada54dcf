import Mathlib.Data.List.Infix
import Mathlib.Data.Nat.Find
import PostfixRegex.Proofs.Search.Rounds

/-!
# The order of a search with a stack

A recursive search lists a node and then visits what the node leads to, one after the other, before
it goes back. `Graph.Preorder` says which lists that gives, for all choices of the order in which
successors are visited. Such a list can be told from its positions alone: if a node leads to another
one, then whatever is listed between the two is led to by something that is listed in between
(`DepthFirst`).

A search with a stack is not of this kind. A node joins the stack once, when the first node that
leads to it is taken up, and a node that is taken up later and leads to it as well does not move it
up. What waits above it comes first, although nothing that was taken up since need lead there. What
remains true is the same condition for fewer moves, those along which a node is found for the first
time.

## Main definitions

* `DepthFirst` — the condition on positions, for any relation between nodes
* `Discovers` — the first entry of a list that leads to a node
* `Graph.Preorder` — what a recursive search lists
* `Graph.Stacked` — what holds between two rounds of a search with a stack

## Main results

* `Graph.Preorder.depthFirst` — a recursive search satisfies the condition
* `Graph.Stacked.take` — one round keeps the invariant
* `Graph.depthFirst_visited_search_stack` — a stack satisfies the condition for the moves that
  discover a node
-/

namespace PostfixRegex

variable {α : Type}

/-! ### Orders that are depth first -/

/-- When an entry leads to a later one, every entry between the two is led to by the former or by
one that stands between them. -/
def DepthFirst (leads : α → α → Prop) (order : List α) : Prop :=
  ∀ (i j k : Nat) (hij : i < j) (hjk : j < k) (hk : k < order.length), leads order[i] order[k] →
    ∃ m, ∃ (_ : i ≤ m) (hm : m < j), leads order[m] order[j]

/-- The entry `p` leads to `x`, and no entry before it does. -/
def Discovers (leads : α → α → Prop) (order : List α) (p x : α) : Prop :=
  leads p x ∧ ∀ before after, order = before ++ p :: after → ∀ q ∈ before, ¬ leads q x

/-- A list, split at one of its positions. -/
theorem eq_take_append_getElem_drop (order : List α) {n : Nat} (h : n < order.length) :
    order = order.take n ++ order[n] :: order.drop (n + 1) := by
  simp

theorem depthFirst_nil (leads : α → α → Prop) : DepthFirst leads [] := by
  intro i j k _ _ hk
  exact absurd hk (Nat.not_lt_zero k)

/-- A node in front, when all that follows it is led to by it or by something in between. -/
theorem DepthFirst.cons {leads : α → α → Prop} {p : α} {order : List α} (h : DepthFirst leads order)
    (hp : ∀ before x after, order = before ++ x :: after →
      leads p x ∨ ∃ q ∈ before, leads q x) : DepthFirst leads (p :: order) := by
  intro i j k hij hjk hk hlead
  obtain ⟨j, rfl⟩ := Nat.exists_eq_add_one_of_ne_zero (Nat.ne_zero_of_lt hij)
  obtain ⟨k, rfl⟩ := Nat.exists_eq_add_one_of_ne_zero (Nat.ne_zero_of_lt hjk)
  simp only [List.length_cons, Nat.add_lt_add_iff_right] at hk
  simp only [List.getElem_cons_succ] at hlead ⊢
  cases i with
  | zero =>
    have hj : j < order.length := by omega
    rcases hp _ _ _ (eq_take_append_getElem_drop order hj) with hfirst | ⟨q, hq, hlater⟩
    · exact ⟨0, Nat.le_refl 0, Nat.succ_pos j, hfirst⟩
    · obtain ⟨m, hm, rfl⟩ := List.getElem_of_mem hq
      rw [List.length_take] at hm
      refine ⟨m + 1, Nat.zero_le _, by omega, ?_⟩
      simpa using hlater
  | succ i =>
    obtain ⟨m, him, hmj, hm⟩ := h i j k (by omega) (by omega) hk hlead
    exact ⟨m + 1, by omega, by omega, hm⟩

/-- Two orders after each other, when nothing in the first leads into the second. -/
theorem DepthFirst.append {leads : α → α → Prop} {front back : List α}
    (hfront : DepthFirst leads front) (hback : DepthFirst leads back)
    (h : ∀ p ∈ front, ∀ x ∈ back, ¬ leads p x) : DepthFirst leads (front ++ back) := by
  intro i j k hij hjk hk hlead
  rw [List.length_append] at hk
  by_cases hfrontk : k < front.length
  · rw [List.getElem_append_left (by omega), List.getElem_append_left hfrontk] at hlead
    obtain ⟨m, him, hmj, hm⟩ := hfront i j k hij hjk hfrontk hlead
    refine ⟨m, him, hmj, ?_⟩
    rwa [List.getElem_append_left (by omega), List.getElem_append_left (by omega)]
  · rw [List.getElem_append_right (by omega : front.length ≤ k)] at hlead
    by_cases hfronti : i < front.length
    · rw [List.getElem_append_left hfronti] at hlead
      exact absurd hlead (h _ (List.getElem_mem _) _ (List.getElem_mem _))
    · rw [List.getElem_append_right (by omega)] at hlead
      obtain ⟨m, him, hmj, hm⟩ := hback (i - front.length) (j - front.length) (k - front.length)
        (by omega) (by omega) (by omega) hlead
      refine ⟨m + front.length, by omega, by omega, ?_⟩
      rw [List.getElem_append_right (by omega), List.getElem_append_right (by omega)]
      simpa using hm

namespace Graph

/-! ### Recursive searches -/

/-- What a recursive search lists when the nodes `known` are listed already and the nodes `todo` are
to be visited one after the other. A node that is not listed yet is listed and visits all its
successors, in an order of its own, before the search goes on. -/
inductive Preorder (g : Graph α) : List α → List α → List α → Prop
  | done (known : List α) : g.Preorder known [] []
  | skip {known todo order : List α} {x : α} (hx : x ∈ known) (h : g.Preorder known todo order) :
      g.Preorder known (x :: todo) order
  | visit {known todo next below rest : List α} {x : α} (hx : x ∉ known)
      (hnext : next.Perm (g.successors x)) (hbelow : g.Preorder (known ++ [x]) next below)
      (hrest : g.Preorder (known ++ x :: below) todo rest) :
      g.Preorder known (x :: todo) (x :: below ++ rest)

namespace Preorder

variable {g : Graph α} {known todo order : List α}

/-- No node is listed again. -/
theorem notMem_known (h : g.Preorder known todo order) {x : α} (hx : x ∈ order) : x ∉ known := by
  induction h with
  | done known => exact absurd hx List.not_mem_nil
  | skip hy h ih => exact ih hx
  | visit hy hnext hbelow hrest ihbelow ihrest =>
    rw [List.cons_append, List.mem_cons, List.mem_append] at hx
    rcases hx with rfl | hx | hx
    · exact hy
    · exact fun hmem => ihbelow hx (List.mem_append_left _ hmem)
    · exact fun hmem => ihrest hx (List.mem_append_left _ hmem)

/-- Whatever is to be visited is listed in the end. -/
theorem mem_of_mem_todo (h : g.Preorder known todo order) {x : α} (hx : x ∈ todo) :
    x ∈ known ++ order := by
  induction h with
  | done known => exact absurd hx List.not_mem_nil
  | skip hy h ih =>
    rcases List.mem_cons.mp hx with rfl | hx
    · exact List.mem_append_left _ hy
    · exact ih hx
  | visit hy hnext hbelow hrest ihbelow ihrest =>
    rcases List.mem_cons.mp hx with rfl | hx
    · simp
    · simpa [or_assoc] using ihrest hx

/-- Successors are listed together with a node. -/
theorem mem_of_mem_successors (h : g.Preorder known todo order) {p x : α} (hp : p ∈ order)
    (hx : x ∈ g.successors p) : x ∈ known ++ order := by
  induction h with
  | done known => exact absurd hp List.not_mem_nil
  | skip hy h ih => exact ih hp
  | visit hy hnext hbelow hrest ihbelow ihrest =>
    rw [List.cons_append, List.mem_cons, List.mem_append] at hp
    rcases hp with rfl | hp | hp
    · have hmem := hbelow.mem_of_mem_todo (hnext.mem_iff.mpr hx)
      simp only [List.mem_append, List.mem_cons, List.not_mem_nil, or_false] at hmem ⊢
      tauto
    · have hmem := ihbelow hp
      simp only [List.mem_append, List.mem_cons, List.not_mem_nil, or_false] at hmem ⊢
      tauto
    · simpa [or_assoc] using ihrest hp

/-- Every node is listed as one that was to be visited or as the successor of one listed before. -/
theorem traced (h : g.Preorder known todo order) : g.Traced todo order := by
  induction h with
  | done known => exact fun before x after heq => absurd heq.symm (by simp)
  | skip hy h ih =>
    intro before x after heq
    exact (ih before x after heq).imp_left (List.mem_cons_of_mem _)
  | @visit known todo next below rest x hy hnext hbelow hrest ihbelow ihrest =>
    have hsingle : g.Traced (x :: todo) ([] ++ [x]) := by
      refine Traced.append (fun before y after heq => absurd heq.symm (by simp)) fun y hy => .inl ?_
      exact List.mem_cons.mpr (.inl (List.mem_singleton.mp hy))
    have hfront : g.Traced (x :: todo) ([x] ++ below) := by
      refine Traced.append_of_forall hsingle fun before y after heq => .inr ?_
      rcases ihbelow before y after heq with hmem | ⟨q, hq, hsucc⟩
      · exact ⟨x, by simp, hnext.mem_iff.mp hmem⟩
      · exact ⟨q, by simp [hq], hsucc⟩
    refine Traced.append_of_forall hfront fun before y after heq => ?_
    rcases ihrest before y after heq with hmem | ⟨q, hq, hsucc⟩
    · exact .inl (List.mem_cons_of_mem _ hmem)
    · exact .inr ⟨q, by simp [hq], hsucc⟩

/-- **A recursive search lists nodes depth first.** What a node leads to is listed before the search
goes back behind it, so nothing leads out of what was listed meanwhile into what comes later. -/
theorem depthFirst (h : g.Preorder known todo order) : DepthFirst g.Edge order := by
  induction h with
  | done known => exact depthFirst_nil _
  | skip hx h ih => exact ih
  | @visit known todo next below rest x hx hnext hbelow hrest ihbelow ihrest =>
    refine (ihbelow.cons fun before y after heq => ?_).append ihrest fun p hp y hy hlead => ?_
    · exact (hbelow.traced before y after heq).imp_left hnext.mem_iff.mp
    · refine hrest.notMem_known hy ?_
      rcases List.mem_cons.mp hp with rfl | hp
      · simpa using hbelow.mem_of_mem_todo (hnext.mem_iff.mpr hlead)
      · simpa using hbelow.mem_of_mem_successors hp hlead

end Preorder

/-! ### The stack -/

section Stack

variable {g : Graph α} {seeds found visited waiting : List α}

/-- A node is found with some nodes taken up if it is a seed or the successor of one of them. -/
def Finds (g : Graph α) (seeds visited : List α) (x : α) : Prop :=
  x ∈ seeds ∨ ∃ a ∈ visited, x ∈ g.successors a

theorem Finds.append {x : α} (h : g.Finds seeds visited x) (more : List α) :
    g.Finds seeds (visited ++ more) x :=
  h.imp_right fun ⟨a, ha, hx⟩ => ⟨a, List.mem_append_left _ ha, hx⟩

theorem finds_append_singleton {a x : α} :
    g.Finds seeds (visited ++ [a]) x ↔ g.Finds seeds visited x ∨ x ∈ g.successors a := by
  simp [Finds, or_and_right, exists_or, or_assoc]

/-- At the time when `x` was found, `y` had been found as well. -/
def FoundBy (g : Graph α) (seeds visited : List α) (x y : α) : Prop :=
  ∀ before, before <+: visited → g.Finds seeds before x → g.Finds seeds before y

/-- What holds between two rounds of a search with a stack. -/
structure Stacked (g : Graph α) (seeds found visited waiting : List α) : Prop where
  /-- The nodes taken up have left their successors behind. -/
  found_of_finds : ∀ x, g.Finds seeds visited x → x ∈ found
  /-- A node waits only after it was found. -/
  finds_of_waiting : ∀ x ∈ waiting, g.Finds seeds visited x
  /-- Further down the stack are nodes that were found no later. -/
  waiting_pairwise : waiting.Pairwise (g.FoundBy seeds visited)
  /-- What had been found when a node was taken up, and comes after it, waited below it. -/
  visited_foundBy : ∀ before x after, visited = before ++ x :: after →
    ∀ y ∈ after ++ waiting, g.Finds seeds before y → g.FoundBy seeds before x y

variable [DecidableEq α]

theorem Stacked.initial (g : Graph α) (seeds : List α) :
    g.Stacked seeds (unseen [] seeds) [] (Agenda.stack.join (unseen [] seeds) []) where
  found_of_finds x hx := by
    rcases hx with hx | ⟨_, hnone, _⟩
    · exact mem_unseen.mpr ⟨hx, List.not_mem_nil⟩
    · exact absurd hnone List.not_mem_nil
  finds_of_waiting x hx := .inl (by simpa [mem_unseen] using hx)
  waiting_pairwise := by
    refine List.pairwise_of_forall_mem_list fun x _ y hy before _ _ => .inl ?_
    simpa [mem_unseen] using hy
  visited_foundBy before x after heq := absurd heq.symm (by simp)

/-- **One round.** The new nodes were found later than all that waits, and they are put on top. -/
theorem Stacked.take {a : α} (h : g.Stacked seeds found visited (a :: waiting)) :
    g.Stacked seeds (found ++ unseen found (g.successors a)) (visited ++ [a])
      (Agenda.stack.join (unseen found (g.successors a)) waiting) := by
  have hnew : ∀ x ∈ unseen found (g.successors a), ¬ g.Finds seeds visited x := fun x hx hfinds =>
    (mem_unseen.mp hx).2 (h.found_of_finds x hfinds)
  have hwaiting : ∀ x ∈ Agenda.stack.join (unseen found (g.successors a)) waiting,
      g.Finds seeds (visited ++ [a]) x := by
    intro x hx
    rcases Agenda.mem_join.mp hx with hx | hx
    · exact finds_append_singleton.mpr (.inr (mem_unseen.mp hx).1)
    · exact (h.finds_of_waiting x (List.mem_cons_of_mem _ hx)).append _
  -- only the beginnings of what had been taken up before have to be looked at
  have hlast : ∀ x, ∀ y ∈ Agenda.stack.join (unseen found (g.successors a)) waiting,
      g.FoundBy seeds visited x y → g.FoundBy seeds (visited ++ [a]) x y := by
    intro x y hy hxy before hbefore hx
    rcases List.prefix_concat_iff.mp hbefore with rfl | hbefore
    · exact hwaiting y hy
    · exact hxy before hbefore hx
  have hnever : ∀ x ∈ unseen found (g.successors a), ∀ y, g.FoundBy seeds visited x y := by
    rintro x hx y before ⟨rest, rfl⟩ hfinds
    exact absurd (hfinds.append rest) (hnew x hx)
  refine ⟨fun x hx => ?_, hwaiting, ?_, fun before x after heq y hy hfinds => ?_⟩
  · rcases finds_append_singleton.mp hx with hx | hx
    · exact List.mem_append_left _ (h.found_of_finds x hx)
    · exact mem_append_unseen hx
  · refine List.Pairwise.imp_of_mem (fun {x y} _ hy hxy => hlast x y hy hxy) ?_
    rw [Agenda.join, List.pairwise_append]
    refine ⟨List.pairwise_of_forall_mem_list fun x hx y _ => hnever x (by simpa using hx) y,
      (List.pairwise_cons.mp h.waiting_pairwise).2, fun x hx y _ => hnever x (by simpa using hx) y⟩
  · rcases List.eq_nil_or_concat after with rfl | ⟨later, b, rfl⟩
    · -- `a` itself was on top, so what had been found and was not taken up waits below it
      obtain ⟨rfl, hax⟩ := List.append_inj' heq rfl
      obtain rfl : a = x := List.head_eq_of_cons_eq hax
      rcases Agenda.mem_join.mp (List.nil_append _ ▸ hy) with hy | hy
      · exact absurd hfinds (hnew y hy)
      · exact (List.pairwise_cons.mp h.waiting_pairwise).1 y hy
    · rw [List.concat_eq_append, ← List.cons_append, ← List.append_assoc] at heq
      obtain ⟨rfl, hab⟩ := List.append_inj' heq rfl
      obtain rfl : a = b := List.head_eq_of_cons_eq hab
      refine h.visited_foundBy before x later rfl y ?_ hfinds
      simp only [List.concat_eq_append, List.mem_append, Agenda.mem_join, List.mem_cons] at hy ⊢
      have hold : y ∉ unseen found (g.successors a) := fun hnewy => hnew y hnewy (hfinds.append _)
      tauto

/-- A search that starts between two such rounds keeps to it until nothing waits. -/
theorem Stacked.explore (h : g.Stacked seeds found visited waiting) :
    g.Stacked seeds (g.explore .stack found visited waiting).found
      (g.explore .stack found visited waiting).visited [] := by
  fun_induction Graph.explore g .stack found visited waiting with
  | case1 => exact h
  | case2 found visited a rest new ih => exact ih h.take

/-- **Nothing overtakes what waits.** If `y` comes after `x` and had been found when `x` was taken
up, then `y` was found no later than `x`. -/
theorem foundBy_of_visited_search_stack {before after : List α} {x y : α}
    (heq : (g.search .stack seeds).visited = before ++ x :: after) (hy : y ∈ after)
    (hfinds : g.Finds seeds before y) : g.FoundBy seeds before x y :=
  (Stacked.initial g seeds).explore.visited_foundBy before x after heq y
    (List.mem_append_left _ hy) hfinds

omit [DecidableEq α] in
/-- In a list without repetitions the first entry that leads to a node discovers it. -/
theorem discovers_getElem {leads : α → α → Prop} {order : List α} (hnodup : order.Nodup) {m : Nat}
    (hm : m < order.length) {x : α} (hlead : leads order[m] x)
    (hfirst : ∀ l, ∀ hl : l < m, ¬ leads order[l] x) : Discovers leads order order[m] x := by
  refine ⟨hlead, fun before after heq q hq => ?_⟩
  have hlength : before.length < order.length := by rw [heq]; simp
  have hget : order[before.length] = order[m] := by
    have hmiddle : (before ++ order[m] :: after)[before.length]? = some order[m] := by simp
    rw [← heq] at hmiddle
    exact (List.getElem_eq_iff hlength).mpr hmiddle
  obtain rfl : before.length = m := (hnodup.getElem_inj_iff).mp hget
  obtain ⟨l, hl, rfl⟩ := List.getElem_of_mem hq
  have hsame : order[l] = before[l] := by
    rw [List.getElem_of_eq heq, List.getElem_append_left hl]
  exact hsame ▸ hfirst l hl

omit [DecidableEq α] in
/-- In a list from one seed every entry but the first one is discovered by one before it. -/
theorem Traced.exists_discovers {start : α} {order : List α} (h : g.Traced [start] order)
    (hnodup : order.Nodup) {j : Nat} (hpos : 0 < j) (hj : j < order.length) :
    ∃ m, ∃ _ : m < j, Discovers g.Edge order order[m] order[j] := by
  classical
  have hne : order.take j ≠ [] := List.ne_nil_of_length_pos (by simp; omega)
  have hex : ∃ m, ∃ _ : m < j, g.Edge order[m] order[j] := by
    obtain ⟨q, hq, hlead⟩ := h.exists_of_ne_nil hnodup (eq_take_append_getElem_drop order hj) hne
    obtain ⟨m, hm, rfl⟩ := List.getElem_of_mem hq
    rw [List.length_take] at hm
    exact ⟨m, by omega, by simpa [Edge] using hlead⟩
  obtain ⟨hmj, hlead⟩ := Nat.find_spec hex
  refine ⟨Nat.find hex, hmj, discovers_getElem hnodup (by omega) hlead fun l hl hearlier => ?_⟩
  exact Nat.find_min hex hl ⟨by omega, hearlier⟩

omit [DecidableEq α] in
/-- What an entry discovers is not found before that entry is taken up. -/
theorem Traced.lt_of_discovers {start : α} {order : List α} (h : g.Traced [start] order)
    (hnodup : order.Nodup) {i k n : Nat} (hi : i < order.length) (hpos : 0 < k)
    (hk : k < order.length) (hdiscovers : Discovers g.Edge order order[i] order[k])
    (hfinds : g.Finds [start] (order.take n) order[k]) : i < n := by
  rcases hfinds with hstart | ⟨q, hq, hlead⟩
  · have hhead := h.head?_eq (List.ne_nil_of_mem (List.getElem_mem hk))
    rw [← List.mem_singleton.mp hstart, List.head?_eq_getElem?,
      List.getElem?_eq_getElem (by omega), Option.some_inj, hnodup.getElem_inj_iff] at hhead
    omega
  · by_contra hlate
    have hbefore : q ∈ order.take i := (List.take_prefix_take_left (by omega)).subset hq
    exact hdiscovers.2 _ _ (eq_take_append_getElem_drop order hi) q hbefore hlead

omit [DecidableEq α] in
/-- In a list from one seed without repetitions, where nothing overtakes what waits, the entry that
discovers a node decides where the node stands. -/
theorem depthFirst_discovers {start : α} {order : List α} (hnodup : order.Nodup)
    (htraced : g.Traced [start] order)
    (hfoundBy : ∀ before x after, order = before ++ x :: after → ∀ y ∈ after,
      g.Finds [start] before y → g.FoundBy [start] before x y) :
    DepthFirst (Discovers g.Edge order) order := by
  intro i j k hij hjk hk hdiscovers
  obtain ⟨m, hmj, hm⟩ := htraced.exists_discovers hnodup (j := j) (by omega) (by omega)
  refine ⟨m, ?_, hmj, hm⟩
  -- the entry at `k` waits when `j` is taken up, so it was found when `j` was, that is with `m`
  have hafter : order[k] ∈ order.drop (j + 1) :=
    List.mem_drop_iff_getElem.mpr ⟨k - (j + 1), by omega, by congr 1; omega⟩
  have hfinds : g.Finds [start] (order.take j) order[k] :=
    .inr ⟨order[i], List.mem_take_iff_getElem.mpr ⟨i, by omega, rfl⟩, hdiscovers.1⟩
  have hwithm : g.Finds [start] (order.take (m + 1)) order[j] :=
    .inr ⟨order[m], List.mem_take_iff_getElem.mpr ⟨m, by omega, rfl⟩, hm.1⟩
  have hbefore : order.take (m + 1) <+: order.take j := List.take_prefix_take_left (by omega)
  have hfound : g.Finds [start] (order.take (m + 1)) order[k] :=
    hfoundBy _ _ _ (eq_take_append_getElem_drop order (by omega)) _ hafter hfinds _ hbefore hwithm
  exact Nat.le_of_lt_succ
    (htraced.lt_of_discovers hnodup (by omega) (by omega) hk hdiscovers hfound)

/-- **The order of a search with a stack** from one seed is depth first along the moves by which a
node is found for the first time. -/
theorem depthFirst_visited_search_stack (start : α) :
    DepthFirst (Discovers g.Edge (g.search .stack [start]).visited)
      (g.search .stack [start]).visited :=
  depthFirst_discovers (perm_visited_search.nodup_iff.mpr (nodup_found _ _ _)) traced_visited_search
    fun _ _ _ heq _ hy hfinds => foundBy_of_visited_search_stack heq hy hfinds

end Stack

end Graph

end PostfixRegex
