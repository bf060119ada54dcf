import Mathlib.Data.List.Perm.Basic
import PostfixRegex.State.Table

/-!
# What the table operations put together

An insertion and a merge succeed when no identifier is taken, and then the result holds the states
of the operands and nothing else. Since a table is ordered by identifier, "holds the same states" is
said by a permutation of lists, whatever was inserted first.

## Main results

* `Table.insert_ok`, `Table.append_ok` — success, and the states of the result
* `Table.perm_ids` — the identifiers of the result
* `Table.ofList_of_perm`, `Table.perm_of_ofList_eq_ok` — a table is collected from its states in any
  order, and from nothing else
-/

namespace PostfixRegex

/-! ### Going on after a check -/

@[simp] theorem Checked.ok_bind {α β : Type} (a : α) (f : α → Checked β) :
    ((.ok a : Checked α) >>= f) = f a := rfl

@[simp] theorem Checked.pure_eq {α : Type} (a : α) : (pure a : Checked α) = .ok a := rfl

/-- What succeeds in two parts succeeds in both of them. -/
theorem Checked.bind_eq_ok {α β : Type} {x : Checked α} {f : α → Checked β} {b : β} :
    x >>= f = .ok b ↔ ∃ a, x = .ok a ∧ f a = .ok b := by
  cases x with
  | error v => exact iff_of_false (fun h => by cases h) fun ⟨_, h, _⟩ => by cases h
  | ok a => exact ⟨fun h => ⟨a, rfl, h⟩, fun ⟨_, h, hf⟩ => by cases h; exact hf⟩

/-- What is known of the value that succeeds shows that there is one. -/
theorem exists_eq_ok_of_map {ε α β : Type} {x : Except ε α} {f : α → β} {b : β}
    (h : x.toOption.map f = some b) : ∃ a, x = .ok a ∧ f a = b := by
  cases x with
  | error v => cases h
  | ok a => exact ⟨a, rfl, Option.some.inj h⟩

/-! ### Insertion and merging -/

namespace Table

theorem perm_place (s : State) : ∀ xs : List State, (place s xs).Perm (s :: xs)
  | [] => .refl _
  | x :: xs => by
    rw [place]
    split
    · exact .refl _
    · exact ((perm_place s xs).cons x).trans (.swap s x xs)

/-- A state whose identifier is free joins the others. -/
theorem insert_ok {t : Table} {s : State} (h : s.id ∉ t.ids) :
    ∃ t', t.insert s = .ok t' ∧ t'.toList.Perm (s :: t.toList) := by
  have hfree : ¬ t.contains s.id = true := fun hc => h (contains_iff.mp hc)
  rw [insert, dif_neg hfree]
  exact ⟨_, rfl, perm_place s t.toList⟩

theorem firstCommon?_eq_none {a b : Table} (h : ∀ id ∈ a.ids, id ∉ b.ids) :
    a.firstCommon? b = none :=
  List.find?_eq_none.mpr fun id hid hc => h id hid (contains_iff.mp hc)

/-- Two tables without a common identifier merge. -/
theorem append_ok {a b : Table} (h : ∀ id ∈ a.ids, id ∉ b.ids) :
    ∃ t', a.append b = .ok t' ∧ t'.toList.Perm (a.toList ++ b.toList) := by
  have hnone := firstCommon?_eq_none h
  rw [append]
  split
  · next id hsome => rw [hnone] at hsome; cases hsome
  · exact ⟨_, rfl, List.merge_perm_append _⟩

theorem nodup_ids (t : Table) : t.ids.Nodup :=
  t.ids_sorted.imp Nat.ne_of_lt

/-- Exactly one state is listed under its identifier. -/
theorem filter_id_eq {t : Table} {s : State} (hs : s ∈ t.toList) :
    t.toList.filter (fun x => x.id = s.id) = [s] := by
  have hsame : ∀ x ∈ t.toList, decide (x.id = s.id) = decide (x = s) := by
    intro x hx
    exact decide_eq_decide.mpr ⟨eq_of_id_eq hx hs, congrArg State.id⟩
  have hnodup : t.toList.Nodup := by
    refine t.sorted.imp fun {a b} hlt heq => ?_
    rw [heq] at hlt
    exact Nat.lt_irrefl _ hlt
  rw [List.filter_congr hsame, List.filter_eq, hnodup.count, if_pos hs]
  rfl

/-- A table is determined by its states. -/
theorem eq_of_perm {t t' : Table} (h : t.toList.Perm t'.toList) : t = t' := by
  refine Table.ext (h.eq_of_pairwise ?_ t.sorted t'.sorted)
  intro a b _ _ hab hba
  exact absurd (Nat.lt_trans hab hba) (Nat.lt_irrefl _)

/-- Collecting what a table still lacks, in any order. -/
theorem foldlM_insert_of_perm {t t' : Table} {states : List State}
    (h : (states ++ t.toList).Perm t'.toList) : states.foldlM insert t = .ok t' := by
  induction states generalizing t with
  | nil => rw [eq_of_perm h, List.foldlM_nil, Checked.pure_eq]
  | cons s states ih =>
    have hnodup : ((s :: states ++ t.toList).map State.id).Nodup :=
      (h.map State.id).nodup_iff.mpr t'.nodup_ids
    have hfree : s.id ∉ t.ids := by
      rw [List.cons_append, List.map_cons, List.nodup_cons, List.map_append] at hnodup
      exact fun hmem => hnodup.1 (List.mem_append_right _ hmem)
    obtain ⟨t₁, hok, hp⟩ := insert_ok hfree
    rw [List.foldlM_cons, hok, Checked.ok_bind]
    exact ih (((hp.append_left states).trans List.perm_middle).trans h)

/-- **A table is collected from its states**, whatever their order. -/
theorem ofList_of_perm {t : Table} {states : List State} (h : states.Perm t.toList) :
    ofList states = .ok t :=
  foldlM_insert_of_perm ((List.append_nil states).symm ▸ h)

/-- A state that was inserted joins the others. -/
theorem perm_of_insert_eq_ok {t t' : Table} {s : State} (h : t.insert s = .ok t') :
    t'.toList.Perm (s :: t.toList) := by
  rw [insert] at h
  split at h
  · cases h
  · cases h
    exact perm_place s t.toList

theorem perm_of_foldlM_insert_eq_ok {t t' : Table} {states : List State}
    (h : states.foldlM insert t = .ok t') : t'.toList.Perm (states ++ t.toList) := by
  induction states generalizing t with
  | nil =>
    cases h
    exact .refl _
  | cons s states ih =>
    rw [List.foldlM_cons] at h
    obtain ⟨t₁, hinsert, h⟩ := Checked.bind_eq_ok.mp h
    refine (ih h).trans (((perm_of_insert_eq_ok hinsert).append_left states).trans ?_)
    exact List.perm_middle

/-- A table that was collected holds the states it was collected from. -/
theorem perm_of_ofList_eq_ok {t : Table} {states : List State} (h : ofList states = .ok t) :
    t.toList.Perm states := by
  have hperm := perm_of_foldlM_insert_eq_ok h
  rwa [show empty.toList = [] from rfl, List.append_nil] at hperm

/-- The identifiers of a table, read off any list of its states. -/
theorem perm_ids {t : Table} {states : List State} (h : t.toList.Perm states) :
    t.ids.Perm (states.map State.id) :=
  h.map State.id

end Table

end PostfixRegex
