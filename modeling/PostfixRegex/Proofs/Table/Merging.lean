import Mathlib.Data.List.Nodup
import Mathlib.Order.Bounds.Basic
import PostfixRegex.Proofs.Table

/-!
# Merging tables

Two tables are merged by inserting the states of one of them into the other. Which one is inserted
is a matter of cost, and the choice changes the order of the insertions, the table they start from
and the insertion that fails. None of this can be seen in the result. If no identifier is shared,
both choices give the table of all states. If identifiers are shared, the states that are inserted
come by increasing identifier, so the first that fails has the smallest identifier that both tables
contain, and that is the same identifier for both choices.

All of it rests on one fact about insertions in a row: they fail exactly when an identifier occurs
twice among those of the table and of the states, and then at its first repetition.

## Main definitions

* `FirstRepeat` — the first entry of a list that occurs before
* `Table.IsUnion` — a table holds the states of two others

## Main results

* `Table.foldlM_insert_ok`, `Table.foldlM_insert_error` — insertions in a row
* `Table.append_error`, `Table.append_comm`, `Table.appendSmaller_eq` — the two directions
* `Table.merge_outcome` — what merging and collecting lead to
-/

namespace PostfixRegex

/-! ### The first repetition in a list -/

section FirstRepeat

variable {α : Type}

/-- The entry repeats one before it, and no entry before it repeats one. -/
def FirstRepeat (xs : List α) (x : α) : Prop :=
  ∃ before after, xs = before ++ x :: after ∧ before.Nodup ∧ x ∈ before

theorem FirstRepeat.not_nodup {xs : List α} {x : α} (h : FirstRepeat xs x) : ¬ xs.Nodup := by
  obtain ⟨before, after, rfl, -, hmem⟩ := h
  intro hnodup
  exact (List.nodup_append.mp hnodup).2.2 x hmem x List.mem_cons_self rfl

/-- A list without repetitions goes on without one, or its first repetition follows. -/
theorem nodup_or_firstRepeat_append [DecidableEq α] {before : List α} (h : before.Nodup)
    (xs : List α) : (before ++ xs).Nodup ∨ ∃ x, FirstRepeat (before ++ xs) x := by
  induction xs generalizing before with
  | nil => exact .inl (by rwa [List.append_nil])
  | cons x xs ih =>
    by_cases hx : x ∈ before
    · exact .inr ⟨x, before, xs, rfl, h, hx⟩
    · have hnext : (before ++ [x]).Nodup := List.concat_eq_append ▸ h.concat hx
      simpa using ih hnext

theorem nodup_or_firstRepeat [DecidableEq α] (xs : List α) :
    xs.Nodup ∨ ∃ x, FirstRepeat xs x :=
  nodup_or_firstRepeat_append List.nodup_nil xs

/-- The first repetition lies behind a part without repetitions. -/
theorem FirstRepeat.exists_append {xs ys : List α} {x : α} (h : FirstRepeat (xs ++ ys) x)
    (hxs : xs.Nodup) : ∃ before after, ys = before ++ x :: after ∧ (xs ++ before).Nodup ∧
      x ∈ xs ++ before := by
  obtain ⟨before, after, heq, hnodup, hmem⟩ := h
  rcases List.append_eq_append_iff.mp heq with ⟨middle, rfl, hys⟩ | ⟨rest, hbefore, hsplit⟩
  · exact ⟨middle, after, hys, hnodup, hmem⟩
  · cases rest with
    | nil =>
      rw [List.append_nil] at hbefore
      subst hbefore
      exact ⟨[], after, hsplit.symm, by rwa [List.append_nil], by rwa [List.append_nil]⟩
    | cons y rest =>
      obtain ⟨rfl, -⟩ := List.cons.inj hsplit
      exact absurd hxs (FirstRepeat.not_nodup ⟨before, rest, hbefore, hnodup, hmem⟩)

end FirstRepeat

namespace Table

/-! ### Insertions in a row -/

theorem insert_error {t : Table} {s : State} (h : s.id ∈ t.ids) :
    t.insert s = .error (.duplicateState s.id) := by
  rw [insert, dif_pos (contains_iff.mpr h)]

/-- Insertions in a row succeed when no identifier is repeated. -/
theorem foldlM_insert_ok {t : Table} {states : List State}
    (h : (t.ids ++ states.map State.id).Nodup) :
    ∃ t', states.foldlM insert t = .ok t' ∧ t'.toList.Perm (t.toList ++ states) := by
  induction states generalizing t with
  | nil => exact ⟨t, rfl, by rw [List.append_nil]⟩
  | cons s states ih =>
    have hfree : s.id ∉ t.ids := fun hmem =>
      (List.nodup_append.mp h).2.2 s.id hmem s.id List.mem_cons_self rfl
    obtain ⟨t₁, hinsert, hperm⟩ := insert_ok hfree
    have hids : (t₁.ids ++ states.map State.id).Perm (t.ids ++ (s :: states).map State.id) := by
      refine ((perm_ids hperm).append_right _).trans ?_
      rw [List.map_cons, List.cons_append, List.map_cons]
      exact List.perm_middle.symm
    obtain ⟨t', hfold, hperm'⟩ := ih (hids.nodup_iff.mpr h)
    refine ⟨t', ?_, hperm'.trans ?_⟩
    · rw [List.foldlM_cons, hinsert, Checked.ok_bind, hfold]
    · exact (hperm.append_right states).trans List.perm_middle.symm

/-- Otherwise they fail, and the identifier that is reported is the first repetition. -/
theorem foldlM_insert_error {t : Table} {states : List State} {id : Nat}
    (h : FirstRepeat (t.ids ++ states.map State.id) id) :
    states.foldlM insert t = .error (.duplicateState id) := by
  obtain ⟨before, after, heq, hnodup, hmem⟩ := h.exists_append t.nodup_ids
  obtain ⟨front, back, rfl, rfl, hback⟩ := List.map_eq_append_iff.mp heq
  obtain ⟨s, rest, rfl, rfl, -⟩ := List.map_eq_cons_iff.mp hback
  obtain ⟨t', hfold, hperm⟩ := foldlM_insert_ok hnodup
  have htaken : s.id ∈ t'.ids := by
    rw [(perm_ids hperm).mem_iff, List.map_append]
    exact hmem
  rw [List.foldlM_append, hfold, Checked.ok_bind, List.foldlM_cons, insert_error htaken]
  rfl

/-- **Collecting states** fails exactly at the first identifier that is repeated. -/
theorem ofList_eq_error_iff {states : List State} {v : Violation} :
    ofList states = .error v ↔
      ∃ id, FirstRepeat (states.map State.id) id ∧ v = .duplicateState id := by
  constructor
  · intro h
    rcases nodup_or_firstRepeat (states.map State.id) with hnodup | ⟨id, hid⟩
    · obtain ⟨t, hok, -⟩ := foldlM_insert_ok (t := empty) hnodup
      rw [ofList, hok] at h
      cases h
    · refine ⟨id, hid, ?_⟩
      rw [ofList, foldlM_insert_error (t := empty) hid] at h
      exact (Except.error.inj h).symm
  · rintro ⟨id, hid, rfl⟩
    exact foldlM_insert_error (t := empty) hid

/-- States can be collected when no two of them have the same identifier, and only then. -/
theorem exists_ofList_eq_error_iff {states : List State} :
    (∃ v, ofList states = .error v) ↔ ¬ states.Pairwise (·.id ≠ ·.id) := by
  rw [← List.pairwise_map (f := State.id)]
  constructor
  · rintro ⟨v, hv⟩
    obtain ⟨id, hid, -⟩ := ofList_eq_error_iff.mp hv
    exact hid.not_nodup
  · intro hnot
    obtain ⟨id, hid⟩ := (nodup_or_firstRepeat (states.map State.id)).resolve_left hnot
    exact ⟨_, ofList_eq_error_iff.mpr ⟨id, hid, rfl⟩⟩

/-! ### Merging in both directions -/

/-- The identifiers that both tables contain. -/
def common (a b : Table) : Set Nat :=
  {id | id ∈ a.ids ∧ id ∈ b.ids}

theorem common_comm (a b : Table) : a.common b = b.common a :=
  Set.ext fun _ => and_comm

theorem firstCommon?_eq_some {a b : Table} {id : Nat} (h : a.firstCommon? b = some id) :
    IsLeast (a.common b) id := by
  obtain ⟨hid, before, after, heq, hbefore⟩ := List.find?_eq_some_iff_append.mp h
  refine ⟨⟨by rw [heq]; simp, contains_iff.mp hid⟩, fun x ⟨hxa, hxb⟩ => ?_⟩
  have hsorted := heq ▸ a.ids_sorted
  rw [List.pairwise_append, List.pairwise_cons] at hsorted
  rcases List.mem_append.mp (heq ▸ hxa) with hx | hx
  · have hnot := hbefore x hx
    simp [contains_iff.mpr hxb] at hnot
  · rcases List.mem_cons.mp hx with rfl | hx
    · exact Nat.le_refl _
    · exact Nat.le_of_lt (hsorted.2.1.1 x hx)

/-- Two tables share no identifier, or there is a smallest one that they share. -/
theorem disjoint_or_exists_isLeast (a b : Table) :
    (∀ id ∈ a.ids, id ∉ b.ids) ∨ ∃ id, IsLeast (a.common b) id := by
  cases h : a.firstCommon? b with
  | none => exact .inl fun id hid hmem => List.find?_eq_none.mp h id hid (contains_iff.mpr hmem)
  | some id => exact .inr ⟨id, firstCommon?_eq_some h⟩

/-- A table's identifiers increase, so the first one that another table contains as well is the
smallest one. -/
theorem firstRepeat_append_ids {a b : Table} {id : Nat} (h : IsLeast (a.common b) id) :
    FirstRepeat (a.ids ++ b.ids) id := by
  obtain ⟨before, after, heq⟩ := List.append_of_mem h.1.2
  have hsorted := heq ▸ b.ids_sorted
  rw [List.pairwise_append] at hsorted
  refine ⟨a.ids ++ before, after, by rw [heq, List.append_assoc], ?_,
    List.mem_append_left _ h.1.1⟩
  refine List.nodup_append.mpr ⟨a.nodup_ids, hsorted.1.imp Nat.ne_of_lt, fun x hx y hy hxy => ?_⟩
  subst hxy
  have hlt : x < id := hsorted.2.2 x hy id List.mem_cons_self
  have hle : id ≤ x := h.2 ⟨hx, heq ▸ List.mem_append_left _ hy⟩
  omega

/-- Merging tables with common identifiers reports the smallest one. -/
theorem append_error {a b : Table} {id : Nat} (h : IsLeast (a.common b) id) :
    a.append b = .error (.duplicateState id) := by
  rw [append]
  split
  · next id' hsome => rw [(firstCommon?_eq_some hsome).unique h]
  · next hnone =>
    exact absurd (contains_iff.mpr h.1.2) (List.find?_eq_none.mp hnone id h.1.1)

theorem append_comm (a b : Table) : a.append b = b.append a := by
  rcases disjoint_or_exists_isLeast a b with hdisjoint | ⟨id, hid⟩
  · obtain ⟨t, ht, hperm⟩ := append_ok hdisjoint
    obtain ⟨t', ht', hperm'⟩ := append_ok (a := b) (b := a) fun id hb ha => hdisjoint id ha hb
    rw [ht, ht', eq_of_perm (hperm.trans (List.perm_append_comm.trans hperm'.symm))]
  · rw [append_error hid, append_error (common_comm a b ▸ hid)]

/-- **Whichever table is inserted**, the result is the same. -/
theorem appendSmaller_eq (a b : Table) : a.appendSmaller b = a.append b := by
  have hinsert : ∀ a b : Table, b.toList.foldlM insert a = a.append b := by
    intro a b
    rcases disjoint_or_exists_isLeast a b with hdisjoint | ⟨id, hid⟩
    · obtain ⟨t, ht, hperm⟩ := append_ok hdisjoint
      rw [ht]
      exact foldlM_insert_of_perm (List.perm_append_comm.trans hperm.symm)
    · rw [foldlM_insert_error (firstRepeat_append_ids hid), append_error hid]
  rw [appendSmaller]
  split
  · rw [hinsert, append_comm]
  · exact hinsert a b

/-- The table holds the states of two tables without a common identifier. -/
structure IsUnion (a b t : Table) : Prop where
  disjoint : ∀ id ∈ a.ids, id ∉ b.ids
  /-- The states are those of both, unchanged. -/
  perm : t.toList.Perm (a.toList ++ b.toList)
  sorted : t.toList.Pairwise (·.id < ·.id)
  size_eq : t.size = a.size + b.size
  /-- It is collected from these states in any order. -/
  ofList_eq : ∀ states : List State, states.Perm (a.toList ++ b.toList) → ofList states = .ok t

theorem exists_union {a b : Table} (h : ∀ id ∈ a.ids, id ∉ b.ids) :
    ∃ t, a.append b = .ok t ∧ IsUnion a b t := by
  obtain ⟨t, ht, hperm⟩ := append_ok h
  refine ⟨t, ht, h, hperm, t.sorted, ?_, fun states hstates => ?_⟩
  · rw [size, hperm.length_eq, List.length_append]
    rfl
  · exact ofList_of_perm (hstates.trans hperm.symm)

/-- **Merging tables** does not depend on their sizes or on their order. Without a common identifier
it gives the table of all states, and otherwise it reports the smallest common one. Collecting a
list of states fails exactly when two of them have the same identifier, and reports the first that
repeats an earlier one. -/
theorem merge_outcome (a b : Table) (states : List State) :
    a.append b = b.append a ∧ a.appendSmaller b = a.append b ∧
      ((∃ t, a.append b = .ok t ∧ IsUnion a b t) ∨
        ∃ id, IsLeast (a.common b) id ∧
          a.append b = .error (.duplicateState id)) ∧
      ((∃ v, ofList states = .error v) ↔ ¬ states.Pairwise (·.id ≠ ·.id)) ∧
      ∀ v, ofList states = .error v ↔
        ∃ id, FirstRepeat (states.map State.id) id ∧ v = .duplicateState id := by
  refine ⟨append_comm a b, appendSmaller_eq a b, ?_, exists_ofList_eq_error_iff,
    fun v => ofList_eq_error_iff⟩
  rcases disjoint_or_exists_isLeast a b with hdisjoint | ⟨id, hid⟩
  · exact .inl (exists_union hdisjoint)
  · exact .inr ⟨id, hid, append_error hid⟩

end Table

end PostfixRegex
