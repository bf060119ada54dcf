import Mathlib.Data.List.Destutter
import Mathlib.Data.List.Induction
import Mathlib.Tactic.TFAE
import PostfixRegex.Proofs.Search.Queue
import PostfixRegex.State.Set.Indexed

/-!
# When two sets of states are the same

The subset construction tells sets of states apart by their signatures, so a signature has to be the
same for every way in which a set can come about. Two facts are behind that. One is about insertion:
the index of an `IndexedSet` holds what its order lists, after any insertions, and both say the same
as the `StateSet` that went through them. The other is about sorting: however a list is sorted,
dropping each entry that repeats the one before it leaves an increasing list with the same members,
and there is only one such list.

## Main definitions

* `IndexedSet.Indexes` — an indexed set and a set of states that agree
* `IndexedSet.Records` — what a set says of the insertions into it
* `Signature.NormalForm` — what the signature of a list is

## Main results

* `IndexedSet.Indexes.insert` — one insertion keeps order and index in step
* `IndexedSet.indexes_ofList` — any insertions do
* `Signature.destutter_eq` — sorting in any way and dropping repetitions
* `IndexedSet.ofList_canonical` — what insertions leave behind, and when two sets are the same
-/

namespace PostfixRegex

/-! ### Sets as lists -/

namespace StateSet

variable {a b : StateSet} {ids : List Nat} {id : Nat}

theorem ofList_append_singleton (ids : List Nat) (id : Nat) :
    ofList (ids ++ [id]) = (ofList ids).insert id := by
  rw [ofList, List.foldl_append]
  rfl

/-- The order of a set lists what was inserted, each identifier where it came first. -/
theorem order_ofList (ids : List Nat) : (ofList ids).order = ids.eraseDups := by
  induction ids using List.reverseRecOn with
  | nil => rfl
  | append_singleton ids id ih =>
    rw [ofList_append_singleton, order_insert, ih, ← eraseDups_append_unseen]
    split
    · next h => simp [unseen, h]
    · next h => simp [unseen, h]

theorem sameMembers_iff : a.sameMembers b = true ↔ ∀ id, id ∈ a.order ↔ id ∈ b.order := by
  rw [sameMembers, Bool.and_eq_true, List.all_eq_true, List.all_eq_true]
  simp only [contains_iff]
  exact ⟨fun h id => ⟨h.1 id, h.2 id⟩, fun h => ⟨fun id => (h id).mp, fun id => (h id).mpr⟩⟩

theorem signature_eq_iff : a.signature = b.signature ↔ ∀ id, id ∈ a.order ↔ id ∈ b.order := by
  constructor
  · intro h id
    rw [← mem_signature, h, mem_signature]
  · intro h
    refine Signature.ext_mem fun id => ?_
    rw [mem_signature, mem_signature, h]

end StateSet

/-! ### Order and index -/

namespace IndexedSet

variable {a b : IndexedSet} {s t : StateSet} {id : Nat}

/-- The indexed set lists the members of `s` in the order of `s`, and its index holds the same. -/
structure Indexes (a : IndexedSet) (s : StateSet) : Prop where
  order_eq : a.order.toList = s.order
  contains_eq : ∀ id, a.contains id = s.contains id

theorem indexes_empty : empty.Indexes .empty where
  order_eq := rfl
  contains_eq _ := Std.HashSet.contains_empty

/-- The answer to an insertion, and what is in the set afterwards, by what the index held before. -/
theorem insert_eq (a : IndexedSet) (id : Nat) :
    a.insert id = (!a.contains id,
      { order := if a.contains id then a.order else a.order.push id,
        members := a.members.insert id }) := by
  have hsplit : a.members.containsThenInsert id = (a.contains id, a.members.insert id) :=
    Prod.ext Std.HashSet.containsThenInsert_fst Std.HashSet.containsThenInsert_snd
  rw [insert, hsplit]
  cases a.contains id <;> rfl

/-- **One insertion.** An insertion into both sets keeps them in agreement. -/
theorem Indexes.insert (h : a.Indexes s) (id : Nat) : (a.insert id).2.Indexes (s.insert id) where
  order_eq := by
    rw [insert_eq, StateSet.order_insert, ← h.order_eq]
    by_cases hid : id ∈ s.order
    · have hknown : a.contains id = true := (h.contains_eq id).trans (StateSet.contains_iff.mpr hid)
      rw [if_pos hknown, h.order_eq, if_pos hid]
    · have hnew : ¬ a.contains id = true := by rwa [h.contains_eq, StateSet.contains_iff]
      rw [if_neg hnew, Array.toList_push, h.order_eq, if_neg hid]
  contains_eq x := by
    have hindex : (a.insert id).2.contains x = (id == x || a.contains x) := by
      rw [insert_eq]
      exact Std.HashSet.contains_insert
    rw [hindex, h.contains_eq, Bool.eq_iff_iff, Bool.or_eq_true, beq_iff_eq,
      StateSet.contains_iff, StateSet.contains_iff, StateSet.mem_insert, or_comm, eq_comm]

/-- **Any insertions.** Two sets with the same insertions behind them agree. -/
theorem indexes_ofList (ids : List Nat) : (ofList ids).Indexes (.ofList ids) := by
  induction ids using List.reverseRecOn with
  | nil => exact indexes_empty
  | append_singleton ids id ih =>
    rw [ofList, List.foldl_append, StateSet.ofList_append_singleton]
    exact ih.insert id

theorem Indexes.signature_eq (h : a.Indexes s) : a.signature = s.signature :=
  congrArg Signature.ofList h.order_eq

/-- Comparing the indexes is comparing the members one by one. -/
theorem sameMembers_iff : a.sameMembers b = true ↔ ∀ id, a.contains id = b.contains id := by
  constructor
  · intro h id
    exact (Std.HashSet.beq_iff_equiv.mp h).contains_eq
  · intro h
    exact Std.HashSet.beq_iff_equiv.mpr (.of_forall_contains_eq h)

/-- Sets that agree with `s` and `t` have the same members exactly if `s` and `t` do. -/
theorem Indexes.contains_eq_iff (ha : a.Indexes s) (hb : b.Indexes t) :
    (∀ id, a.contains id = b.contains id) ↔ ∀ id, id ∈ s.order ↔ id ∈ t.order := by
  refine forall_congr' fun id => ?_
  rw [ha.contains_eq, hb.contains_eq, Bool.eq_iff_iff, StateSet.contains_iff, StateSet.contains_iff]

/-- What a set says of the identifiers that were inserted into it one after the other. -/
structure Records (a : IndexedSet) (ids : List Nat) : Prop where
  /-- The order lists the identifiers, each where it was inserted first. -/
  order_eq : a.order.toList = ids.eraseDups
  /-- The index holds what the order lists. -/
  contains_iff : ∀ id, a.contains id = true ↔ id ∈ a.order
  /-- The next insertion is answered by whether its identifier is new. -/
  insert_iff : ∀ id, (a.insert id).1 = true ↔ id ∉ ids

theorem records_ofList (ids : List Nat) : (ofList ids).Records ids := by
  have h : (ofList ids).Indexes (.ofList ids) := indexes_ofList ids
  refine ⟨?_, fun id => ?_, fun id => ?_⟩
  · rw [h.order_eq, StateSet.order_ofList]
  · rw [h.contains_eq, StateSet.contains_iff, ← h.order_eq, Array.mem_toList_iff]
  · rw [insert_eq, Bool.not_eq_true', ← Bool.not_eq_true, h.contains_eq, StateSet.contains_iff,
      StateSet.mem_ofList]

end IndexedSet

/-! ### Sorting and dropping repetitions -/

namespace Signature

variable {ids : List Nat} {a x : Nat}

/-- What is dropped is kept once. -/
theorem mem_destutter'_iff : x ∈ ids.destutter' (· ≠ ·) a ↔ x = a ∨ x ∈ ids := by
  induction ids generalizing a with
  | nil => simp
  | cons b ids ih =>
    by_cases hab : a ≠ b
    · rw [List.destutter'_cons_pos _ hab, List.mem_cons, ih, List.mem_cons]
    · obtain rfl : a = b := not_not.mp hab
      rw [List.destutter'_cons_neg _ hab, ih, List.mem_cons, or_self_left]

/-- In a sorted list all repetitions stand side by side, so none is left. -/
theorem sorted_destutter' (h : (a :: ids).Pairwise (· ≤ ·)) :
    (ids.destutter' (· ≠ ·) a).Pairwise (· < ·) := by
  induction ids generalizing a with
  | nil => exact List.pairwise_singleton _ _
  | cons b ids ih =>
    obtain ⟨hfirst, hrest⟩ := List.pairwise_cons.mp h
    by_cases hab : a ≠ b
    · rw [List.destutter'_cons_pos _ hab, List.pairwise_cons]
      refine ⟨fun x hx => ?_, ih hrest⟩
      have hlt : a < b := Nat.lt_of_le_of_ne (hfirst b List.mem_cons_self) hab
      rcases mem_destutter'_iff.mp hx with rfl | hx
      · exact hlt
      · exact Nat.lt_of_lt_of_le hlt ((List.pairwise_cons.mp hrest).1 x hx)
    · obtain rfl : a = b := not_not.mp hab
      rw [List.destutter'_cons_neg _ hab]
      exact ih hrest

/-- **Sorting.** However the identifiers are sorted, what is left when each that repeats the one
before it is dropped are the identifiers of the signature. -/
theorem destutter_eq {sorted : List Nat} (hperm : sorted.Perm ids) (hs : sorted.Pairwise (· ≤ ·)) :
    sorted.destutter (· ≠ ·) = (ofList ids).toList := by
  refine eq_of_sorted_of_mem_iff ?_ (ofList ids).sorted fun x => ?_
  · cases sorted with
    | nil => exact .nil
    | cons a sorted => exact sorted_destutter' hs
  · rw [mem_toList_ofList, ← hperm.mem_iff]
    cases sorted with
    | nil => exact Iff.rfl
    | cons a sorted => rw [List.destutter_cons', mem_destutter'_iff, List.mem_cons]

/-- What the signature of a list is, and what it answers. -/
structure NormalForm (σ : Signature) (ids : List Nat) : Prop where
  increasing : σ.toList.Pairwise (· < ·)
  mem_iff : ∀ id, id ∈ σ.toList ↔ id ∈ ids
  /-- Bisection finds the members of the list and nothing else. -/
  contains_iff : ∀ id, σ.contains id = true ↔ id ∈ ids
  /-- Sorting the list, in any way, and dropping repetitions gives the identifiers. -/
  destutter_eq : ∀ sorted : List Nat, sorted.Perm ids → sorted.Pairwise (· ≤ ·) →
    sorted.destutter (· ≠ ·) = σ.toList

theorem normalForm_ofList (ids : List Nat) : (ofList ids).NormalForm ids where
  increasing := (ofList ids).sorted
  mem_iff _ := mem_toList_ofList
  contains_iff _ := contains_iff.trans mem_toList_ofList
  destutter_eq _ := destutter_eq

end Signature

/-! ### The identity of a set -/

/-- **The same set.** After any insertions the order lists the identifiers by first insertion, the
index holds what the order lists, the next insertion is answered by whether its identifier is new,
and a set without an index says the same of all this. The signature of any list is increasing and
has the members of the list. Two sets, whatever was inserted into them, have the same members
exactly if they compare as equal, and exactly if they have the same signature. -/
theorem IndexedSet.ofList_canonical (xs ys : List Nat) :
    (ofList xs).Records xs ∧ (ofList xs).Indexes (.ofList xs) ∧
      (Signature.ofList xs).NormalForm xs ∧
      List.TFAE [
        ∀ id, (ofList xs).contains id = (ofList ys).contains id,
        (ofList xs).sameMembers (ofList ys) = true,
        (ofList xs).signature = (ofList ys).signature,
        (StateSet.ofList xs).sameMembers (StateSet.ofList ys) = true,
        (StateSet.ofList xs).signature = (StateSet.ofList ys).signature] := by
  refine ⟨records_ofList xs, indexes_ofList xs, Signature.normalForm_ofList xs, ?_⟩
  have hx : (ofList xs).Indexes (.ofList xs) := indexes_ofList xs
  have hy : (ofList ys).Indexes (.ofList ys) := indexes_ofList ys
  tfae_have 1 ↔ 2 := sameMembers_iff.symm
  tfae_have 1 ↔ 4 := (hx.contains_eq_iff hy).trans StateSet.sameMembers_iff.symm
  tfae_have 4 ↔ 5 := StateSet.sameMembers_iff.trans StateSet.signature_eq_iff.symm
  tfae_have 3 ↔ 5 := by rw [hx.signature_eq, hy.signature_eq]
  tfae_finish

end PostfixRegex
