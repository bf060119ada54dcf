import PostfixRegex.State
import PostfixRegex.Violation

/-!
# Tables of states

A table holds states with distinct identifiers, in increasing order of identifier. The order is
part of the type, so two tables with the same states are equal, however they were put together.

Putting a second state under an identifier that is taken is a `Violation`. A caller that owns its
identifiers never commits one; that it does not is a fact about the caller, so the operations
report it instead of ruling it out by their type.

## Main definitions

* `Table.insert`, `Table.append`, `Table.ofList`: building a table, all three checked;
* `Table.appendSmaller`: merging two tables with few insertions;
* `Table.get?`: the state with a given identifier;
* `Table.modify`: changing one state in place;
* `Table.ofRows`: the states with consecutive identifiers from a given one on.
-/

namespace PostfixRegex

/-- States with distinct identifiers, in increasing order of identifier. -/
structure Table where
  toList : List State
  sorted : toList.Pairwise (·.id < ·.id)

namespace Table

theorem ext {a b : Table} (h : a.toList = b.toList) : a = b := by
  cases a; cases b; cases h; rfl

instance : DecidableEq Table := fun a b =>
  decidable_of_iff (a.toList = b.toList) ⟨ext, fun h => h ▸ rfl⟩

/-- The table without states. -/
def empty : Table := ⟨[], .nil⟩

/-- The number of states. -/
def size (t : Table) : Nat :=
  t.toList.length

def isEmpty (t : Table) : Bool :=
  t.toList.isEmpty

/-- The identifiers of the states, in increasing order. -/
def ids (t : Table) : List Nat :=
  t.toList.map State.id

/-- The state with the given identifier. -/
def get? (t : Table) (id : Nat) : Option State :=
  t.toList.find? (·.id = id)

/-- Whether there is a state with the given identifier. -/
def contains (t : Table) (id : Nat) : Bool :=
  t.toList.any (·.id = id)

theorem ids_sorted (t : Table) : t.ids.Pairwise (· < ·) :=
  List.pairwise_map.mpr t.sorted

theorem contains_iff {t : Table} {id : Nat} : t.contains id = true ↔ id ∈ t.ids := by
  simp [contains, ids]

/-- Two states of one table that carry the same identifier are the same state. -/
theorem eq_of_id_eq {t : Table} {a b : State} (ha : a ∈ t.toList) (hb : b ∈ t.toList)
    (h : a.id = b.id) : a = b := by
  have hs := List.pairwise_iff_getElem.mp t.sorted
  obtain ⟨i, hi, rfl⟩ := List.getElem_of_mem ha
  obtain ⟨j, hj, rfl⟩ := List.getElem_of_mem hb
  rcases Nat.lt_trichotomy i j with hij | rfl | hij
  · exact absurd h (Nat.ne_of_lt (hs i j hi hj hij))
  · rfl
  · exact absurd h.symm (Nat.ne_of_lt (hs j i hj hi hij))

theorem get?_eq_some_iff {t : Table} {id : Nat} {s : State} :
    t.get? id = some s ↔ s ∈ t.toList ∧ s.id = id := by
  constructor
  · intro h
    exact ⟨List.mem_of_find?_eq_some h, by simpa using List.find?_some h⟩
  · rintro ⟨hs, rfl⟩
    cases h : t.get? s.id with
    | none => exact absurd (List.find?_eq_none.mp h s hs) (by simp)
    | some a =>
      have hid : a.id = s.id := by simpa using List.find?_some h
      rw [eq_of_id_eq (List.mem_of_find?_eq_some h) hs hid]

theorem get?_eq_none_iff {t : Table} {id : Nat} : t.get? id = none ↔ id ∉ t.ids := by
  simp [get?, ids]

/-! ### Inserting a state -/

/-- Puts a state in front of the first one with a larger identifier. -/
def place (s : State) : List State → List State
  | [] => [s]
  | x :: xs => if s.id < x.id then s :: x :: xs else x :: place s xs

theorem mem_place {s x : State} : ∀ {xs : List State}, x ∈ place s xs ↔ x = s ∨ x ∈ xs
  | [] => by simp [place]
  | y :: ys => by
      rw [place]
      split
      · simp
      · simp only [List.mem_cons, mem_place]
        exact ⟨fun h => h.elim (.inr ∘ .inl) (.imp_right .inr),
          fun h => h.elim (.inr ∘ .inl) (.imp_right .inr)⟩

theorem length_place {s : State} : ∀ {xs : List State}, (place s xs).length = xs.length + 1
  | [] => rfl
  | y :: ys => by
      rw [place]
      split
      · rfl
      · simp [length_place]

theorem sorted_place {s : State} : ∀ {xs : List State}, xs.Pairwise (·.id < ·.id) →
    (∀ x ∈ xs, x.id ≠ s.id) → (place s xs).Pairwise (·.id < ·.id)
  | [], _, _ => List.pairwise_singleton _ _
  | y :: ys, hs, hne => by
      rw [List.pairwise_cons] at hs
      rw [place]
      split
      · next h =>
        refine List.pairwise_cons.mpr ⟨fun x hx => ?_, List.pairwise_cons.mpr hs⟩
        rcases List.mem_cons.mp hx with rfl | hx
        · exact h
        · exact Nat.lt_trans h (hs.1 x hx)
      · next h =>
        have hy := hne y List.mem_cons_self
        refine List.pairwise_cons.mpr ⟨fun x hx => ?_,
          sorted_place hs.2 fun x hx => hne x (List.mem_cons_of_mem _ hx)⟩
        rcases mem_place.mp hx with rfl | hx
        · omega
        · exact hs.1 x hx

/-- Adds a state, whose identifier must not be taken. -/
def insert (t : Table) (s : State) : Checked Table :=
  if h : t.contains s.id then .error (.duplicateState s.id)
  else .ok ⟨place s t.toList, sorted_place t.sorted (by simpa [contains] using h)⟩

/-- The table of the given states, inserted one after the other. -/
def ofList (states : List State) : Checked Table :=
  states.foldlM insert empty

/-! ### Merging two tables -/

/-- The smallest identifier that both tables contain. -/
def firstCommon? (a b : Table) : Option Nat :=
  a.ids.find? b.contains

/-- Merges two lists of states by identifier. -/
def mergeById (xs ys : List State) : List State :=
  xs.merge ys fun x y => decide (x.id ≤ y.id)

theorem mem_mergeById {s : State} {xs ys : List State} :
    s ∈ mergeById xs ys ↔ s ∈ xs ∨ s ∈ ys :=
  List.mem_merge

theorem sorted_mergeById {a b : Table} (h : a.firstCommon? b = none) :
    (mergeById a.toList b.toList).Pairwise (·.id < ·.id) := by
  have hle : ∀ t : Table, t.toList.Pairwise (fun x y => decide (x.id ≤ y.id) = true) := fun t =>
    t.sorted.imp fun h => by simpa using Nat.le_of_lt h
  have hmerge : (mergeById a.toList b.toList).Pairwise
      (fun x y => decide (x.id ≤ y.id) = true) :=
    List.pairwise_merge (by simp; omega) (by simp; omega) a.toList b.toList (hle a) (hle b)
  have hnodup : ((mergeById a.toList b.toList).map State.id).Nodup := by
    refine (((List.merge_perm_append _).map State.id).nodup_iff).mpr ?_
    rw [List.map_append, List.nodup_append]
    refine ⟨a.ids_sorted.imp Nat.ne_of_lt, b.ids_sorted.imp Nat.ne_of_lt, ?_⟩
    rintro x hx y hy rfl
    exact List.find?_eq_none.mp h x hx (contains_iff.mpr hy)
  rw [List.Nodup, List.pairwise_map] at hnodup
  exact (hmerge.and hnodup).imp fun ⟨h₁, h₂⟩ =>
    Nat.lt_of_le_of_ne (by simpa using h₁) h₂

/-- The states of both tables, which must not have an identifier in common. A violation names the
smallest common identifier. -/
def append (a b : Table) : Checked Table :=
  match h : a.firstCommon? b with
  | some id => .error (.duplicateState id)
  | none => .ok ⟨mergeById a.toList b.toList, sorted_mergeById h⟩

/-- Merges two tables by inserting states: those of the smaller table go into the larger one, by
increasing identifier, and those of the second table go into the first one when the sizes agree. -/
def appendSmaller (a b : Table) : Checked Table :=
  if a.size < b.size then a.toList.foldlM insert b else b.toList.foldlM insert a

/-! ### Changing a state in place -/

/-- Changes the state with the given identifier, if there is one. The change keeps identifiers. -/
def modify (t : Table) (id : Nat) (f : State → State) (hf : ∀ s, (f s).id = s.id) : Table :=
  ⟨t.toList.map fun s => if s.id = id then f s else s, List.pairwise_map.mpr <|
    t.sorted.imp fun h => by
      split <;> split <;> simpa only [hf] using h⟩

@[simp] theorem ids_modify (t : Table) (id : Nat) (f : State → State)
    (hf : ∀ s, (f s).id = s.id) : (t.modify id f hf).ids = t.ids := by
  simp only [modify, ids, List.map_map]
  refine List.map_congr_left fun s _ => ?_
  simp only [Function.comp_apply]
  split
  · exact hf s
  · rfl

/-- Gives the state `id` one more transition. -/
def addTransition (t : Table) (id : Nat) (symbol : Symbol) (target : Nat) : Table :=
  t.modify id (·.addTransition symbol target) fun _ => rfl

/-- Sets the accepting flag of the state `id`. -/
def setAccepting (t : Table) (id : Nat) (accepting : Bool) : Table :=
  t.modify id (·.setAccepting accepting) fun _ => rfl

/-! ### Consecutive identifiers -/

/-- The content of a state whose identifier is still to be chosen. -/
structure Row where
  accepting : Bool
  transitions : List Transition

/-- Gives the rows the identifiers `first`, `first + 1` and so on. -/
def number (first : Nat) : List Row → List State
  | [] => []
  | r :: rs => ⟨first, r.accepting, r.transitions⟩ :: number (first + 1) rs

theorem le_id_of_mem_number {s : State} : ∀ {first : Nat} {rows : List Row},
    s ∈ number first rows → first ≤ s.id
  | _, [], h => by simp [number] at h
  | first, _ :: rs, h => by
      rcases List.mem_cons.mp h with rfl | h
      · exact Nat.le_refl _
      · exact Nat.le_of_succ_le (le_id_of_mem_number h)

theorem sorted_number : ∀ (first : Nat) (rows : List Row),
    (number first rows).Pairwise (·.id < ·.id)
  | _, [] => .nil
  | first, _ :: rs => List.pairwise_cons.mpr
      ⟨fun _ h => le_id_of_mem_number h, sorted_number (first + 1) rs⟩

/-- The table whose states have consecutive identifiers from `first` on. -/
def ofRows (first : Nat) (rows : List Row) : Table :=
  ⟨number first rows, sorted_number first rows⟩

end Table

end PostfixRegex
