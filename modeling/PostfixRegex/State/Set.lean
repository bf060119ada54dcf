import PostfixRegex.State.Signature

/-!
# Sets of states

A set of states remembers the order in which its members were inserted. The order is what a search
reports; it is no part of the set's identity. Two sets with the same members count as the same set
(`StateSet.sameMembers`), and their signatures are equal.
-/

namespace PostfixRegex

/-- A set of state identifiers, in order of insertion. -/
structure StateSet where
  order : List Nat
  nodup : order.Nodup

namespace StateSet

theorem ext {a b : StateSet} (h : a.order = b.order) : a = b := by
  cases a; cases b; cases h; rfl

instance : DecidableEq StateSet := fun a b =>
  decidable_of_iff (a.order = b.order) ⟨ext, fun h => h ▸ rfl⟩

/-- The set without members. -/
def empty : StateSet := ⟨[], List.nodup_nil⟩

def contains (s : StateSet) (id : Nat) : Bool :=
  s.order.contains id

@[simp] theorem contains_iff {s : StateSet} {id : Nat} : s.contains id = true ↔ id ∈ s.order := by
  simp [contains]

/-- Adds an identifier at the end, unless it is already a member. -/
def insert (s : StateSet) (id : Nat) : StateSet :=
  if h : id ∈ s.order then s
  else ⟨s.order ++ [id], List.nodup_append.mpr
    ⟨s.nodup, by simp, fun x hx y hy hxy => h (by simp_all)⟩⟩

theorem order_insert (s : StateSet) (id : Nat) :
    (s.insert id).order = if id ∈ s.order then s.order else s.order ++ [id] := by
  rw [insert]
  split <;> rfl

@[simp] theorem mem_insert {s : StateSet} {id x : Nat} :
    x ∈ (s.insert id).order ↔ x ∈ s.order ∨ x = id := by
  rw [order_insert]
  split
  · next h => exact ⟨.inl, fun hx => hx.elim (fun h => h) (fun e => e ▸ h)⟩
  · simp

/-- The set of the listed identifiers, inserted one after the other. -/
def ofList (ids : List Nat) : StateSet :=
  ids.foldl insert empty

theorem mem_foldl_insert {x : Nat} : ∀ {ids : List Nat} {s : StateSet},
    x ∈ (ids.foldl insert s).order ↔ x ∈ s.order ∨ x ∈ ids
  | [], _ => by simp
  | id :: ids, s => by
      rw [List.foldl_cons, mem_foldl_insert, mem_insert, List.mem_cons, or_assoc]

@[simp] theorem mem_ofList {x : Nat} {ids : List Nat} : x ∈ (ofList ids).order ↔ x ∈ ids := by
  simp [ofList, mem_foldl_insert, empty]

/-- The number of members. -/
def size (s : StateSet) : Nat :=
  s.order.length

def isEmpty (s : StateSet) : Bool :=
  s.order.isEmpty

/-- Whether two sets have the same members, in whatever order. -/
def sameMembers (a b : StateSet) : Bool :=
  a.order.all b.contains && b.order.all a.contains

/-- The canonical form of the set. -/
def signature (s : StateSet) : Signature :=
  .ofList s.order

@[simp] theorem mem_signature {s : StateSet} {x : Nat} :
    x ∈ s.signature.toList ↔ x ∈ s.order := by
  simp [signature]

/-- The members of a signature, inserted in increasing order. -/
def ofSignature (s : Signature) : StateSet :=
  ⟨s.toList, s.toList_sorted.imp Nat.ne_of_lt⟩

/-- The members in order of insertion, separated by commas and enclosed in braces. -/
def text (s : StateSet) : String :=
  "\x7b" ++ ", ".intercalate (s.order.map Nat.repr) ++ "\x7d"

end StateSet

end PostfixRegex
