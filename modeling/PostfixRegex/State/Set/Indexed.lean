import Mathlib.Data.List.Nodup
import PostfixRegex.State.Set

/-!
# Sets of states with an index

`StateSet` keeps a list of its members and looks them up there. Here the members are kept twice: in
an array, in order of insertion, and in a hash set. Lookups and comparisons ask the hash set alone,
and the order is for listing and for the signature. Nothing in the structure ties the two to each
other. That they hold the same members is the work of `IndexedSet.insert`, which adds to the order
exactly what is new to the hash set.

## Main definitions

* `IndexedSet`: an order and an index;
* `IndexedSet.insert`, `IndexedSet.ofList`: one insertion, which tells whether the identifier was
  new, and some in a row;
* `IndexedSet.sameMembers`, `IndexedSet.signature`: what two sets are compared by.
-/

namespace PostfixRegex

/-- Identifiers in order of insertion, and an index of them. -/
structure IndexedSet where
  order : Array Nat
  members : Std.HashSet Nat

namespace IndexedSet

/-- The set without members. -/
def empty : IndexedSet := ⟨#[], ∅⟩

/-- Adds an identifier. The answer says whether it was new. -/
def insert (s : IndexedSet) (id : Nat) : Bool × IndexedSet :=
  let (known, members) := s.members.containsThenInsert id
  if known then (false, { s with members }) else (true, { order := s.order.push id, members })

/-- The set of the listed identifiers, inserted one after the other. -/
def ofList (ids : List Nat) : IndexedSet :=
  ids.foldl (fun s id => (s.insert id).2) empty

def contains (s : IndexedSet) (id : Nat) : Bool :=
  s.members.contains id

/-- Whether the indexes of two sets are equal. -/
def sameMembers (a b : IndexedSet) : Bool :=
  a.members.beq b.members

/-- The canonical form of the set. -/
def signature (s : IndexedSet) : Signature :=
  .ofList s.order.toList

end IndexedSet

end PostfixRegex
