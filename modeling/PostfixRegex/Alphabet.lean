/-!
# Alphabets

An alphabet lists the distinct characters of an expression in the order in which they first occur.
The order matters: it is the order in which the transitions of a deterministic automaton are laid
out. The empty label is never a member, since it is no character.
-/

namespace PostfixRegex

/-- Distinct characters in order of first occurrence. -/
structure Alphabet where
  toList : List Char
  nodup : toList.Nodup

namespace Alphabet

theorem ext {a b : Alphabet} (h : a.toList = b.toList) : a = b := by
  cases a; cases b; cases h; rfl

instance : DecidableEq Alphabet := fun a b =>
  decidable_of_iff (a.toList = b.toList) ⟨ext, fun h => h ▸ rfl⟩

/-- The alphabet without characters. -/
def empty : Alphabet := ⟨[], List.nodup_nil⟩

/-- Whether the character is a member. -/
def contains (a : Alphabet) (c : Char) : Bool :=
  a.toList.contains c

@[simp] theorem contains_iff {a : Alphabet} {c : Char} : a.contains c = true ↔ c ∈ a.toList := by
  simp [contains]

/-- Puts a character at the end of the alphabet, unless it is already a member. -/
def insert (a : Alphabet) (c : Char) : Alphabet :=
  if h : c ∈ a.toList then a
  else ⟨a.toList ++ [c], List.nodup_append.mpr
    ⟨a.nodup, by simp, fun x hx y hy hxy => h (by simp_all)⟩⟩

theorem toList_insert (a : Alphabet) (c : Char) :
    (a.insert c).toList = if c ∈ a.toList then a.toList else a.toList ++ [c] := by
  rw [insert]
  split <;> rfl

@[simp] theorem mem_insert {a : Alphabet} {c x : Char} :
    x ∈ (a.insert c).toList ↔ x ∈ a.toList ∨ x = c := by
  rw [toList_insert]
  split
  · next h => exact ⟨.inl, fun hx => hx.elim id (fun e => e ▸ h)⟩
  · simp

/-- The alphabet of a list of characters: each is taken at its first occurrence. -/
def ofList (cs : List Char) : Alphabet :=
  cs.foldl insert empty

/-- The number of characters. -/
def size (a : Alphabet) : Nat :=
  a.toList.length

def isEmpty (a : Alphabet) : Bool :=
  a.toList.isEmpty

/-- The members in order, separated by commas and enclosed in braces. -/
def text (a : Alphabet) : String :=
  "\x7b" ++ ", ".intercalate (a.toList.map Char.toString) ++ "\x7d"

end Alphabet

end PostfixRegex
