import PostfixRegex.State

/-!
# Supplies of identifiers

A supply hands out state identifiers in increasing order and never the same one twice. Automata
that are built from one supply therefore share no identifier, which is what allows their states to
be merged into one table.
-/

namespace PostfixRegex

/-- The state of a supply: everything below `next` has been handed out. -/
structure Supply where
  next : Nat := 0
deriving DecidableEq

namespace Supply

/-- The number of identifiers handed out so far. -/
def handedOut (supply : Supply) : Nat :=
  supply.next

/-- Takes the next identifier. -/
def fresh (supply : Supply) : Nat × Supply :=
  (supply.next, ⟨supply.next + 1⟩)

/-- Takes the next `n` identifiers. -/
def skip (supply : Supply) (n : Nat) : Supply :=
  ⟨supply.next + n⟩

theorem skip_one (supply : Supply) : supply.skip 1 = supply.fresh.2 := rfl

theorem skip_skip (supply : Supply) (m n : Nat) :
    (supply.skip m).skip n = supply.skip (m + n) := by
  simp [skip, Nat.add_assoc]

end Supply

end PostfixRegex
