/-!
# Transition labels

A transition is labelled either by a character, which it consumes, or by nothing at all. The empty
label is a constructor of its own, so no character of an expression can be mistaken for it: neither
`'0'` nor `'ε'` is special.
-/

namespace PostfixRegex

/-- The label of a transition. -/
inductive Symbol where
  /-- The label of a move that consumes nothing. -/
  | epsilon
  /-- The label of a move that consumes exactly this character. -/
  | char (c : Char)
deriving DecidableEq

namespace Symbol

/-- Whether the label consumes nothing. -/
def isEpsilon : Symbol → Bool
  | epsilon => true
  | char _ => false

/-- The position of a label in the order of labels: epsilon comes first, then the characters by
scalar value. -/
def rank : Symbol → Nat
  | epsilon => 0
  | char c => c.toNat + 1

theorem rank_injective : ∀ {a b : Symbol}, a.rank = b.rank → a = b
  | epsilon, epsilon, _ => rfl
  | epsilon, char _, h => by simp [rank] at h
  | char _, epsilon, h => by simp [rank] at h
  | char _, char _, h => by
      simp only [rank, Nat.add_right_cancel_iff, Char.toNat_inj] at h
      rw [h]

instance : LE Symbol := ⟨fun a b => a.rank ≤ b.rank⟩

instance : DecidableLE Symbol := fun a b => inferInstanceAs (Decidable (a.rank ≤ b.rank))

/-- A character stands for itself; the empty label is shown as `ε`. -/
def text : Symbol → String
  | epsilon => "ε"
  | char c => c.toString

/-- The given labels in increasing order, repetitions kept. -/
def sort (symbols : List Symbol) : List Symbol :=
  symbols.mergeSort fun a b => decide (a ≤ b)

end Symbol

end PostfixRegex
