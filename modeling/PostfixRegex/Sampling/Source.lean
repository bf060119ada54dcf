/-!
# Sources of random draws

What a random construction needs is a coin with a given chance and a choice among finitely many
things. A `Source` offers both over some state; the constructions know nothing else about it.

`Replay` is the source that draws on a fixed list of 64-bit words over and over again. A coin
compares the next word with a threshold. A choice among `n` things multiplies the low half of the
next word by `n` and takes the high half of the product; where the low half of the product is so
large that the result might be off by one, a second word settles it.

## Main definitions

* `Source`: a coin and a choice;
* `Replay.source`: the source that replays words.
-/

namespace PostfixRegex

/-- A chance, given by the number of 64-bit words that count as yes. -/
structure Chance where
  threshold : Nat
deriving DecidableEq

namespace Chance

/-- One half. -/
def half : Chance := ⟨9223372036854775808⟩

/-- One fifth, as the double-precision number that is nearest to it. -/
def fifth : Chance := ⟨3689348814741910528⟩

/-- One tenth, as the double-precision number that is nearest to it. -/
def tenth : Chance := ⟨1844674407370955264⟩

end Chance

/-- Random draws over a state `σ`. -/
structure Source (σ : Type) where
  /-- Yes with the given chance. -/
  coin : Chance → StateM σ Bool
  /-- One of `n + 1` things. -/
  pick : (n : Nat) → StateM σ (Fin (n + 1))

/-- A list of words to be replayed, and the number of words drawn so far. -/
structure Replay where
  words : Array UInt64
  used : Nat := 0
deriving DecidableEq

namespace Replay

/-- Draws the next word. -/
def word : StateM Replay UInt64 := fun r =>
  (r.words.getD (r.used % r.words.size) 0, { r with used := r.used + 1 })

/-- Draws a word and keeps its low half. -/
def halfWord : StateM Replay UInt32 := do
  return (← word).toUInt32

/-- Whether the next word is below the threshold. -/
def coin (chance : Chance) : StateM Replay Bool := do
  return (← word).toNat < chance.threshold

theorem scaled_lt (w : UInt32) (n : Nat) : w.toNat * (n + 1) / UInt32.size < n + 1 := by
  have hw : w.toNat ≤ 4294967295 := Nat.le_of_lt_succ w.toNat_lt
  have := Nat.mul_le_mul_right (n + 1) hw
  rw [UInt32.size]
  omega

theorem scaled_succ_lt (w : UInt32) (n : Nat)
    (h : UInt32.size - (n + 1) < w.toNat * (n + 1) % UInt32.size) :
    w.toNat * (n + 1) / UInt32.size + 1 < n + 1 := by
  have hw : w.toNat ≤ 4294967295 := Nat.le_of_lt_succ w.toNat_lt
  have := Nat.mul_le_mul_right (n + 1) hw
  rw [UInt32.size] at h ⊢
  omega

/-- A number up to `n`, by scaling half a word, or one more if a second half word says so. -/
def pick (n : Nat) : StateM Replay (Fin (n + 1)) := do
  let x ← halfWord
  if h : UInt32.size - (n + 1) < x.toNat * (n + 1) % UInt32.size then
    let y ← halfWord
    if x.toNat * (n + 1) % UInt32.size + y.toNat * (n + 1) / UInt32.size ≥ UInt32.size then
      return ⟨x.toNat * (n + 1) / UInt32.size + 1, scaled_succ_lt x n h⟩
    else return ⟨x.toNat * (n + 1) / UInt32.size, scaled_lt x n⟩
  else return ⟨x.toNat * (n + 1) / UInt32.size, scaled_lt x n⟩

/-- The source that replays words. -/
def source : Source Replay := ⟨coin, pick⟩

end Replay

end PostfixRegex
