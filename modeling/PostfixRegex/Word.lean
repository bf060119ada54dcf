/-!
# Words

The inputs of an automaton. `Word.ofLength` lists all words of one length over given characters,
which is the order in which a language is tabulated: the last position varies fastest.
-/

namespace PostfixRegex

/-- A sequence of characters. -/
abbrev Word := List Char

namespace Word

/-- All words of length `n` over the given characters, ordered by position in `cs`, the last
position varying fastest. -/
def ofLength (cs : List Char) : Nat → List Word
  | 0 => [[]]
  | n + 1 => cs.flatMap fun c => (ofLength cs n).map (c :: ·)

/-- What `accepts` says of every word over the given characters, for each length up to `max`. -/
def tabulate (accepts : Word → Bool) (cs : List Char) (max : Nat) : List (List Bool) :=
  (List.range (max + 1)).map fun n => (ofLength cs n).map accepts

/-- The listed words are exactly those of the right length whose characters are all allowed. -/
theorem mem_ofLength {cs : List Char} : ∀ {n : Nat} {w : Word},
    w ∈ ofLength cs n ↔ w.length = n ∧ ∀ c ∈ w, c ∈ cs
  | 0, w => by
      simp only [ofLength, List.mem_singleton, List.length_eq_zero_iff]
      exact ⟨fun h => ⟨h, by simp [h]⟩, fun h => h.1⟩
  | n + 1, [] => by simp [ofLength]
  | n + 1, c :: w => by
      simp only [ofLength, List.mem_flatMap, List.mem_map, List.cons.injEq, mem_ofLength,
        List.length_cons, Nat.add_right_cancel_iff, List.mem_cons, forall_eq_or_imp]
      constructor
      · rintro ⟨d, hd, v, ⟨hn, hv⟩, rfl, rfl⟩
        exact ⟨hn, hd, hv⟩
      · rintro ⟨hn, hc, hw⟩
        exact ⟨c, hc, w, ⟨hn, hw⟩, rfl, rfl⟩

end Word

end PostfixRegex
