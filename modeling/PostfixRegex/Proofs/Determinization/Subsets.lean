import Mathlib.Data.List.Induction
import PostfixRegex.Determinization
import PostfixRegex.Proofs.Path

/-!
# The sets of the subset construction

A word leads an automaton into one set of states, and the subset construction works with the
canonical forms of these sets. This module ties the two together before anything is numbered: the
set of a word holds the ends of the paths that spell the word, and the construction discovers
exactly the sets of the words over the alphabet, each once.

## Main definitions

* `Nfa.subsetAfter` — the set that a word leads to
* `Alphabet.Covers` — all characters of a word are members

## Main results

* `Nfa.mem_nextSubset` — the members of the next set
* `Nfa.mem_subsetAfter` — the members of the set of a word
* `Nfa.mem_subsets` — the sets that are discovered
-/

namespace PostfixRegex

/-- Every character of the word is a member of the alphabet. -/
def Alphabet.Covers (a : Alphabet) (w : Word) : Prop := ∀ c ∈ w, c ∈ a.toList

instance (a : Alphabet) (w : Word) : Decidable (a.Covers w) :=
  List.decidableBAll (· ∈ a.toList) w

theorem StateSet.signature_ofSignature (s : Signature) : (ofSignature s).signature = s :=
  Signature.ext_mem fun _ => mem_signature

namespace Nfa

variable {n : Nfa} {u w : Word} {c : Char} {s : Signature} {x : Nat}

theorem mem_initialSubset : x ∈ n.initialSubset.toList ↔ n.states.Path n.start [] x :=
  StateSet.mem_signature.trans Automaton.mem_closure_start

/-- The next set is reached by one move on the character and any number on epsilon. -/
theorem mem_nextSubset : x ∈ (n.nextSubset s c).toList ↔
    ∃ p ∈ s.toList, ∃ q, n.states.Move (.char c) p q ∧ n.states.Path q [] x :=
  StateSet.mem_signature.trans Automaton.mem_step

/-- The set of states that a word leads to, in canonical form. -/
def subsetAfter (n : Nfa) (w : Word) : Signature :=
  w.foldl n.nextSubset n.initialSubset

theorem subsetAfter_append (n : Nfa) (u v : Word) :
    n.subsetAfter (u ++ v) = v.foldl n.nextSubset (n.subsetAfter u) :=
  List.foldl_append

theorem subsetAfter_concat (n : Nfa) (w : Word) (c : Char) :
    n.subsetAfter (w ++ [c]) = n.nextSubset (n.subsetAfter w) c :=
  n.subsetAfter_append w [c]

/-- **The set of a word.** It holds the ends of the paths from the start that spell the word. -/
theorem mem_subsetAfter : x ∈ (n.subsetAfter w).toList ↔ n.states.Path n.start w x := by
  induction w using List.reverseRecOn generalizing x with
  | nil => exact mem_initialSubset
  | append_singleton w c ih =>
    rw [subsetAfter_concat]
    exact StateSet.mem_signature.trans (Automaton.mem_step_iff_path fun _ => ih)

/-! ### The discovered sets -/

theorem nodup_subsets (n : Nfa) : n.subsets.Nodup :=
  n.subsetGraph.nodup_found _ _

theorem mem_subsets_iff_reachable : s ∈ n.subsets ↔ n.subsetGraph.Reachable [n.initialSubset] s :=
  Graph.mem_found_search

theorem initialSubset_mem_subsets (n : Nfa) : n.initialSubset ∈ n.subsets :=
  mem_subsets_iff_reachable.mpr (.of_mem List.mem_cons_self)

/-- The discovered sets are closed under the characters of the alphabet. -/
theorem nextSubset_mem_subsets (hs : s ∈ n.subsets) (hc : c ∈ n.alphabet.toList) :
    n.nextSubset s c ∈ n.subsets := by
  have hreach := mem_subsets_iff_reachable.mp hs
  exact mem_subsets_iff_reachable.mpr (hreach.tail (List.mem_map_of_mem hc))

theorem foldl_nextSubset_mem_subsets (hs : s ∈ n.subsets) (hw : n.alphabet.Covers w) :
    w.foldl n.nextSubset s ∈ n.subsets := by
  induction w generalizing s with
  | nil => exact hs
  | cons c w ih =>
    exact ih (nextSubset_mem_subsets hs (hw c List.mem_cons_self)) fun d hd =>
      hw d (List.mem_cons_of_mem c hd)

/-- **The discovered sets** are those that the words over the alphabet lead to. -/
theorem mem_subsets : s ∈ n.subsets ↔ ∃ w, n.alphabet.Covers w ∧ n.subsetAfter w = s := by
  constructor
  · intro hs
    obtain ⟨_, hseed, hpath⟩ := mem_subsets_iff_reachable.mp hs
    rw [List.mem_singleton] at hseed
    subst hseed
    -- along the moves between sets: each of them appends its character to the word
    induction hpath with
    | refl => exact ⟨[], by simp [Alphabet.Covers], rfl⟩
    | @tail s _ hreach hedge ih =>
      obtain ⟨w, hw, rfl⟩ := ih (mem_subsets_iff_reachable.mpr ⟨_, List.mem_cons_self, hreach⟩)
      obtain ⟨c, hc, rfl⟩ := List.mem_map.mp hedge
      refine ⟨w ++ [c], fun d hd => ?_, subsetAfter_concat n w c⟩
      rcases List.mem_append.mp hd with hd | hd
      · exact hw d hd
      · rwa [List.mem_singleton.mp hd]
  · rintro ⟨w, hw, rfl⟩
    exact foldl_nextSubset_mem_subsets n.initialSubset_mem_subsets hw

/-- The set of the empty word is discovered first. -/
theorem idxOf_initialSubset (n : Nfa) : n.subsets.idxOf n.initialSubset = 0 := by
  have hhead : n.subsets.head? = some n.initialSubset := Graph.head?_found_search
  obtain ⟨rest, hrest⟩ := List.head?_eq_some_iff.mp hhead
  rw [hrest]
  exact List.idxOf_cons_self

end Nfa

end PostfixRegex
