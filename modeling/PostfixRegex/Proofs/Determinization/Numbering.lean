import Mathlib.Data.List.Basic
import PostfixRegex.Proofs.Determinization.Subsets

/-!
# The numbered sets

The deterministic automaton numbers the discovered sets from some identifier on. Everything it does
can therefore be said in terms of the sets: `Nfa.number` is the identifier of a set, and a state,
a transition, a run and a provenance of the automaton are those of the set with that identifier.

All statements are about `Nfa.numbered n first`, the automaton that `Nfa.determinize` returns for a
supply that stands at `first`.

## Main definitions

* `Nfa.numbered` — the deterministic automaton with identifiers from `first` on
* `Nfa.number` — the identifier of a set
* `Nfa.subsetState` — the state that stands for a set

## Main results

* `Nfa.mem_states_numbered`, `Nfa.subset?_numbered_iff` — the states and their provenance
* `Nfa.run?_numbered` — a run follows the sets of the word
-/

namespace PostfixRegex

/-! ### Consecutive identifiers -/

namespace Table

theorem mem_number {q : State} : ∀ {first : Nat} {rows : List Row},
    q ∈ number first rows ↔
      ∃ (i : Nat) (r : Row), rows[i]? = some r ∧ q = ⟨first + i, r.accepting, r.transitions⟩
  | first, [] => by simp [number]
  | first, r :: rows => by
    rw [number, List.mem_cons, mem_number]
    constructor
    · rintro (rfl | ⟨i, r', hr, rfl⟩)
      · exact ⟨0, r, rfl, rfl⟩
      · exact ⟨i + 1, r', hr, by rw [Nat.add_assoc, Nat.add_comm 1]⟩
    · rintro ⟨i, r', hr, rfl⟩
      cases i with
      | zero =>
        obtain rfl : r = r' := Option.some.inj hr
        exact .inl rfl
      | succ i => exact .inr ⟨i, r', hr, by rw [Nat.add_assoc, Nat.add_comm 1]⟩

theorem map_id_number : ∀ (first : Nat) (rows : List Row),
    (number first rows).map State.id = List.range' first rows.length
  | _, [] => rfl
  | first, _ :: rows => by
    rw [number, List.map_cons, map_id_number, List.length_cons, List.range'_succ]

theorem ids_ofRows (first : Nat) (rows : List Row) :
    (ofRows first rows).ids = List.range' first rows.length :=
  map_id_number first rows

end Table

/-- In a list that is numbered from `first` on, the number finds the entry. -/
theorem lookup_zip_range'_iff {α : Type} {a : α} {id : Nat} : ∀ {first : Nat} {xs : List α},
    ((List.range' first xs.length).zip xs).lookup id = some a ↔
      ∃ i, xs[i]? = some a ∧ id = first + i
  | first, [] => by simp
  | first, x :: xs => by
    rw [List.length_cons, List.range'_succ, List.zip_cons_cons, List.lookup_cons]
    by_cases hid : id = first
    · subst hid
      rw [beq_self_eq_true]
      constructor
      · intro h
        exact ⟨0, h, rfl⟩
      · rintro ⟨i, hi, h⟩
        obtain rfl : i = 0 := by omega
        exact hi
    · rw [beq_eq_false_iff_ne.mpr hid]
      refine lookup_zip_range'_iff.trans ⟨?_, ?_⟩
      · rintro ⟨i, hi, rfl⟩
        exact ⟨i + 1, hi, by omega⟩
      · rintro ⟨i, hi, rfl⟩
        cases i with
        | zero => exact absurd rfl hid
        | succ i => exact ⟨i, hi, by omega⟩

namespace Nfa

/-! ### The states of the deterministic automaton -/

/-- The deterministic automaton whose identifiers start at `first`. -/
def numbered (n : Nfa) (first : Nat) : Dfa :=
  n.dfaOfSubsets first n.subsets

theorem determinize_eq (n : Nfa) (supply : Supply) (h : n.states.isEmpty = false) :
    n.determinize supply = some (n.numbered supply.next, supply.skip n.subsets.length) := by
  rw [determinize, if_neg (by simp [h])]
  rfl

/-- The identifier of a set, counted from `first` on in the order of discovery. -/
def number (n : Nfa) (first : Nat) (s : Signature) : Nat :=
  first + n.subsets.idxOf s

/-- The state that stands for a set. -/
def subsetState (n : Nfa) (first : Nat) (s : Signature) : State where
  id := n.number first s
  accepting := n.anyAccepting s.toList
  transitions := n.alphabet.toList.map fun c => ⟨.char c, n.number first (n.nextSubset s c)⟩

variable {n : Nfa} {first id : Nat} {s s' : Signature} {c : Char} {w : Word}

theorem number_injOn (hs : s ∈ n.subsets) (h : n.number first s = n.number first s') : s = s' :=
  (List.idxOf_inj hs).mp (Nat.add_left_cancel h)

theorem idxOf_eq_of_getElem? {i : Nat} (h : n.subsets[i]? = some s) : n.subsets.idxOf s = i := by
  obtain ⟨hi, rfl⟩ := List.getElem?_eq_some_iff.mp h
  exact List.Nodup.idxOf_getElem n.nodup_subsets i hi

/-- The states of the automaton are those that stand for the discovered sets. -/
theorem mem_states_numbered {q : State} :
    q ∈ (n.numbered first).states.toList ↔ ∃ s ∈ n.subsets, q = n.subsetState first s := by
  refine Table.mem_number.trans ⟨?_, ?_⟩
  · rintro ⟨i, r, hr, rfl⟩
    rw [List.getElem?_map, Option.map_eq_some_iff] at hr
    obtain ⟨s, hs, rfl⟩ := hr
    refine ⟨s, List.mem_of_getElem? hs, ?_⟩
    rw [subsetState, number, idxOf_eq_of_getElem? hs]
    rfl
  · rintro ⟨s, hs, rfl⟩
    refine ⟨n.subsets.idxOf s, n.subsetRow first n.subsets s, ?_, rfl⟩
    rw [List.getElem?_map, List.getElem?_idxOf hs]
    rfl

theorem state?_number (hs : s ∈ n.subsets) :
    (n.numbered first).state? (n.number first s) = some (n.subsetState first s) :=
  Table.get?_eq_some_iff.mpr ⟨mem_states_numbered.mpr ⟨s, hs, rfl⟩, rfl⟩

theorem ids_numbered (n : Nfa) (first : Nat) :
    (n.numbered first).states.ids = List.range' first n.subsets.length := by
  refine (Table.ids_ofRows first _).trans ?_
  rw [List.length_map]

theorem size_numbered (n : Nfa) (first : Nat) :
    (n.numbered first).states.size = n.subsets.length := by
  have hids := congrArg List.length (n.ids_numbered first)
  rwa [Table.ids, List.length_map, List.length_range'] at hids

/-- The provenance of an identifier is the set with that number. -/
theorem subset?_numbered_iff :
    (n.numbered first).subset? id = some s ↔ s ∈ n.subsets ∧ id = n.number first s := by
  rw [Dfa.subset?, Dfa.provenance, ids_numbered]
  refine lookup_zip_range'_iff.trans ⟨?_, ?_⟩
  · rintro ⟨i, hi, rfl⟩
    refine ⟨List.mem_of_getElem? hi, ?_⟩
    rw [number, idxOf_eq_of_getElem? hi]
  · rintro ⟨hs, rfl⟩
    exact ⟨n.subsets.idxOf s, List.getElem?_idxOf hs, rfl⟩

/-! ### Runs -/

theorem start_numbered (n : Nfa) (first : Nat) :
    (n.numbered first).start = n.number first n.initialSubset := by
  rw [number, idxOf_initialSubset]
  rfl

/-- The start is one of the states. -/
theorem start_mem_ids_numbered (n : Nfa) (first : Nat) :
    (n.numbered first).start ∈ (n.numbered first).states.ids := by
  rw [start_numbered]
  exact List.mem_map_of_mem (mem_states_numbered.mpr ⟨_, n.initialSubset_mem_subsets, rfl⟩)

/-- The targets of a state on a character: one if the alphabet has the character, else none. -/
theorem targets_subsetState (n : Nfa) (first : Nat) (s : Signature) (c : Char) :
    (n.subsetState first s).targets (.char c) =
      if c ∈ n.alphabet.toList then [n.number first (n.nextSubset s c)] else [] := by
  have hfilter : (n.subsetState first s).targets (.char c) =
      (n.alphabet.toList.filter (· = c)).map fun d => n.number first (n.nextSubset s d) := by
    simp [State.targets, subsetState, List.filter_map, Function.comp_def]
  rw [hfilter, List.filter_eq, n.alphabet.nodup.count]
  split <;> rfl

theorem next?_number (hs : s ∈ n.subsets) :
    (n.numbered first).next? (n.number first s) c =
      if c ∈ n.alphabet.toList then some (n.number first (n.nextSubset s c)) else none := by
  rw [Dfa.next?, state?_number hs, Option.bind_some, State.next?, targets_subsetState]
  split <;> rfl

/-- **Runs.** A word over the alphabet leads from a set to the set it leads to, and any other word
stops where a character is missing. -/
theorem run?_number (hs : s ∈ n.subsets) :
    (n.numbered first).run? (n.number first s) w =
      if n.alphabet.Covers w then some (n.number first (w.foldl n.nextSubset s)) else none := by
  induction w generalizing s with
  | nil => simp [Dfa.run?, Alphabet.Covers]
  | cons c w ih =>
    rw [Dfa.run?, next?_number hs]
    by_cases hc : c ∈ n.alphabet.toList
    · have hiff : n.alphabet.Covers (c :: w) ↔ n.alphabet.Covers w := by
        simp [Alphabet.Covers, hc]
      simp only [if_pos hc, ih (nextSubset_mem_subsets hs hc), hiff, List.foldl_cons]
    · have hcover : ¬ n.alphabet.Covers (c :: w) := fun h => hc (h c List.mem_cons_self)
      rw [if_neg hc, if_neg hcover]

theorem run?_numbered (n : Nfa) (first : Nat) (w : Word) :
    (n.numbered first).run? (n.numbered first).start w =
      if n.alphabet.Covers w then some (n.number first (n.subsetAfter w)) else none := by
  rw [start_numbered, run?_number n.initialSubset_mem_subsets]
  rfl

end Nfa

end PostfixRegex
