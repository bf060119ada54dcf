import PostfixRegex.Proofs.Determinization.Language

/-!
# Provenance

Every state of a deterministic automaton remembers a set of states of the automaton it was made
from. `Dfa.StandsFor` says that this memory is exact: the sets are those that words lead to, none is
missing, none is listed twice, and acceptance can be read off them. The empty set needs no extra
care in the construction, and still it comes out as the trap that rejects.

## Main definitions

* `Dfa.StandsFor` — the states of one automaton stand for the sets of another one

## Main results

* `Nfa.determinize_standsFor` — determinization yields such an automaton
-/

namespace PostfixRegex

/-- The states of `d` stand for the sets of states that words over the alphabet lead to in `n`. -/
structure Dfa.StandsFor (d : Dfa) (n : Nfa) : Prop where
  /-- A word over the alphabet leads to a state whose set holds the ends of the paths that spell
  the word. -/
  subset_run : ∀ w, (∀ c ∈ w, c ∈ n.alphabet.toList) →
    ∃ id s, d.run? d.start w = some id ∧ d.subset? id = some s ∧
      ∀ x, x ∈ s.toList ↔ n.states.Path n.start w x
  /-- Exactly the states have a set. -/
  subset_isSome : ∀ id, (∃ s, d.subset? id = some s) ↔ d.states.contains id = true
  /-- Different states have different sets. -/
  subset_injective : ∀ id id' s, d.subset? id = some s → d.subset? id' = some s → id = id'
  /-- The sets are those that words over the alphabet lead to. -/
  subset_values : ∀ s, (∃ id, d.subset? id = some s) ↔
    ∃ w, (∀ c ∈ w, c ∈ n.alphabet.toList) ∧ ∀ x, x ∈ s.toList ↔ n.states.Path n.start w x
  /-- A state accepts iff its set has an accepting state. -/
  accepting_iff : ∀ q ∈ d.states.toList, ∀ s, d.subset? q.id = some s →
    (q.accepting = true ↔ ∃ p ∈ n.states.toList, p.accepting = true ∧ p.id ∈ s.toList)
  /-- A state of the empty set rejects and cannot be left. -/
  trap_of_isEmpty : ∀ q ∈ d.states.toList, ∀ s, d.subset? q.id = some s → s.isEmpty = true →
    q.accepting = false ∧ q.isTrap = true
  /-- There is at most one such state. -/
  isEmpty_unique : ∀ id id' s s', d.subset? id = some s → d.subset? id' = some s' →
    s.isEmpty = true → s'.isEmpty = true → id = id'

theorem Signature.isEmpty_iff {s : Signature} : s.isEmpty = true ↔ ∀ x, x ∉ s.toList := by
  rw [← List.eq_nil_iff_forall_not_mem, toList, Array.toList_eq_nil_iff]
  exact Array.isEmpty_iff

theorem Signature.eq_of_isEmpty {s s' : Signature} (h : s.isEmpty = true)
    (h' : s'.isEmpty = true) : s = s' :=
  ext_mem fun x => iff_of_false (isEmpty_iff.mp h x) (isEmpty_iff.mp h' x)

namespace Nfa

variable {n : Nfa} {first id id' : Nat} {s s' : Signature} {w : Word}

/-- The discovered sets, said in terms of paths. -/
theorem mem_subsets_iff_path :
    s ∈ n.subsets ↔
      ∃ w, n.alphabet.Covers w ∧ ∀ x, x ∈ s.toList ↔ n.states.Path n.start w x := by
  rw [mem_subsets]
  constructor
  · rintro ⟨w, hw, rfl⟩
    exact ⟨w, hw, fun x => mem_subsetAfter⟩
  · rintro ⟨w, hw, hs⟩
    exact ⟨w, hw, Signature.ext_mem fun x => mem_subsetAfter.trans (hs x).symm⟩

theorem contains_numbered_iff :
    (n.numbered first).states.contains id = true ↔ ∃ s ∈ n.subsets, id = n.number first s := by
  rw [Table.contains_iff, Table.ids, List.mem_map]
  constructor
  · rintro ⟨q, hq, rfl⟩
    obtain ⟨s, hs, rfl⟩ := mem_states_numbered.mp hq
    exact ⟨s, hs, rfl⟩
  · rintro ⟨s, hs, rfl⟩
    exact ⟨n.subsetState first s, mem_states_numbered.mpr ⟨s, hs, rfl⟩, rfl⟩

/-- The provenance of a listed state is the set it stands for. -/
theorem eq_subsetState_of_subset? {q : State} (hq : q ∈ (n.numbered first).states.toList)
    (h : (n.numbered first).subset? q.id = some s) : q = n.subsetState first s := by
  obtain ⟨t, ht, rfl⟩ := mem_states_numbered.mp hq
  obtain ⟨_, hid⟩ := subset?_numbered_iff.mp h
  rw [number_injOn ht hid]

theorem accepting_subsetState_iff :
    (n.subsetState first s).accepting = true ↔
      ∃ p ∈ n.states.toList, p.accepting = true ∧ p.id ∈ s.toList :=
  Automaton.anyAccepting_iff_exists_state

/-- No character leads out of the empty set. -/
theorem nextSubset_of_isEmpty {c : Char} (h : s.isEmpty = true) : n.nextSubset s c = s := by
  refine Signature.eq_of_isEmpty (Signature.isEmpty_iff.mpr fun x hx => ?_) h
  obtain ⟨p, hp, _⟩ := mem_nextSubset.mp hx
  exact Signature.isEmpty_iff.mp h p hp

theorem isTrap_subsetState (h : s.isEmpty = true) : (n.subsetState first s).isTrap = true := by
  rw [State.isTrap, List.all_eq_true]
  intro t ht
  obtain ⟨c, _, rfl⟩ := List.mem_map.mp ht
  rw [nextSubset_of_isEmpty h]
  exact decide_eq_true rfl

theorem standsFor_numbered (n : Nfa) (first : Nat) : (n.numbered first).StandsFor n where
  subset_run w hw := by
    have hs : n.subsetAfter w ∈ n.subsets := mem_subsets.mpr ⟨w, hw, rfl⟩
    refine ⟨n.number first (n.subsetAfter w), n.subsetAfter w, ?_, ?_, fun x => mem_subsetAfter⟩
    · exact (run?_numbered n first w).trans (if_pos hw)
    · exact subset?_numbered_iff.mpr ⟨hs, rfl⟩
  subset_isSome id := by
    rw [contains_numbered_iff]
    exact exists_congr fun s => subset?_numbered_iff
  subset_injective id id' s h h' := by
    rw [(subset?_numbered_iff.mp h).2, (subset?_numbered_iff.mp h').2]
  subset_values s := by
    refine Iff.trans ?_ mem_subsets_iff_path
    constructor
    · rintro ⟨id, h⟩
      exact (subset?_numbered_iff.mp h).1
    · intro hs
      exact ⟨n.number first s, subset?_numbered_iff.mpr ⟨hs, rfl⟩⟩
  accepting_iff q hq s h := by
    rw [eq_subsetState_of_subset? hq h]
    exact accepting_subsetState_iff
  trap_of_isEmpty q hq s h hempty := by
    rw [eq_subsetState_of_subset? hq h]
    refine ⟨Bool.eq_false_iff.mpr fun hacc => ?_, isTrap_subsetState hempty⟩
    obtain ⟨p, _, _, hp⟩ := accepting_subsetState_iff.mp hacc
    exact Signature.isEmpty_iff.mp hempty _ hp
  isEmpty_unique id id' s s' h h' hempty hempty' := by
    obtain rfl := Signature.eq_of_isEmpty hempty hempty'
    rw [(subset?_numbered_iff.mp h).2, (subset?_numbered_iff.mp h').2]

/-- **Provenance is exact.** Whatever the automaton looks like and wherever the supply stands, the
states of the deterministic automaton stand for the sets that the words over the alphabet lead
to. -/
theorem determinize_standsFor (n : Nfa) (supply : Supply) (h : n.states.isEmpty = false) :
    ∃ d supply', n.determinize supply = some (d, supply') ∧ d.StandsFor n :=
  ⟨_, _, n.determinize_eq supply h, n.standsFor_numbered supply.next⟩

/-- A target that is no state is a member of the sets it is reached in. -/
theorem determinize_standsFor_tangled :
    tangled.states.isEmpty = false ∧
      ∃ d supply', tangled.determinize ⟨1⟩ = some (d, supply') ∧ d.StandsFor tangled ∧
        ∃ id s, d.run? d.start ['a'] = some id ∧ d.subset? id = some s ∧ 5 ∈ s.toList := by
  refine ⟨rfl, ?_⟩
  obtain ⟨d, supply', hd, hstands⟩ := determinize_standsFor tangled ⟨1⟩ rfl
  have hcovers : tangled.alphabet.Covers ['a'] := by decide
  obtain ⟨id, s, hrun, hsub, hmem⟩ := hstands.subset_run ['a'] hcovers
  have hmove : tangled.states.Move (.char 'a') 0 5 := ⟨_, List.mem_cons_self, rfl, by simp⟩
  exact ⟨d, supply', hd, hstands, id, s, hrun, hsub, (hmem 5).mpr (.char hmove (.nil 5))⟩

end Nfa

end PostfixRegex
