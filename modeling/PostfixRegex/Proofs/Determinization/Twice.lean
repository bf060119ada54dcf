import PostfixRegex.Proofs.Determinization.Language
import PostfixRegex.Proofs.Determinization.Mirror

/-!
# Determinizing twice

An automaton that is deterministic already may be taken for an automaton like any other and be
determinized again. The result is the same automaton with other identifiers: every set that is
discovered has one member, because nothing moves on epsilon and every character of the alphabet has
one target, and the members come in the order of their identifiers, because that is the order in
which the first subset construction discovered them.

All of this is the observation that the sets with one member mirror the sets they stand for.

## Main results

* `Nfa.move_number_iff` — the moves of a deterministic automaton
* `Nfa.mirrors_numbered` — the sets with one member
* `Nfa.determinize_determinize` — the second deterministic automaton
-/

namespace PostfixRegex

namespace Nfa

variable {n m : Nfa} {first p q : Nat} {s : Signature} {symbol : Symbol}

/-! ### Moves -/

/-- The state of a set has one move for each character of the alphabet. -/
theorem move_number_iff (hs : s ∈ n.subsets) :
    (n.numbered first).states.Move symbol (n.number first s) q ↔
      ∃ c ∈ n.alphabet.toList, symbol = .char c ∧ q = n.number first (n.nextSubset s c) := by
  rw [← Automaton.mem_targets_iff_move, Automaton.mem_targets, state?_number hs]
  simp only [Option.some.injEq, exists_eq_left', subsetState, List.mem_map, Transition.mk.injEq]
  constructor
  · rintro ⟨c, hc, rfl, rfl⟩
    exact ⟨c, hc, rfl, rfl⟩
  · rintro ⟨c, hc, rfl, rfl⟩
    exact ⟨c, hc, rfl, rfl⟩

theorem not_move_epsilon_numbered : ¬ (n.numbered first).states.Move .epsilon p q := by
  rintro ⟨_, hmem, rfl, ht⟩
  obtain ⟨s, hs, rfl⟩ := mem_states_numbered.mp hmem
  obtain ⟨c, _, hsymbol, _⟩ := (move_number_iff hs).mp ⟨_, hmem, rfl, ht⟩
  cases hsymbol

/-- Without moves on epsilon, a path that spells nothing stays where it is. -/
theorem path_nil_numbered_iff : (n.numbered first).states.Path p [] q ↔ q = p := by
  constructor
  · intro h
    cases h with
    | nil => rfl
    | epsilon hm _ => exact absurd hm not_move_epsilon_numbered
  · rintro rfl
    exact .nil q

/-! ### Sets with one member -/

/-- The set whose only member is the state of `s`. -/
def singletonSubset (n : Nfa) (first : Nat) (s : Signature) : Signature :=
  .ofList [n.number first s]

theorem mem_singletonSubset {x : Nat} :
    x ∈ (n.singletonSubset first s).toList ↔ x = n.number first s := by
  rw [singletonSubset, Signature.mem_toList_ofList, List.mem_singleton]

/-- **The sets with one member mirror the sets they stand for**, when the deterministic automaton is
taken for an automaton like any other. -/
theorem mirrors_numbered (hm : m.toAutomaton = (n.numbered first).toAutomaton) :
    m.Mirrors (.refl Char) (n.singletonSubset first) n where
  alphabet_eq := by
    rw [hm]
    exact n.alphabet.relabel_refl.symm
  initialSubset_eq := by
    refine Signature.ext_mem fun x => ?_
    rw [mem_initialSubset, hm, path_nil_numbered_iff, mem_singletonSubset, start_numbered]
  nextSubset_eq s hs c hc := by
    refine Signature.ext_mem fun x => ?_
    rw [mem_nextSubset, mem_singletonSubset, hm]
    simp only [mem_singletonSubset, path_nil_numbered_iff, exists_eq_left, exists_eq_right',
      move_number_iff hs]
    constructor
    · rintro ⟨d, _, hsymbol, rfl⟩
      obtain rfl : c = d := Symbol.char.inj hsymbol
      rfl
    · rintro rfl
      exact ⟨c, hc, rfl, rfl⟩
  injOn s hs t _ heq := by
    have hmem : n.number first s ∈ (n.singletonSubset first t).toList := by
      rw [← heq]
      exact mem_singletonSubset.mpr rfl
    exact number_injOn hs (mem_singletonSubset.mp hmem)
  anyAccepting_eq s hs := by
    have hstate : m.state? (n.number first s) = some (n.subsetState first s) := by
      rw [hm]
      exact state?_number hs
    rw [Bool.eq_iff_iff, Automaton.anyAccepting_iff]
    simp only [mem_singletonSubset, exists_eq_left, hstate, Option.some.injEq, exists_eq_left']
    rfl

/-! ### The second automaton -/

/-- A deterministic automaton can be taken for an automaton like any other. -/
theorem ofStates_numbered (n : Nfa) (first : Nat) {states : List State}
    (h : states.Perm (n.numbered first).states.toList) :
    ∃ m : Nfa, ofStates (n.numbered first).start states (n.numbered first).alphabet = .ok m ∧
      m.toAutomaton = (n.numbered first).toAutomaton := by
  have hstart : (n.numbered first).states.contains (n.numbered first).start = true :=
    Table.contains_iff.mpr (n.start_mem_ids_numbered first)
  refine ⟨⟨(n.numbered first).toAutomaton, .inr hstart⟩, ?_, rfl⟩
  rw [ofStates, Table.ofList_of_perm h, Checked.ok_bind, ofTable, dif_pos (.inr hstart)]

/-- **Determinizing twice changes nothing but the numbering.** An automaton that is put together
from the start, the states and the alphabet of a deterministic automaton has, up to where the
numbering starts, that same deterministic automaton. Each state of the second one stands for the set
whose only member is the state at its place in the first one. -/
theorem determinize_determinize (n : Nfa) (supply supply' : Supply)
    (h : n.states.isEmpty = false) :
    ∃ d after, n.determinize supply = some (d, after) ∧
      ∀ states, states.Perm d.states.toList →
        ∃ m e after', ofStates d.start states d.alphabet = .ok m ∧
          m.determinize supply' = some (e, after') ∧
          e.states.size = d.states.size ∧ e.alphabet = d.alphabet ∧
          e.toAutomaton.rename (.shift supply.next) = d.toAutomaton.rename (.shift supply'.next) ∧
          ∀ id ∈ d.states.ids, ∀ id', id' + supply.next = id + supply'.next →
            e.subset? id' = some (.ofList [id]) := by
  refine ⟨_, _, n.determinize_eq supply h, fun states hperm => ?_⟩
  obtain ⟨m, hok, hm⟩ := n.ofStates_numbered supply.next hperm
  have hmirrors := mirrors_numbered hm
  have hmoved := hmirrors.movedTo supply.next supply'.next
  have hne : m.states.isEmpty = false := by
    rw [hm]
    exact List.isEmpty_eq_false_iff_exists_mem.mpr
      ⟨_, mem_states_numbered.mpr ⟨_, n.initialSubset_mem_subsets, rfl⟩⟩
  refine ⟨m, _, _, hok, m.determinize_eq supply' hne, hmoved.size_eq, hmoved.alphabet_eq,
    hmoved.shift_eq, fun id hid id' heq => ?_⟩
  obtain ⟨q, hq, rfl⟩ := List.mem_map.mp hid
  obtain ⟨s, hs, rfl⟩ := mem_states_numbered.mp hq
  have hsubset : (n.numbered supply.next).subset? (n.number supply.next s) = some s :=
    subset?_numbered_iff.mpr ⟨hs, rfl⟩
  rw [hmoved.subset?_eq _ id' heq]
  exact congrArg (Option.map (n.singletonSubset supply.next)) hsubset

/-- The deterministic automaton of `tangled` has three states, the last of which stands for the
empty set. In the second automaton the state at that place stands for a set with a member. -/
theorem determinize_determinize_tangled :
    tangled.states.isEmpty = false ∧
      ∃ d after, tangled.determinize ⟨1⟩ = some (d, after) ∧ d.subset? 3 = some (.ofList []) ∧
        d.states.toList.reverse.Perm d.states.toList ∧
        ∃ m e after', ofStates d.start d.states.toList.reverse d.alphabet = .ok m ∧
          m.determinize ⟨4⟩ = some (e, after') ∧ e.states.size = 3 ∧
          e.subset? 6 = some (.ofList [3]) := by
  obtain ⟨d, after, hd, htwice⟩ := determinize_determinize tangled ⟨1⟩ ⟨4⟩ rfl
  obtain ⟨m, e, after', hm, he, hsize, _, _, hsubset⟩ := htwice _ d.states.toList.reverse_perm
  have hfirst : (tangled.determinize ⟨1⟩).map (fun x => (x.1.states.ids, x.1.provenance)) =
      some ([1, 2, 3], [(1, .ofList [0, 1]), (2, .ofList [0, 1, 5]), (3, .ofList [])]) := by cbv
  rw [hd, Option.map_some] at hfirst
  obtain ⟨hids, hsets⟩ := Prod.mk.inj (Option.some.inj hfirst)
  have hempty : d.subset? 3 = some (.ofList []) := by
    rw [Dfa.subset?, hsets]
    rfl
  refine ⟨rfl, d, after, hd, hempty, d.states.toList.reverse_perm, m, e, after', hm, he, ?_, ?_⟩
  · rw [hsize, Table.size, ← List.length_map State.id, ← Table.ids, hids]
    rfl
  · exact hsubset 3 (by rw [hids]; decide) 6 rfl

end Nfa

end PostfixRegex
