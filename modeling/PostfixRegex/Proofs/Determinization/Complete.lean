import Mathlib.Data.List.Nodup
import PostfixRegex.Proofs.Determinization.Language

/-!
# Complete automata

A deterministic automaton leaves nothing open: from every state each character of the alphabet leads
to exactly one state. `Automaton.CompleteOver` says so by the list of labels, which are the
characters of the alphabet in its order. Everything else can be read off that list, because an
alphabet has no character twice: a character has one target, a foreign character has none, epsilon
has none, and the number of transitions is a product.

The subset construction yields such an automaton from any automaton. The characters that label no
transition and those that lead out of the table make no exception: what they lead to is a set of
states too.

## Main definitions

* `Automaton.CompleteOver` — one transition for each character, in order, and no other

## Main results

* `Automaton.CompleteOver.targets_char`, `Automaton.CompleteOver.targets_epsilon` — the targets
* `Automaton.CompleteOver.transitionCount_eq` — the number of transitions
* `Nfa.determinize_completeOver` — the deterministic automaton is complete
-/

namespace PostfixRegex

/-! ### Labels and targets -/

/-- On each label a state has as many targets as transitions with that label. -/
theorem State.length_targets (s : State) (symbol : Symbol) :
    (s.targets symbol).length = (s.transitions.map Transition.symbol).count symbol := by
  rw [targets, List.length_map, ← List.countP_eq_length_filter, List.count, List.countP_map]
  refine List.countP_congr fun t _ => ?_
  simp

/-- The automaton has one transition from each state on each character of the alphabet, in the order
of the alphabet, and no other. All of them lead to states. -/
structure Automaton.CompleteOver (a : Automaton) (alphabet : Alphabet) : Prop where
  labels_eq : ∀ q ∈ a.states.toList,
    q.transitions.map Transition.symbol = alphabet.toList.map Symbol.char
  target_mem : ∀ q ∈ a.states.toList, ∀ t ∈ q.transitions, a.states.contains t.target = true

namespace Automaton.CompleteOver

variable {a : Automaton} {alphabet : Alphabet} {q : State} {c : Char}

theorem targets_char (h : a.CompleteOver alphabet) (hq : q ∈ a.states.toList)
    (hc : c ∈ alphabet.toList) : ∃ target, q.targets (.char c) = [target] := by
  refine List.length_eq_one_iff.mp ?_
  rw [State.length_targets, h.labels_eq q hq]
  have hnodup : (alphabet.toList.map Symbol.char).Nodup :=
    alphabet.nodup.map fun _ _ => Symbol.char.inj
  exact List.count_eq_one_of_mem hnodup (List.mem_map_of_mem hc)

theorem targets_eq_nil (h : a.CompleteOver alphabet) (hq : q ∈ a.states.toList) {symbol : Symbol}
    (hsymbol : symbol ∉ alphabet.toList.map Symbol.char) : q.targets symbol = [] := by
  refine List.length_eq_zero_iff.mp ?_
  rw [State.length_targets, h.labels_eq q hq]
  exact List.count_eq_zero_of_not_mem hsymbol

theorem targets_epsilon (h : a.CompleteOver alphabet) (hq : q ∈ a.states.toList) :
    q.targets .epsilon = [] :=
  h.targets_eq_nil hq (by simp)

/-- The number of transitions is a product. -/
theorem transitionCount_eq (h : a.CompleteOver alphabet) :
    a.transitionCount = a.states.size * alphabet.size := by
  have hlength : ∀ q ∈ a.states.toList, q.transitions.length = alphabet.size := by
    intro q hq
    rw [← List.length_map Transition.symbol, h.labels_eq q hq, List.length_map]
    rfl
  rw [transitionCount, List.length_flatMap, List.map_congr_left hlength, List.map_const',
    List.sum_replicate_nat]
  rfl

end Automaton.CompleteOver

theorem Dfa.next?_eq_head? {d : Dfa} {q : State} (hq : q ∈ d.states.toList) (c : Char) :
    d.next? q.id c = (q.targets (.char c)).head? := by
  rw [next?, show d.state? q.id = some q from Table.get?_eq_some_iff.mpr ⟨hq, rfl⟩]
  rfl

/-! ### The subset construction -/

namespace Nfa

theorem completeOver_numbered (n : Nfa) (first : Nat) :
    (n.numbered first).CompleteOver n.alphabet where
  labels_eq q hq := by
    obtain ⟨s, hs, rfl⟩ := mem_states_numbered.mp hq
    rw [subsetState, List.map_map]
    rfl
  target_mem q hq t ht := by
    obtain ⟨s, hs, rfl⟩ := mem_states_numbered.mp hq
    obtain ⟨c, hc, rfl⟩ := List.mem_map.mp ht
    rw [Table.contains_iff]
    exact List.mem_map_of_mem (mem_states_numbered.mpr ⟨_, nextSubset_mem_subsets hs hc, rfl⟩)

/-- **The deterministic automaton is complete.** Whatever the automaton looks like and wherever the
supply stands, each state of the deterministic automaton has one transition for each character of
the alphabet, in the order of the alphabet and to a state, and no other transition. So the number of
transitions is a product, and looking for the next state finds the only target of a character of the
alphabet and nothing for any other character. -/
theorem determinize_completeOver (n : Nfa) (supply : Supply) (h : n.states.isEmpty = false) :
    ∃ d supply', n.determinize supply = some (d, supply') ∧ d.alphabet = n.alphabet ∧
      (∀ q ∈ d.states.toList,
        q.transitions.map Transition.symbol = n.alphabet.toList.map Symbol.char ∧
        q.targets .epsilon = [] ∧ ∀ t ∈ q.transitions, d.states.contains t.target = true) ∧
      d.transitionCount = d.states.size * n.alphabet.size ∧
      ∀ q ∈ d.states.toList, ∀ c,
        (c ∈ n.alphabet.toList →
          ∃ target, q.targets (.char c) = [target] ∧ d.next? q.id c = some target) ∧
        (c ∉ n.alphabet.toList → d.next? q.id c = none) := by
  have hcomplete := n.completeOver_numbered supply.next
  refine ⟨_, _, n.determinize_eq supply h, rfl,
    fun q hq => ⟨hcomplete.labels_eq q hq, hcomplete.targets_epsilon hq, hcomplete.target_mem q hq⟩,
    hcomplete.transitionCount_eq, fun q hq c => ⟨fun hc => ?_, fun hc => ?_⟩⟩
  · obtain ⟨target, htargets⟩ := hcomplete.targets_char hq hc
    refine ⟨target, htargets, ?_⟩
    rw [Dfa.next?_eq_head? hq, htargets]
    rfl
  · rw [Dfa.next?_eq_head? hq, hcomplete.targets_eq_nil hq (by simpa using hc)]
    rfl

/-- The character `'x'` labels no transition of the automaton, and the deterministic automaton has
it at each of its three states. -/
theorem determinize_completeOver_tangled :
    tangled.states.isEmpty = false ∧
      ∃ d supply', tangled.determinize ⟨1⟩ = some (d, supply') ∧ d.transitionCount = 9 ∧
        ∀ q ∈ d.states.toList, (∃ target, q.targets (.char 'x') = [target]) ∧
          d.next? q.id 'z' = none := by
  obtain ⟨d, supply', hd, _, _, hcount, hnext⟩ := determinize_completeOver tangled ⟨1⟩ rfl
  have hsize : (tangled.determinize ⟨1⟩).map (fun x => x.1.states.size) = some 3 := by cbv
  rw [hd, Option.map_some] at hsize
  refine ⟨rfl, d, supply', hd, ?_, fun q hq => ⟨?_, (hnext q hq 'z').2 (by decide)⟩⟩
  · rw [hcount, Option.some.inj hsize]
    rfl
  · obtain ⟨target, htargets, _⟩ := (hnext q hq 'x').1 (by decide)
    exact ⟨target, htargets⟩

end Nfa

end PostfixRegex
