import PostfixRegex.Proofs.Determinization.Numbering

/-!
# The language of the deterministic automaton

Determinization keeps the language as far as the alphabet goes. The set that a word leads to decides
both automata: the deterministic one accepts if the word stays within the alphabet and the set has
an accepting member, and the other one accepts if the set has an accepting member.

The alphabet of an automaton is a list of its own and need not mention every label. A character that
it lacks has no transition in the deterministic automaton, so that automaton rejects words that the
other one may accept. Where the alphabet has every label, both accept the same words.

## Main definitions

* `Dfa.acceptsFrom` — acceptance from any state

## Main results

* `Nfa.accepts_iff_anyAccepting` — acceptance by the set of the word
* `Nfa.acceptsFrom_number_iff` — acceptance from the state of a set
* `Nfa.determinize_accepts_iff` — the two automata compared on every word
-/

namespace PostfixRegex

/-- Whether the word leads from the state to an accepting state. -/
def Dfa.acceptsFrom (d : Dfa) (id : Nat) (w : Word) : Bool :=
  ((d.run? id w).bind d.state?).any State.accepting

theorem Dfa.accepts_eq_acceptsFrom (d : Dfa) (w : Word) :
    d.accepts w = d.acceptsFrom d.start w := rfl

namespace Nfa

variable {n : Nfa} {w : Word}

/-- An automaton accepts a word iff the set of the word has an accepting member. -/
theorem accepts_iff_anyAccepting :
    n.accepts w = true ↔ n.anyAccepting (n.subsetAfter w).toList = true := by
  rw [accepts_iff, Automaton.anyAccepting_iff_exists_state]
  simp only [mem_subsetAfter]

/-- From the state of a set, a word over the alphabet leads to the state of the set it leads to. -/
theorem acceptsFrom_number_iff {first : Nat} {s : Signature} (hs : s ∈ n.subsets) :
    (n.numbered first).acceptsFrom (n.number first s) w = true ↔
      n.alphabet.Covers w ∧ n.anyAccepting (w.foldl n.nextSubset s).toList = true := by
  rw [Dfa.acceptsFrom, run?_number hs]
  by_cases hw : n.alphabet.Covers w
  · rw [if_pos hw, Option.bind_some, state?_number (foldl_nextSubset_mem_subsets hs hw)]
    exact (and_iff_right hw).symm
  · rw [if_neg hw]
    exact iff_of_false (by simp) fun h => hw h.1

theorem accepts_numbered_iff {first : Nat} :
    (n.numbered first).accepts w = true ↔ n.alphabet.Covers w ∧ n.accepts w = true := by
  rw [Dfa.accepts_eq_acceptsFrom, start_numbered,
    acceptsFrom_number_iff n.initialSubset_mem_subsets, accepts_iff_anyAccepting]
  rfl

/-- A path spells only characters that label a transition. -/
theorem covers_of_path {p q : Nat}
    (h : ∀ s ∈ n.states.toList, ∀ c target, ⟨.char c, target⟩ ∈ s.transitions →
      c ∈ n.alphabet.toList)
    (hp : n.states.Path p w q) : n.alphabet.Covers w := by
  induction hp with
  | nil => simp [Alphabet.Covers]
  | epsilon _ _ ih => exact ih
  | char hm _ ih =>
    obtain ⟨s, hs, _, ht⟩ := hm
    exact List.forall_mem_cons.mpr ⟨h s hs _ _ ht, ih⟩

/-- **Determinization keeps the language.** The deterministic automaton accepts the accepted words
over the alphabet, whatever the automaton looks like and wherever the supply stands. If the alphabet
has every character that labels a transition, the two accept the same words. -/
theorem determinize_accepts_iff (n : Nfa) (supply : Supply) (h : n.states.isEmpty = false) :
    ∃ d supply', n.determinize supply = some (d, supply') ∧
      (∀ w, d.accepts w = true ↔ (∀ c ∈ w, c ∈ n.alphabet.toList) ∧ n.accepts w = true) ∧
      ((∀ s ∈ n.states.toList, ∀ c target, ⟨.char c, target⟩ ∈ s.transitions →
          c ∈ n.alphabet.toList) →
        ∀ w, d.accepts w = n.accepts w) := by
  refine ⟨_, _, n.determinize_eq supply h, fun w => accepts_numbered_iff, fun hlabels w => ?_⟩
  rw [Bool.eq_iff_iff, accepts_numbered_iff]
  refine ⟨And.right, fun hw => ⟨?_, hw⟩⟩
  obtain ⟨s, _, _, hp⟩ := accepts_iff.mp hw
  exact covers_of_path hlabels hp

/-- An automaton with a cycle of moves on epsilon, a transition that is there twice, a target that
is no state, and a character that labels no transition. -/
def tangled : Nfa where
  start := 0
  states := ⟨[⟨0, false, [⟨.epsilon, 1⟩, ⟨.char 'a', 5⟩, ⟨.char 'a', 1⟩, ⟨.char 'a', 1⟩]⟩,
    ⟨1, true, [⟨.epsilon, 0⟩, ⟨.char 'b', 1⟩]⟩], by decide⟩
  alphabet := .ofList ['a', 'x', 'b']
  start_mem := by decide

theorem labels_tangled : ∀ s ∈ tangled.states.toList, ∀ c target,
    ⟨.char c, target⟩ ∈ s.transitions → c ∈ tangled.alphabet.toList := by
  have hlabels : ∀ s ∈ tangled.states.toList, ∀ t ∈ s.transitions,
      t.symbol ∈ .epsilon :: tangled.alphabet.toList.map .char := by decide
  intro s hs c target ht
  rcases List.mem_cons.mp (hlabels s hs _ ht) with h | h
  · cases h
  · obtain ⟨d, hd, hdc⟩ := List.mem_map.mp h
    rwa [← Symbol.char.inj hdc]

/-- The identifiers of the deterministic automaton may overlap those of the other one. -/
theorem determinize_accepts_iff_tangled :
    tangled.states.isEmpty = false ∧
      (∀ s ∈ tangled.states.toList, ∀ c target, ⟨.char c, target⟩ ∈ s.transitions →
        c ∈ tangled.alphabet.toList) ∧
      ∃ d supply', tangled.determinize ⟨1⟩ = some (d, supply') ∧
        d.accepts ['b', 'a'] = true ∧ d.accepts ['a', 'x'] = false := by
  refine ⟨rfl, labels_tangled, ?_⟩
  obtain ⟨d, supply', hd, _, hsame⟩ := determinize_accepts_iff tangled ⟨1⟩ rfl
  have hsame := hsame labels_tangled
  refine ⟨d, supply', hd, ?_, ?_⟩
  · rw [hsame]
    cbv
  · rw [hsame]
    cbv

end Nfa

end PostfixRegex
