import PostfixRegex.Proofs.Determinization.Language
import PostfixRegex.Proofs.Determinization.Mirror

/-!
# What determinization does not depend on

The deterministic automaton of an automaton does not depend on what the states are called, nor on
the order in which a state lists its transitions, nor on how often it lists one of them. The
closure does list its members in an order that depends on all of this, and signatures are sorted by
identifier; but neither order is ever looked at.

The identifiers may be renamed along any injection, so that their order may be lost. Characters may
be renamed at the same time, which shows that no character has a role of its own.

## Main definitions

* `Signature.map` — the image of a set of identifiers
* `Nfa.RenamedTo` — the same automaton under other names, up to the order of transitions

## Main results

* `Nfa.RenamedTo.path_iff` — paths under other names
* `Nfa.RenamedTo.mirrors` — sets under other names
* `Nfa.determinize_renamedTo` — the deterministic automata
-/

namespace PostfixRegex

/-! ### Images of sets -/

/-- The set of the images of the members. -/
def Signature.map (r : Nat → Nat) (s : Signature) : Signature :=
  .ofList (s.toList.map r)

theorem Signature.mem_map {r : Nat → Nat} {s : Signature} {x : Nat} :
    x ∈ (s.map r).toList ↔ ∃ y ∈ s.toList, r y = x := by
  rw [map, mem_toList_ofList, List.mem_map]

theorem Signature.map_injective (r : Nat ↪ Nat) : Function.Injective (map r) := by
  have hmem : ∀ (s : Signature) x, r x ∈ (s.map r).toList ↔ x ∈ s.toList := by
    intro s x
    rw [map, mem_toList_ofList]
    exact List.mem_map_of_injective r.injective
  intro s t h
  refine ext_mem fun x => ?_
  rw [← hmem s, ← hmem t, h]

/-! ### Other names -/

/-- `s'` is `s` under other names: `r` says how the identifiers are called and `σ` how the
characters are. The transitions may be listed in another order, and any of them more than once. -/
structure State.RenamedTo (r : Nat ↪ Nat) (σ : Char ↪ Char) (s s' : State) : Prop where
  id_eq : s'.id = r s.id
  accepting_eq : s'.accepting = s.accepting
  mem_transitions : ∀ t, t ∈ s'.transitions ↔
    t ∈ s.transitions.map fun t => ⟨t.symbol.relabel σ, r t.target⟩

instance (r : Nat ↪ Nat) (σ : Char ↪ Char) (s s' : State) : Decidable (s.RenamedTo r σ s') :=
  decidable_of_iff (s'.id = r s.id ∧ s'.accepting = s.accepting ∧
      s'.transitions ⊆ (s.transitions.map fun t => ⟨t.symbol.relabel σ, r t.target⟩) ∧
      (s.transitions.map fun t => ⟨t.symbol.relabel σ, r t.target⟩) ⊆ s'.transitions)
    ⟨fun ⟨hid, hacc, hle, hge⟩ => ⟨hid, hacc, fun _ => ⟨fun h => hle h, fun h => hge h⟩⟩,
      fun h => ⟨h.id_eq, h.accepting_eq, fun t => (h.mem_transitions t).mp,
        fun t => (h.mem_transitions t).mpr⟩⟩

/-- `n'` is `n` under other names, up to the order and the repetition of transitions. -/
structure Nfa.RenamedTo (r : Nat ↪ Nat) (σ : Char ↪ Char) (n n' : Nfa) : Prop where
  start_eq : n'.start = r n.start
  alphabet_eq : n'.alphabet = n.alphabet.relabel σ
  /-- Every state is there under its other name. -/
  forth : ∀ s ∈ n.states.toList, ∃ s' ∈ n'.states.toList, s.RenamedTo r σ s'
  /-- And no other states are there. -/
  back : ∀ s' ∈ n'.states.toList, ∃ s ∈ n.states.toList, s.RenamedTo r σ s'

namespace Nfa

variable {r : Nat ↪ Nat} {σ : Char ↪ Char} {n n' : Nfa}

/-- The states in their order, under other names. -/
theorem renamedTo_rename (ρ : Renaming) (n : Nfa) :
    n.RenamedTo ρ.id ρ.char (n.rename ρ) where
  start_eq := rfl
  alphabet_eq := rfl
  forth s hs := ⟨s.rename ρ, List.mem_map_of_mem hs, rfl, rfl, fun _ => Iff.rfl⟩
  back s' hs' := by
    obtain ⟨s, hs, rfl⟩ := List.mem_map.mp hs'
    exact ⟨s, hs, rfl, rfl, fun _ => Iff.rfl⟩

namespace RenamedTo

theorem isEmpty_eq (h : n.RenamedTo r σ n') : n'.states.isEmpty = n.states.isEmpty := by
  rw [Bool.eq_iff_iff, Table.isEmpty, Table.isEmpty, List.isEmpty_iff, List.isEmpty_iff,
    List.eq_nil_iff_forall_not_mem, List.eq_nil_iff_forall_not_mem]
  constructor
  · intro hnone s hs
    obtain ⟨s', hs', _⟩ := h.forth s hs
    exact hnone s' hs'
  · intro hnone s' hs'
    obtain ⟨s, hs, _⟩ := h.back s' hs'
    exact hnone s hs

/-- Moves keep their ends, under other names. -/
theorem move_iff (h : n.RenamedTo r σ n') (symbol : Symbol) {p q' : Nat} :
    n'.states.Move (symbol.relabel σ) (r p) q' ↔ ∃ q, n.states.Move symbol p q ∧ r q = q' := by
  constructor
  · rintro ⟨s', hs', hid, ht⟩
    obtain ⟨s, hs, hrenamed⟩ := h.back s' hs'
    obtain ⟨t, ht, heq⟩ := List.mem_map.mp ((hrenamed.mem_transitions _).mp ht)
    obtain ⟨hsymbol, htarget⟩ := Transition.mk.inj heq
    rw [hrenamed.id_eq] at hid
    refine ⟨t.target, ⟨s, hs, r.injective hid, ?_⟩, htarget⟩
    rwa [← Symbol.relabel_injective σ hsymbol]
  · rintro ⟨q, ⟨s, hs, rfl, ht⟩, rfl⟩
    obtain ⟨s', hs', hrenamed⟩ := h.forth s hs
    refine ⟨s', hs', hrenamed.id_eq, (hrenamed.mem_transitions _).mpr ?_⟩
    exact List.mem_map.mpr ⟨_, ht, rfl⟩

/-- **Paths under other names.** -/
theorem path_iff (h : n.RenamedTo r σ n') (w : Word) {p q' : Nat} :
    n'.states.Path (r p) (w.map σ) q' ↔ ∃ q, n.states.Path p w q ∧ r q = q' := by
  constructor
  · intro hp
    generalize hstart : r p = p' at hp
    generalize hword : w.map σ = w' at hp
    induction hp generalizing p w with
    | nil =>
      obtain rfl := List.map_eq_nil_iff.mp hword
      exact ⟨p, .nil p, hstart⟩
    | epsilon hm _ ih =>
      subst hstart
      obtain ⟨m, hm', rfl⟩ := (h.move_iff .epsilon).mp hm
      obtain ⟨q, hq, rfl⟩ := ih _ rfl hword
      exact ⟨q, .epsilon hm' hq, rfl⟩
    | char hm _ ih =>
      subst hstart
      obtain ⟨c, w, rfl, rfl, rfl⟩ := List.map_eq_cons_iff.mp hword
      obtain ⟨m, hm', rfl⟩ := (h.move_iff (.char c)).mp hm
      obtain ⟨q, hq, rfl⟩ := ih _ rfl rfl
      exact ⟨q, .char hm' hq, rfl⟩
  · rintro ⟨q, hp, rfl⟩
    induction hp with
    | nil => exact .nil _
    | epsilon hm _ ih => exact .epsilon ((h.move_iff .epsilon).mpr ⟨_, hm, rfl⟩) ih
    | @char _ _ _ c _ hm _ ih => exact .char ((h.move_iff (.char c)).mpr ⟨_, hm, rfl⟩) ih

/-! ### Sets under other names -/

theorem initialSubset_eq (h : n.RenamedTo r σ n') :
    n'.initialSubset = n.initialSubset.map r := by
  refine Signature.ext_mem fun x => ?_
  rw [mem_initialSubset, h.start_eq, Signature.mem_map]
  simp only [mem_initialSubset]
  exact h.path_iff []

/-- Steps from sets that correspond lead to sets that correspond, in whatever order the sets list
their members. -/
theorem signature_step (h : n.RenamedTo r σ n') {set set' : StateSet}
    (hset : set'.signature = set.signature.map r) (c : Char) :
    (n'.step (σ c) set').signature = (n.step c set).signature.map r := by
  have hmem : ∀ x, x ∈ set'.order ↔ ∃ y ∈ set.order, r y = x := by
    intro x
    rw [← StateSet.mem_signature, hset, Signature.mem_map]
    simp only [StateSet.mem_signature]
  refine Signature.ext_mem fun x => ?_
  rw [Signature.mem_map]
  simp only [StateSet.mem_signature, Automaton.mem_step, hmem]
  constructor
  · rintro ⟨_, ⟨p, hp, rfl⟩, q', hm, hx⟩
    obtain ⟨q, hm', rfl⟩ := (h.move_iff (.char c)).mp hm
    obtain ⟨y, hy, rfl⟩ := (h.path_iff []).mp hx
    exact ⟨y, ⟨p, hp, q, hm', hy⟩, rfl⟩
  · rintro ⟨y, ⟨p, hp, q, hm, hy⟩, rfl⟩
    exact ⟨r p, ⟨p, hp, rfl⟩, r q, (h.move_iff (.char c)).mpr ⟨q, hm, rfl⟩,
      (h.path_iff []).mpr ⟨y, hy, rfl⟩⟩

theorem nextSubset_eq (h : n.RenamedTo r σ n') (s : Signature) (c : Char) :
    n'.nextSubset (s.map r) (σ c) = (n.nextSubset s c).map r :=
  h.signature_step (by rw [StateSet.signature_ofSignature, StateSet.signature_ofSignature]) c

theorem anyAccepting_eq (h : n.RenamedTo r σ n') (s : Signature) :
    n'.anyAccepting (s.map r).toList = n.anyAccepting s.toList := by
  rw [Bool.eq_iff_iff, Automaton.anyAccepting_iff_exists_state,
    Automaton.anyAccepting_iff_exists_state]
  constructor
  · rintro ⟨p', hp', hacc, hmem⟩
    obtain ⟨p, hp, hrenamed⟩ := h.back p' hp'
    obtain ⟨y, hy, heq⟩ := Signature.mem_map.mp hmem
    rw [hrenamed.id_eq] at heq
    rw [r.injective heq] at hy
    exact ⟨p, hp, hrenamed.accepting_eq ▸ hacc, hy⟩
  · rintro ⟨p, hp, hacc, hmem⟩
    obtain ⟨p', hp', hrenamed⟩ := h.forth p hp
    refine ⟨p', hp', hrenamed.accepting_eq.trans hacc, Signature.mem_map.mpr ⟨p.id, hmem, ?_⟩⟩
    exact hrenamed.id_eq.symm

/-- **The sets under other names** are the images of the sets. -/
theorem mirrors (h : n.RenamedTo r σ n') : n'.Mirrors σ (Signature.map r) n where
  alphabet_eq := h.alphabet_eq
  initialSubset_eq := h.initialSubset_eq
  nextSubset_eq s _ c _ := h.nextSubset_eq s c
  injOn := (Signature.map_injective r).injOn
  anyAccepting_eq s _ := h.anyAccepting_eq s

end RenamedTo

/-! ### The deterministic automata -/

/-- **Determinization looks at names only to tell them apart.** Let `n'` be `n` with the identifiers
renamed along an injection and with the transitions of each state in any order and number. Wherever
the two supplies stand, the deterministic automata are the same up to where their numbering starts,
and a state that stands for a set on one side stands for the image of the set on the other. So
determinizing the same automaton again yields a moved copy. -/
theorem determinize_renamedTo {r : Nat ↪ Nat} {n n' : Nfa} (supply supply' : Supply)
    (h : n.states.isEmpty = false) (hr : n.RenamedTo r (.refl Char) n') :
    ∃ d d' after after', n.determinize supply = some (d, after) ∧
      n'.determinize supply' = some (d', after') ∧
      d.MovedTo supply.next supply'.next (Signature.map r) d' ∧
      ∀ again : Supply, ∃ e after'', n.determinize again = some (e, after'') ∧
        d.MovedTo supply.next again.next (fun s => s) e := by
  have h' : n'.states.isEmpty = false := hr.isEmpty_eq.trans h
  refine ⟨_, _, _, _, n.determinize_eq supply h, n'.determinize_eq supply' h', ?_, fun again => ?_⟩
  · exact hr.mirrors.movedTo _ _
  · exact ⟨_, _, n.determinize_eq again h, (Mirrors.refl n).movedTo _ _⟩

/-- `tangled` under other names, which turn the order of its states around, with its transitions in
another order and none of them twice. -/
def retangled : Nfa where
  start := 5
  states := ⟨[⟨1, true, [⟨.char 'b', 1⟩, ⟨.epsilon, 5⟩]⟩,
    ⟨5, false, [⟨.char 'a', 1⟩, ⟨.char 'a', 0⟩, ⟨.epsilon, 1⟩]⟩], by decide⟩
  alphabet := .ofList ['a', 'x', 'b']
  start_mem := by decide

theorem tangled_renamedTo_retangled :
    tangled.RenamedTo (Equiv.swap 0 5).toEmbedding (.refl Char) retangled where
  start_eq := by decide
  alphabet_eq := by decide
  forth := by decide
  back := by decide

/-- The start state stands for `0` and `1` on one side and for `5` and `1` on the other. -/
theorem determinize_renamedTo_retangled :
    tangled.states.isEmpty = false ∧
      tangled.RenamedTo (Equiv.swap 0 5).toEmbedding (.refl Char) retangled ∧
      ∃ d d' after after', tangled.determinize ⟨1⟩ = some (d, after) ∧
        retangled.determinize ⟨10⟩ = some (d', after') ∧
        d.MovedTo 1 10 (Signature.map (Equiv.swap 0 5)) d' ∧
        d'.subset? 10 = some (.ofList [5, 1]) := by
  obtain ⟨d, d', after, after', hd, hd', hmoved, _⟩ :=
    determinize_renamedTo ⟨1⟩ ⟨10⟩ rfl tangled_renamedTo_retangled
  refine ⟨rfl, tangled_renamedTo_retangled, d, d', after, after', hd, hd', hmoved, ?_⟩
  have hsets : (tangled.determinize ⟨1⟩).map (fun x => x.1.provenance) =
      some [(1, .ofList [0, 1]), (2, .ofList [0, 1, 5]), (3, .ofList [])] := by cbv
  rw [hd, Option.map_some] at hsets
  have hstart : d.subset? 1 = some (.ofList [0, 1]) := by
    rw [Dfa.subset?, Option.some.inj hsets]
    rfl
  rw [hmoved.subset?_eq 1 10 rfl, hstart]
  decide

end Nfa

end PostfixRegex
