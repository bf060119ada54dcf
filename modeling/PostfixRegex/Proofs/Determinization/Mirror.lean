import PostfixRegex.Proofs.Determinization.Numbering
import PostfixRegex.Proofs.Renaming

/-!
# Mirrored determinizations

When do two automata have the same deterministic automaton, names apart? It is enough to look at
their sets of states, before anything is numbered: if the sets of one automaton are matched with
those of the other, so that the first set, the steps on corresponding characters and acceptance
agree, then the two subset constructions discover matching sets at the same places. The numbers
depend on the places only, so the deterministic automata agree state by state.

`Nfa.Mirrors` is that correspondence. It asks nothing of the states and transitions themselves,
which is what makes it fit such different cases as other identifiers, other characters and an
automaton that was deterministic from the start.

## Main definitions

* `Nfa.Mirrors` — the sets of one automaton are matched with those of another
* `Dfa.MovedTo` — the same deterministic automaton, numbered from somewhere else on

## Main results

* `Nfa.Mirrors.subsets_eq` — matching sets are discovered in the same order
* `Nfa.Mirrors.numbered_eq` — the numbered automata agree up to names
* `Nfa.Mirrors.movedTo` — and up to where the numbering starts
* `Nfa.Mirrors.determinize_eq` — and not at all if the sets are the same
-/

namespace PostfixRegex

namespace Table

/-- The content of a state under other names. -/
def Row.rename (ρ : Renaming) (r : Row) : Row :=
  ⟨r.accepting, r.transitions.map (Transition.rename ρ)⟩

theorem number_rename (ρ : Renaming) : ∀ (first : Nat) (rows : List Row),
    number (first + ρ.offset) (rows.map (Row.rename ρ)) = (number first rows).map (State.rename ρ)
  | _, [] => rfl
  | first, r :: rows => by
    rw [List.map_cons, number, number, List.map_cons, ← number_rename ρ (first + 1) rows,
      Nat.add_right_comm]
    rfl

end Table

/-- `d'` is `d` with identifiers that count from `first'` on where those of `d` count from `first`
on, and a state of `d'` stands for what `φ` makes of the set that the state of `d` stands for. The
distance is said without subtraction: moved up by the other's start, both automata are the same. -/
structure Dfa.MovedTo (d : Dfa) (first first' : Nat) (φ : Signature → Signature) (d' : Dfa) :
    Prop where
  size_eq : d'.states.size = d.states.size
  alphabet_eq : d'.alphabet = d.alphabet
  /-- Start, states, accepting flags and ordered transitions. -/
  shift_eq : d'.toAutomaton.rename (.shift first) = d.toAutomaton.rename (.shift first')
  subset?_eq : ∀ id id', id' + first = id + first' → d'.subset? id' = (d.subset? id).map φ

namespace Nfa

/-- The sets of `n'` mirror those of `n`: `φ` says which set of `n'` stands for a set of `n`, and
`σ` which character of `n'` stands for a character of `n`. -/
structure Mirrors (n' : Nfa) (σ : Char ↪ Char) (φ : Signature → Signature) (n : Nfa) : Prop where
  alphabet_eq : n'.alphabet = n.alphabet.relabel σ
  initialSubset_eq : n'.initialSubset = φ n.initialSubset
  nextSubset_eq : ∀ s ∈ n.subsets, ∀ c ∈ n.alphabet.toList,
    n'.nextSubset (φ s) (σ c) = φ (n.nextSubset s c)
  /-- Different sets have different counterparts. -/
  injOn : {s | s ∈ n.subsets}.InjOn φ
  anyAccepting_eq : ∀ s ∈ n.subsets, n'.anyAccepting (φ s).toList = n.anyAccepting s.toList

namespace Mirrors

variable {n n' : Nfa} {σ : Char ↪ Char} {φ : Signature → Signature} {s : Signature}
  {first first' id id' : Nat}

/-- An automaton mirrors itself. -/
theorem refl (n : Nfa) : n.Mirrors (.refl Char) (fun s => s) n where
  alphabet_eq := n.alphabet.relabel_refl.symm
  initialSubset_eq := rfl
  nextSubset_eq _ _ _ _ := rfl
  injOn := fun _ _ _ _ h => h
  anyAccepting_eq _ _ := rfl

/-! ### The sets -/

theorem copy (h : n'.Mirrors σ φ n) :
    n.subsetGraph.Copy n'.subsetGraph φ [n.initialSubset] where
  injOn _ hs _ ht := h.injOn (mem_subsets_iff_reachable.mpr hs) (mem_subsets_iff_reachable.mpr ht)
  successors_eq s hs := by
    have hs' : s ∈ n.subsets := mem_subsets_iff_reachable.mpr hs
    change n'.alphabet.toList.map (n'.nextSubset (φ s)) =
      (n.alphabet.toList.map (n.nextSubset s)).map φ
    rw [h.alphabet_eq]
    change (n.alphabet.toList.map σ).map (n'.nextSubset (φ s)) = _
    rw [List.map_map, List.map_map]
    exact List.map_congr_left fun c hc => h.nextSubset_eq s hs' c hc

/-- **Matching sets are discovered in the same order.** -/
theorem subsets_eq (h : n'.Mirrors σ φ n) : n'.subsets = n.subsets.map φ := by
  rw [subsets, h.initialSubset_eq]
  exact h.copy.found_search .queue

theorem idxOf_eq (h : n'.Mirrors σ φ n) (hs : s ∈ n.subsets) :
    n'.subsets.idxOf (φ s) = n.subsets.idxOf s := by
  rw [h.subsets_eq]
  exact idxOf_map_of_injOn h.injOn hs fun _ ht => ht

/-! ### The numbered automata -/

theorem subsetRow_eq {ρ : Renaming} (h : n'.Mirrors ρ.char φ n) (first : Nat)
    (hs : s ∈ n.subsets) :
    n'.subsetRow (first + ρ.offset) n'.subsets (φ s) =
      (n.subsetRow first n.subsets s).rename ρ := by
  have htarget : ∀ c ∈ n.alphabet.toList,
      n'.subsets.idxOf (n'.nextSubset (φ s) (ρ.char c)) = n.subsets.idxOf (n.nextSubset s c) := by
    intro c hc
    rw [h.nextSubset_eq s hs c hc, h.idxOf_eq (nextSubset_mem_subsets hs hc)]
  rw [subsetRow, h.anyAccepting_eq s hs, h.alphabet_eq]
  change Table.Row.mk _ ((n.alphabet.toList.map ρ.char).map _) =
    Table.Row.mk _ ((n.alphabet.toList.map _).map (Transition.rename ρ))
  rw [List.map_map, List.map_map]
  refine congrArg _ (List.map_congr_left fun c hc => ?_)
  simp only [Function.comp_apply, htarget c hc, Transition.rename, Symbol.relabel,
    Nat.add_right_comm]

/-- **The deterministic automata agree up to names.** Since matching sets have the same places,
their numbers differ by where the numbering starts. -/
theorem numbered_eq {ρ : Renaming} (h : n'.Mirrors ρ.char φ n) (first : Nat) :
    (n'.numbered (first + ρ.offset)).toAutomaton = (n.numbered first).toAutomaton.rename ρ := by
  have hrows : n'.subsets.map (n'.subsetRow (first + ρ.offset) n'.subsets) =
      (n.subsets.map (n.subsetRow first n.subsets)).map (Table.Row.rename ρ) := by
    rw [List.map_map]
    conv_lhs => arg 2; rw [h.subsets_eq]
    rw [List.map_map]
    exact List.map_congr_left fun s hs => h.subsetRow_eq first hs
  have hstates : (n'.numbered (first + ρ.offset)).states = (n.numbered first).states.rename ρ := by
    refine Table.ext ?_
    change Table.number _ (n'.subsets.map _) = (Table.number first _).map _
    rw [hrows, Table.number_rename]
  exact Automaton.ext rfl hstates h.alphabet_eq

theorem shift_eq (h : n'.Mirrors (.refl Char) φ n) (first first' : Nat) :
    (n'.numbered first').toAutomaton.rename (.shift first) =
      (n.numbered first).toAutomaton.rename (.shift first') := by
  rw [← numbered_eq (ρ := .shift first) (refl n') first',
    ← numbered_eq (ρ := .shift first') h first]
  change (n'.numbered (first' + first)).toAutomaton = (n'.numbered (first + first')).toAutomaton
  rw [Nat.add_comm]

theorem size_eq (h : n'.Mirrors σ φ n) (first first' : Nat) :
    (n'.numbered first').states.size = (n.numbered first).states.size := by
  rw [size_numbered, size_numbered, h.subsets_eq, List.length_map]

theorem subset?_eq (h : n'.Mirrors σ φ n) (hid : id' + first = id + first') :
    (n'.numbered first').subset? id' = ((n.numbered first).subset? id).map φ := by
  refine Option.ext fun t => ?_
  rw [subset?_numbered_iff, h.subsets_eq, List.mem_map, Option.map_eq_some_iff]
  simp only [subset?_numbered_iff]
  constructor
  · rintro ⟨⟨s, hs, rfl⟩, hnumber⟩
    rw [number, h.idxOf_eq hs] at hnumber
    refine ⟨s, ⟨hs, ?_⟩, rfl⟩
    rw [number]
    omega
  · rintro ⟨s, ⟨hs, hnumber⟩, rfl⟩
    refine ⟨⟨s, hs, rfl⟩, ?_⟩
    rw [number] at hnumber ⊢
    rw [h.idxOf_eq hs]
    omega

/-- **Two numberings of mirrored automata**, each from anywhere on. -/
theorem movedTo (h : n'.Mirrors (.refl Char) φ n) (first first' : Nat) :
    (n.numbered first).MovedTo first first' φ (n'.numbered first') where
  size_eq := h.size_eq first first'
  alphabet_eq := h.alphabet_eq.trans n.alphabet.relabel_refl
  shift_eq := h.shift_eq first first'
  subset?_eq _ _ hid := h.subset?_eq hid

/-- **The same sets.** Automata whose sets agree, not only correspond, determinize alike. -/
theorem determinize_eq (h : n'.Mirrors (.refl Char) (fun s => s) n)
    (hempty : n'.states.isEmpty = n.states.isEmpty) (supply : Supply) :
    n'.determinize supply = n.determinize supply := by
  have hsubsets : n'.subsets = n.subsets := h.subsets_eq.trans (List.map_id _)
  have hnumbered : n'.numbered supply.next = n.numbered supply.next := by
    refine Dfa.ext ?_ hsubsets
    exact (numbered_eq (ρ := .shift 0) h supply.next).trans (Automaton.rename_shift_zero _)
  cases hne : n.states.isEmpty with
  | true => rw [determinize, determinize, hempty, hne, if_pos rfl, if_pos rfl]
  | false =>
    rw [n.determinize_eq supply hne, n'.determinize_eq supply (hempty.trans hne), hnumbered,
      hsubsets]

end Mirrors

end Nfa

end PostfixRegex
