import PostfixRegex.Proofs.Acceptance
import PostfixRegex.Proofs.Determinization.Mirror
import PostfixRegex.Proofs.Reachability

/-!
# Unreachable states do not matter

An automaton may have states that its start does not lead to. Nothing that is computed from the
start can meet them, so they may as well be left out: the same words are accepted, and the
deterministic automaton is the same one, with the same identifiers and the same sets.

The reason is about paths only. A path from the start passes through states that can be reached, and
these keep all their transitions, so the paths from the start are the same with the other states and
without them. A transition may lead to an identifier that is no state. Such an identifier can be
reached, but there is no state to keep, and it stays the end of the same paths.

## Scope

Nothing is assumed about the transitions, and the automaton may have no states at all. That its
start is a state if it has any is part of being an `Nfa`, and this is what is needed: in an
automaton with states but without its start nothing would be kept.

## Main definitions

* `Nfa.pruned` — the automaton with the states that can be reached

## Main results

* `Nfa.path_start_pruned_iff` — the paths from the start
* `Nfa.mirrors_pruned` — the sets of the subset construction
* `Nfa.ofStates_pruned` — words and deterministic automaton
-/

namespace PostfixRegex

/-- The listed states that satisfy `p`. -/
def Table.filter (t : Table) (p : State → Bool) : Table :=
  ⟨t.toList.filter p, t.sorted.filter _⟩

theorem Table.isEmpty_filter {t : Table} (h : t.isEmpty = true) (p : State → Bool) :
    (t.filter p).isEmpty = true := by
  change (t.toList.filter p).isEmpty = true
  rw [List.isEmpty_iff.mp h]
  rfl

namespace Nfa

variable {n : Nfa} {p q x : Nat} {symbol : Symbol} {w : Word} {s : Signature}

/-- Of the states, those that some path leads to are listed. That the start is a state does not have
to be asked for: some state is one, so the start is one too. -/
theorem mem_reachable_iff (hx : x ∈ n.states.ids) :
    x ∈ n.reachable ↔ ∃ w, n.states.Path n.start w x := by
  rw [Automaton.mem_reachable, and_iff_right]
  rcases n.start_mem with hempty | hstart
  · rw [Table.ids, List.isEmpty_iff.mp hempty] at hx
    exact absurd hx List.not_mem_nil
  · exact Table.contains_iff.mp hstart

/-- The automaton with the states that can be reached. -/
def pruned (n : Nfa) : Nfa where
  start := n.start
  states := n.states.filter fun s => s.id ∈ n.reachable
  alphabet := n.alphabet
  start_mem := by
    refine n.start_mem.imp (fun hempty => Table.isEmpty_filter hempty _) fun hstart => ?_
    have hmem := Table.contains_iff.mp hstart
    obtain ⟨s, hs, hid⟩ := List.mem_map.mp hmem
    have hreach : s.id ∈ n.reachable := by
      rw [hid, mem_reachable_iff hmem]
      exact ⟨[], .nil _⟩
    rw [Table.contains_iff, ← hid]
    exact List.mem_map_of_mem (List.mem_filter.mpr ⟨hs, decide_eq_true hreach⟩)

theorem mem_states_pruned {q : State} :
    q ∈ n.pruned.states.toList ↔
      q ∈ n.states.toList ∧ ∃ w, n.states.Path n.start w q.id := by
  refine List.mem_filter.trans (and_congr_right fun hq => ?_)
  rw [decide_eq_true_iff, mem_reachable_iff (List.mem_map_of_mem hq)]

/-- The start is kept, so there is a state left if there was one. -/
theorem isEmpty_pruned (n : Nfa) : n.pruned.states.isEmpty = n.states.isEmpty := by
  cases hempty : n.states.isEmpty with
  | true => exact Table.isEmpty_filter hempty _
  | false =>
    have hstart := n.start_mem.resolve_left (by simp [hempty])
    obtain ⟨s, hs, hid⟩ := List.mem_map.mp (Table.contains_iff.mp hstart)
    refine List.isEmpty_eq_false_iff_exists_mem.mpr ⟨s, mem_states_pruned.mpr ⟨hs, [], ?_⟩⟩
    rw [hid]
    exact .nil _

/-! ### Paths -/

theorem move_pruned_iff :
    n.pruned.states.Move symbol p q ↔
      n.states.Move symbol p q ∧ ∃ w, n.states.Path n.start w p := by
  constructor
  · rintro ⟨s, hs, rfl, ht⟩
    obtain ⟨hs, hreach⟩ := mem_states_pruned.mp hs
    exact ⟨⟨s, hs, rfl, ht⟩, hreach⟩
  · rintro ⟨⟨s, hs, rfl, ht⟩, hreach⟩
    exact ⟨s, mem_states_pruned.mpr ⟨hs, hreach⟩, rfl, ht⟩

/-- **Paths.** From whatever can be reached, the same paths lead on. -/
theorem path_pruned_iff (hp : ∃ u, n.states.Path n.start u p) :
    n.pruned.states.Path p w q ↔ n.states.Path p w q := by
  constructor
  · exact Table.Path.mono fun _ _ _ hm => (move_pruned_iff.mp hm).1
  · intro h
    induction h with
    | nil => exact .nil _
    | epsilon hm _ ih =>
      refine .epsilon (move_pruned_iff.mpr ⟨hm, hp⟩) (ih ?_)
      obtain ⟨u, hu⟩ := hp
      exact ⟨_, hu.trans (.epsilon hm (.nil _))⟩
    | char hm _ ih =>
      refine .char (move_pruned_iff.mpr ⟨hm, hp⟩) (ih ?_)
      obtain ⟨u, hu⟩ := hp
      exact ⟨_, hu.trans (.char hm (.nil _))⟩

theorem path_start_pruned_iff :
    n.pruned.states.Path n.start w q ↔ n.states.Path n.start w q :=
  path_pruned_iff ⟨[], .nil _⟩

/-! ### What is computed from the start -/

theorem accepts_pruned (n : Nfa) (w : Word) : n.pruned.accepts w = n.accepts w := by
  rw [Bool.eq_iff_iff, accepts_iff, accepts_iff]
  change (∃ s ∈ n.pruned.states.toList, _ ∧ n.pruned.states.Path n.start w s.id) ↔ _
  simp only [mem_states_pruned, path_start_pruned_iff]
  constructor
  · rintro ⟨s, ⟨hs, _⟩, hacc, hw⟩
    exact ⟨s, hs, hacc, hw⟩
  · rintro ⟨s, hs, hacc, hw⟩
    exact ⟨s, ⟨hs, w, hw⟩, hacc, hw⟩

/-- The members of a discovered set can be reached. -/
theorem exists_path_of_mem_subsets (hs : s ∈ n.subsets) (hx : x ∈ s.toList) :
    ∃ w, n.states.Path n.start w x := by
  obtain ⟨w, _, rfl⟩ := mem_subsets.mp hs
  exact ⟨w, mem_subsetAfter.mp hx⟩

theorem nextSubset_pruned (hs : s ∈ n.subsets) (c : Char) :
    n.pruned.nextSubset s c = n.nextSubset s c := by
  refine Signature.ext_mem fun x => ?_
  rw [mem_nextSubset, mem_nextSubset]
  refine exists_congr fun p => and_congr_right fun hp => exists_congr fun q => ?_
  obtain ⟨u, hu⟩ := exists_path_of_mem_subsets hs hp
  have hmove : n.pruned.states.Move (.char c) p q ↔ n.states.Move (.char c) p q :=
    move_pruned_iff.trans (and_iff_left ⟨u, hu⟩)
  rw [hmove]
  refine and_congr_right fun hm => path_pruned_iff ?_
  exact ⟨u ++ [c], hu.trans (.char hm (.nil q))⟩

theorem anyAccepting_pruned (hs : s ∈ n.subsets) :
    n.pruned.anyAccepting s.toList = n.anyAccepting s.toList := by
  rw [Bool.eq_iff_iff, Automaton.anyAccepting_iff_exists_state,
    Automaton.anyAccepting_iff_exists_state]
  refine exists_congr fun q => and_congr_left fun ⟨_, hq⟩ => ?_
  exact mem_states_pruned.trans (and_iff_left (exists_path_of_mem_subsets hs hq))

/-- **The sets of the subset construction** are the same. -/
theorem mirrors_pruned (n : Nfa) : n.pruned.Mirrors (.refl Char) (fun s => s) n where
  alphabet_eq := n.alphabet.relabel_refl.symm
  initialSubset_eq := by
    refine Signature.ext_mem fun x => ?_
    rw [mem_initialSubset, mem_initialSubset]
    exact path_start_pruned_iff
  nextSubset_eq _ hs c _ := nextSubset_pruned hs c
  injOn := fun _ _ _ _ heq => heq
  anyAccepting_eq _ hs := anyAccepting_pruned hs

/-- **Unreachable states do not matter.** Take an automaton that was put together from a start state
and a list of states, and put another one together from those states alone that can be reached, in
any order. It accepts the same words, and with the same supply the same deterministic automaton is
made of it, with the same sets, and the supply is the same afterwards; or nothing is made of
either. -/
theorem ofStates_pruned {start : Nat} {states kept : List State} {alphabet : Alphabet} {n : Nfa}
    (h : ofStates start states alphabet = .ok n)
    (hkept : kept.Perm (states.filter fun s => s.id ∈ n.reachable)) :
    ∃ n', ofStates start kept alphabet = .ok n' ∧ (∀ w, n'.accepts w = n.accepts w) ∧
      ∀ supply, n'.determinize supply = n.determinize supply := by
  obtain ⟨t, hlist, hn⟩ := Checked.bind_eq_ok.mp h
  have hautomaton := ofTable_eq_ok hn
  have hstart : n.start = start := congrArg Automaton.start hautomaton
  have halphabet : n.alphabet = alphabet := congrArg Automaton.alphabet hautomaton
  have hperm : n.states.toList.Perm states := by
    rw [hautomaton]
    exact Table.perm_of_ofList_eq_ok hlist
  have hkept' : Table.ofList kept = .ok n.pruned.states :=
    Table.ofList_of_perm (hkept.trans (hperm.filter _).symm)
  have hok : ofStates start kept alphabet = .ok n.pruned := by
    rw [ofStates, hkept', Checked.ok_bind, ← hstart, ← halphabet]
    exact dif_pos n.pruned.start_mem
  exact ⟨n.pruned, hok, n.accepts_pruned, n.mirrors_pruned.determinize_eq n.isEmpty_pruned⟩

/-- The first of the three states cannot be reached, and the identifier `5`, which is no state, can.
The two other states are put together in the opposite order. -/
theorem ofStates_pruned_scattered :
    ∃ n, ofStates 0 scattered (.ofList ['a']) = .ok n ∧ n.reachable = [0, 5, 1] ∧
      scattered.tail.reverse.Perm (scattered.filter fun s => s.id ∈ n.reachable) ∧
      ∃ n', ofStates 0 scattered.tail.reverse (.ofList ['a']) = .ok n' ∧
        n'.accepts ['b', 'a'] = true ∧ n'.determinize ⟨4⟩ = n.determinize ⟨4⟩ := by
  have hfacts : (ofStates 0 scattered (.ofList ['a'])).toOption.map
      (fun n => (n.reachable, n.accepts ['b', 'a'])) = some ([0, 5, 1], true) := by cbv
  obtain ⟨n, hn, hfacts⟩ := exists_eq_ok_of_map hfacts
  obtain ⟨hreach, haccepts⟩ := Prod.mk.inj hfacts
  have hkept : scattered.tail.reverse.Perm (scattered.filter fun s => s.id ∈ n.reachable) := by
    rw [hreach]
    decide
  obtain ⟨n', hn', hsame, hdeterminize⟩ := ofStates_pruned hn hkept
  exact ⟨n, hn, hreach, hkept, n', hn', (hsame _).trans haccepts, hdeterminize ⟨4⟩⟩

end Nfa

end PostfixRegex
