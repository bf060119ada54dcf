import Mathlib.Algebra.Ring.Nat
import PostfixRegex.Proofs.Accounting
import PostfixRegex.Proofs.Closure
import PostfixRegex.Proofs.Determinization.Complete

/-!
# How many sets there are

A set of the subset construction is either the first one or it is what some states lead to on
epsilon, and these states are targets of transitions on one and the same character. So for each
character there are no more sets than there are choices among the targets on it
(`Nfa.length_subsets_le`). That holds for every automaton, and it is far below the number of sets of
states when the transitions are spread over many characters.

For an automaton that was compiled the transitions on a character are counted by the literals of the
text. Since no transition leads back to its start, the first set is not found again; with the set of
the first character there are at least two.

## Main definitions

* `Nfa.landings` — the targets on a character
* `Nfa.closed` — the set of some states, in canonical form

## Main results

* `Nfa.nextSubset_eq_closed` — the next set, from a choice among the targets on its character
* `Nfa.length_subsets_le_pow`, `Nfa.length_subsets_le` — bounds for every automaton
* `compile_determinize_size` — bounds for well-formed texts
-/

namespace PostfixRegex

/-! ### Choices -/

theorem length_sublists (xs : List Nat) : (sublists xs).length = 2 ^ xs.length := by
  induction xs with
  | nil => rfl
  | cons x xs ih =>
    rw [sublists, List.length_append, List.length_map, ih, List.length_cons, Nat.pow_succ,
      Nat.mul_two]

theorem length_erase_nil_sublists (xs : List Nat) :
    ((sublists xs).erase []).length = 2 ^ xs.length - 1 := by
  rw [List.length_erase_of_mem (mem_sublists (List.nil_sublist xs)), length_sublists]

/-- The signature of a list has each identifier once. -/
theorem Signature.size_ofList (ids : List Nat) : (ofList ids).size = ids.eraseDups.length := by
  have hnodup : ids.eraseDups.Nodup := by
    rw [← unseen_nil_eq_eraseDups]
    exact nodup_unseen ids []
  have hsorted : (ofList ids).toList.Nodup := (ofList ids).toList_sorted.imp Nat.ne_of_lt
  have hperm : (ofList ids).toList.Perm ids.eraseDups := by
    refine (List.perm_ext_iff_of_nodup hsorted hnodup).mpr fun x => ?_
    rw [mem_toList_ofList, List.mem_eraseDups]
  exact hperm.length_eq

namespace Nfa

variable {n : Nfa} {first : Nat} {s : Signature} {c : Char}

/-- The targets of all transitions on the character, repetitions kept. -/
def landings (n : Nfa) (c : Char) : List Nat :=
  n.states.toList.flatMap (·.targets (.char c))

/-- The set of all states that the given ones lead to on epsilon. -/
def closed (n : Nfa) (ids : List Nat) : Signature :=
  (n.closure ids).signature

/-- There are as many targets on a character as transitions with that label. -/
theorem length_landings (n : Nfa) (c : Char) :
    (n.landings c).length = (labelsOf n.states.toList).count (.char c) := by
  rw [landings, labelsOf, List.length_flatMap, List.count_flatMap]
  exact congrArg List.sum (List.map_congr_left fun q _ => q.length_targets (.char c))

/-- **The next set** is that of a choice among the targets on the character. -/
theorem nextSubset_eq_closed (n : Nfa) (s : Signature) (c : Char) :
    ∃ ids ∈ sublists (n.landings c), n.nextSubset s c = n.closed ids := by
  have hmove : ∀ x, x ∈ (n.move c (.ofSignature s)).order → x ∈ n.landings c := by
    intro x hx
    obtain ⟨p, _, hp⟩ := Automaton.mem_move.mp hx
    obtain ⟨q, hq, ht⟩ := Automaton.mem_targets.mp hp
    exact List.mem_flatMap.mpr ⟨q, (Table.get?_eq_some_iff.mp hq).1, State.mem_targets.mpr ht⟩
  let ids := (n.landings c).filter (· ∈ (n.move c (.ofSignature s)).order)
  refine ⟨ids, mem_sublists List.filter_sublist, Signature.ext_mem fun x => ?_⟩
  have hids : ∀ x, x ∈ ids ↔ x ∈ (n.move c (.ofSignature s)).order := by
    intro x
    rw [List.mem_filter, decide_eq_true_iff]
    exact and_iff_right_of_imp (hmove x)
  -- a closure depends on the members only, not on their order
  rw [nextSubset, closed, StateSet.mem_signature, StateSet.mem_signature, Automaton.step,
    Automaton.mem_closure_iff, Automaton.mem_closure_iff]
  simp only [hids]

theorem eq_initialSubset_or_nextSubset (hs : s ∈ n.subsets) :
    s = n.initialSubset ∨ ∃ s' c, c ∈ n.alphabet.toList ∧ s = n.nextSubset s' c := by
  obtain ⟨w, hw, rfl⟩ := mem_subsets.mp hs
  rcases List.eq_nil_or_concat w with rfl | ⟨u, c, rfl⟩
  · exact .inl rfl
  · refine .inr ⟨n.subsetAfter u, c, hw c (by simp), ?_⟩
    rw [List.concat_eq_append, subsetAfter_concat]

/-! ### Bounds for every automaton -/

/-- There are no more sets than sets of identifiers among the start and the targets. -/
theorem length_subsets_le_pow (n : Nfa) :
    n.subsets.length ≤ 2 ^ (n.start :: n.allTargets).eraseDups.length := by
  let ids := n.start :: n.allTargets
  have hmem : n.subsets ⊆ (sublists (Signature.ofList ids).toList).map Signature.ofList := by
    intro s hs
    refine Signature.mem_map_sublists ids fun x hx => ?_
    rcases eq_initialSubset_or_nextSubset hs with rfl | ⟨s', c, _, rfl⟩
    · obtain ⟨p, hp, hpath⟩ := Automaton.mem_closure_iff.mp (StateSet.mem_signature.mp hx)
      rw [List.mem_singleton.mp hp] at hpath
      rcases hpath.cases_tail with rfl | ⟨q, _, hq⟩
      · exact List.mem_cons_self
      · have htarget := Automaton.mem_targets_iff_move.mpr hq
        exact List.mem_cons_of_mem _ (Automaton.mem_allTargets_of_mem_targets htarget)
    · exact List.mem_cons_of_mem _ (mem_allTargets_of_mem_nextSubset hx)
  have hlength := (List.subperm_of_subset n.nodup_subsets hmem).length_le
  rw [List.length_map, length_sublists] at hlength
  rwa [← Signature.size_ofList]

/-- The sets that there can be: the first one, the empty one, and those of the choices among the
targets on one character. -/
def candidates (n : Nfa) : List Signature :=
  n.initialSubset :: n.closed [] ::
    n.alphabet.toList.flatMap fun c => ((sublists (n.landings c)).erase []).map n.closed

theorem mem_candidates (hs : s ∈ n.subsets) : s ∈ n.candidates := by
  rcases eq_initialSubset_or_nextSubset hs with rfl | ⟨s', c, hc, rfl⟩
  · exact List.mem_cons_self
  · obtain ⟨ids, hids, heq⟩ := n.nextSubset_eq_closed s' c
    rw [heq]
    refine List.mem_cons_of_mem _ ?_
    by_cases hnil : ids = []
    · rw [hnil]
      exact List.mem_cons_self
    · refine List.mem_cons_of_mem _ (List.mem_flatMap.mpr ⟨c, hc, List.mem_map_of_mem ?_⟩)
      exact (List.mem_erase_of_ne hnil).mpr hids

/-- **The number of sets**, from the number of transitions on each character. -/
theorem length_subsets_le (n : Nfa) :
    n.subsets.length ≤
      2 + (n.alphabet.toList.map fun c => 2 ^ (n.landings c).length - 1).sum := by
  have hlength := (List.subperm_of_subset n.nodup_subsets fun _ => mem_candidates).length_le
  rw [candidates, List.length_cons, List.length_cons, List.length_flatMap] at hlength
  simp only [List.length_map, length_erase_nil_sublists] at hlength
  omega

/-! ### The first set -/

/-- Where no transition leads to the start, the first set is not found again. -/
theorem nextSubset_ne_initialSubset (h : n.start ∉ n.allTargets) (s : Signature) (c : Char) :
    n.nextSubset s c ≠ n.initialSubset := by
  intro heq
  have hstart : n.start ∈ n.initialSubset.toList := mem_initialSubset.mpr (.nil _)
  rw [← heq] at hstart
  exact h (mem_allTargets_of_mem_nextSubset hstart)

theorem two_le_length_subsets (h : n.start ∉ n.allTargets) (hc : c ∈ n.alphabet.toList) :
    2 ≤ n.subsets.length := by
  have hne := nextSubset_ne_initialSubset h n.initialSubset c
  have hnodup : [n.nextSubset n.initialSubset c, n.initialSubset].Nodup := by simpa using hne
  have hsubset : [n.nextSubset n.initialSubset c, n.initialSubset] ⊆ n.subsets := by
    simpa using ⟨nextSubset_mem_subsets n.initialSubset_mem_subsets hc,
      n.initialSubset_mem_subsets⟩
  exact (List.subperm_of_subset hnodup hsubset).length_le

/-- Nor does a transition of the deterministic automaton lead back to its start. -/
theorem target_numbered_ne_start (h : n.start ∉ n.allTargets) {q : State}
    (hq : q ∈ (n.numbered first).states.toList) {t : Transition} (ht : t ∈ q.transitions) :
    t.target ≠ (n.numbered first).start := by
  obtain ⟨s, hs, rfl⟩ := mem_states_numbered.mp hq
  obtain ⟨c, hc, rfl⟩ := List.mem_map.mp ht
  rw [start_numbered]
  intro heq
  exact nextSubset_ne_initialSubset h s c (number_injOn (nextSubset_mem_subsets hs hc) heq)

end Nfa

/-! ### Well-formed texts -/

theorem Fragment.Shape.start_notMem_allTargets {f : Fragment} (h : f.Shape) {a : Automaton}
    {alphabet : Alphabet} (ha : a = ⟨f.start, f.states, alphabet⟩) : a.start ∉ a.allTargets := by
  subst ha
  intro hmem
  obtain ⟨s, hs, ht⟩ := List.mem_flatMap.mp hmem
  obtain ⟨t, ht, htarget⟩ := List.mem_map.mp ht
  exact (h.target_mem s hs t ht).2.1 htarget

/-- If no literal stands twice, there is one choice for each. -/
theorem sum_pow_count_of_nodup {cs : List Char} (h : cs.Nodup) :
    (cs.eraseDups.map fun c => 2 ^ cs.count c - 1).sum = cs.length := by
  have hcs : cs.eraseDups = cs := by
    rw [← unseen_nil_eq_eraseDups, unseen_eq_self h fun _ _ => List.not_mem_nil]
  have hone : ∀ c ∈ cs, 2 ^ cs.count c - 1 = 1 := by
    intro c hc
    rw [List.count_eq_one_of_mem h hc]
    rfl
  rw [hcs, List.map_congr_left hone, List.map_const', List.sum_replicate_nat, Nat.mul_one]

/-- **The size of the deterministic automaton** of a well-formed text, wherever the two supplies
stand. It has at least two states, and besides these two no more than there are nonempty choices
among the places of one literal. If all literals are different, it has two states more than there
are literals at most, whatever the operators are. The start state is never entered again. -/
theorem compile_determinize_size (text : String) (supply supply' : Supply)
    (h : ∃ e : Expr, e.Plain ∧ e.text = text) :
    ∃ c n d supply'', compile text supply = .ok c ∧ c.result = .ok n ∧
      n.determinize supply' = some (d, supply'') ∧
      2 ≤ d.states.size ∧
      d.states.size ≤ 2 + ((literalsOf (tokenize text)).eraseDups.map fun x =>
        2 ^ (literalsOf (tokenize text)).count x - 1).sum ∧
      ((literalsOf (tokenize text)).Nodup →
        d.states.size ≤ (literalsOf (tokenize text)).length + 2) ∧
      ∀ q ∈ d.states.toList, ∀ t ∈ q.transitions, t.target ≠ d.start := by
  obtain ⟨e, he⟩ := h
  obtain ⟨c, hcompile, ⟨_, n, _, hresult, hne, _⟩ | ⟨hnone, _⟩⟩ := compile_outcome text supply
  · obtain ⟨_, _, _, f, _, hshape, hfragment⟩ :=
      comesFrom_of_compile Fragment.inherited_true hcompile hresult
    have hstart := hshape.start_notMem_allTargets hfragment
    have haccounts := accounts_of_compile hcompile hresult
    obtain ⟨x, hx⟩ := haccounts.exists_mem_alphabet
    have hbound := n.length_subsets_le
    simp only [Nfa.length_landings, haccounts.count_eq, haccounts.alphabet_eq] at hbound
    refine ⟨c, n, _, _, hcompile, hresult, n.determinize_eq supply' hne, ?_, ?_, fun hnodup => ?_,
      fun q hq t ht => Nfa.target_numbered_ne_start hstart hq ht⟩
    · rw [Nfa.size_numbered]
      exact Nfa.two_le_length_subsets hstart hx
    · rw [Nfa.size_numbered]
      exact hbound
    · rw [Nfa.size_numbered]
      rw [sum_pow_count_of_nodup hnodup, Nat.add_comm] at hbound
      exact hbound
  · exact absurd (Expr.tokenize_eq_tokens_iff.mpr he) (hnone e)

/-- With two places of `a` and one of `b`, the two choices of one place and the choice of both are
added to the choice of `b`. -/
theorem compile_determinize_size_twice :
    (∃ e : Expr, e.Plain ∧ e.text = "ab|*a&") ∧
      ∃ c n d supply'', compile "ab|*a&" ⟨7⟩ = .ok c ∧ c.result = .ok n ∧
        n.determinize ⟨3⟩ = some (d, supply'') ∧ 2 ≤ d.states.size ∧ d.states.size ≤ 2 + (3 + 1) ∧
        ∀ q ∈ d.states.toList, ∀ t ∈ q.transitions, t.target ≠ d.start := by
  have hwell : ∃ e : Expr, e.Plain ∧ e.text = "ab|*a&" :=
    ⟨.concatenate (.star (.union (.literal 'a') (.literal 'b'))) (.literal 'a'),
      by simp [Expr.Plain, Expr.literals], by decide⟩
  obtain ⟨c, n, d, supply'', hcompile, hresult, hd, htwo, hsize, _, hstart⟩ :=
    compile_determinize_size "ab|*a&" ⟨7⟩ ⟨3⟩ hwell
  have hletters : literalsOf (tokenize "ab|*a&") = ['a', 'b', 'a'] := by decide
  rw [hletters] at hsize
  exact ⟨hwell, c, n, d, supply'', hcompile, hresult, hd, htwo, hsize, hstart⟩

end PostfixRegex
