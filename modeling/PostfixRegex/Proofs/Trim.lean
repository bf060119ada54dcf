import PostfixRegex.Proofs.Determinization.Complete
import PostfixRegex.Proofs.Fragment.Accessible
import PostfixRegex.Proofs.Reachability
import PostfixRegex.Proofs.Viability

/-!
# No state is superfluous

Whatever goes through all states of an automaton, to draw it or to count something, would take dead
states along without notice. There are none. In a compiled automaton the start leads to every state
and every state leads to the accepting one. In a deterministic automaton the start leads to every
state too, whatever the automaton looked like that it was made from, since its states are the sets
that words lead to.

Leading on to an accepting state is not claimed of deterministic automata: the state of the empty
set is a dead end, and it is there whenever some word cannot be continued.

## Main definitions

* `Nfa.Trim` — no superfluous states and no dead ends

## Main results

* `trim_of_compile` — compiled automata
* `Nfa.accessible_numbered` — deterministic automata
* `compile_determinize_trim` — what can be reached in both
-/

namespace PostfixRegex

/-- The start leads to all states and to nothing else, and all states lead to the only accepting
one. -/
structure Nfa.Trim (n : Nfa) : Prop where
  accessible : n.toAutomaton.Accessible
  coaccessible : ∃ q, n.accepting = [q] ∧ ∀ x ∈ n.states.ids, ∃ w, n.states.Path x w q.id

/-! ### Compiled automata -/

/-- The automaton of a fragment without superfluous states and dead ends. -/
theorem Fragment.Shape.trim {f : Fragment} (hf : f.Shape) (hacc : f.Accessible)
    (hco : f.Coaccessible) {n : Nfa} {alphabet : Alphabet}
    (hn : n.toAutomaton = ⟨f.start, f.states, alphabet⟩) : n.Trim := by
  obtain ⟨q, haccepting, hq, _⟩ := hf.exists_accepting hn
  refine ⟨fun x => ?_, q, haccepting, ?_⟩
  · rw [hn]
    refine ⟨hacc x, ?_⟩
    rintro ⟨w, hw⟩
    exact hf.path_mem_ids hw hf.start_mem
  · rw [hn, hq]
    exact hco

/-- **Compiled automata are trim.** -/
theorem trim_of_compile {text : String} {supply : Supply} {c : Compilation} {n : Nfa}
    (hcompile : compile text supply = .ok c) (hresult : c.result = .ok n) : n.Trim := by
  obtain ⟨_, _, _, f, ⟨hacc, hco⟩, hf, hn⟩ := comesFrom_of_compile
    (Fragment.inherited_accessible.and Fragment.inherited_coaccessible) hcompile hresult
  exact hf.trim hacc hco hn

/-! ### Deterministic automata -/

/-- A run is a path that spells the word. -/
theorem Dfa.path_of_run? {d : Dfa} {p q : Nat} {w : Word} (h : d.run? p w = some q) :
    d.states.Path p w q := by
  induction w generalizing p with
  | nil =>
    obtain rfl := Option.some.inj h
    exact .nil p
  | cons c w ih =>
    rw [run?] at h
    split at h
    · next target hnext =>
      obtain ⟨s, hs, htarget⟩ := Option.bind_eq_some_iff.mp hnext
      have hmove : d.states.Move (.char c) p target := by
        rw [← Automaton.mem_targets_iff_move, Automaton.targets, hs]
        exact List.mem_of_head? htarget
      exact .char hmove (ih h)
    · cases h

/-- **Deterministic automata have no superfluous states.** A state stands for the set of some word,
and the run on that word ends there. -/
theorem Nfa.accessible_numbered (n : Nfa) (first : Nat) :
    (n.numbered first).toAutomaton.Accessible := by
  intro x
  constructor
  · intro hx
    obtain ⟨q, hq, rfl⟩ := List.mem_map.mp hx
    obtain ⟨s, hs, rfl⟩ := mem_states_numbered.mp hq
    obtain ⟨w, hw, rfl⟩ := mem_subsets.mp hs
    exact ⟨w, Dfa.path_of_run? ((n.run?_numbered first w).trans (if_pos hw))⟩
  · rintro ⟨w, hw⟩
    refine hw.mem_ids (fun symbol p q hm => ?_) (n.start_mem_ids_numbered first)
    obtain ⟨s, hs, _, ht⟩ := hm
    exact Table.contains_iff.mp ((n.completeOver_numbered first).target_mem s hs _ ht)

/-! ### Both automata -/

/-- **What can be reached.** A well-formed text compiles to an automaton that has states, no
superfluous ones and no dead ends; and of any automaton with states, compiled or not, a
deterministic automaton is made that has no superfluous states. In both of them the list of what can
be reached consists of the identifiers of the states, each of them once. -/
theorem compile_determinize_trim :
    (∀ (text : String) (supply : Supply), (∃ e : Expr, e.Plain ∧ e.text = text) →
      ∃ c n, compile text supply = .ok c ∧ c.result = .ok n ∧ n.states.isEmpty = false ∧
        n.Trim ∧ n.reachable.Perm n.states.ids) ∧
      ∀ (n : Nfa) (supply : Supply), n.states.isEmpty = false →
        ∃ d after, n.determinize supply = some (d, after) ∧ d.toAutomaton.Accessible ∧
          d.reachable.Perm d.states.ids := by
  constructor
  · intro text supply hwell
    obtain ⟨c, n, hcompile, hresult, hne⟩ := exists_nfa_of_plain hwell supply
    have htrim := trim_of_compile hcompile hresult
    exact ⟨c, n, hcompile, hresult, hne, htrim, htrim.accessible.perm_reachable⟩
  · intro n supply hne
    have hacc := n.accessible_numbered supply.next
    exact ⟨_, _, n.determinize_eq supply hne, hacc, hacc.perm_reachable⟩

/-- The repetition of a character, and an automaton that was put together by hand. The search does
not list the four states of the repetition in the order of their identifiers. -/
theorem compile_determinize_trim_star :
    (∃ e : Expr, e.Plain ∧ e.text = "a*") ∧ Nfa.tangled.states.isEmpty = false ∧
      (∃ c n, compile "a*" ⟨7⟩ = .ok c ∧ c.result = .ok n ∧ n.Trim ∧
        n.reachable.Perm [7, 8, 9, 10] ∧ n.reachable = [9, 7, 8, 10]) ∧
      ∃ d after, Nfa.tangled.determinize ⟨1⟩ = some (d, after) ∧ d.reachable.Perm [1, 2, 3] := by
  have hwell : ∃ e : Expr, e.Plain ∧ e.text = "a*" :=
    ⟨.star (.literal 'a'), by simp [Expr.Plain, Expr.literals], by decide⟩
  obtain ⟨c, n, hcompile, hresult, _, htrim, hperm⟩ :=
    compile_determinize_trim.1 "a*" ⟨7⟩ hwell
  obtain ⟨d, after, hd, _, hreach⟩ := compile_determinize_trim.2 Nfa.tangled ⟨1⟩ rfl
  have hcompiled : ((compile "a*" ⟨7⟩).toOption.map fun c =>
      c.result.toOption.map fun n => (n.states.ids, n.reachable)) =
        some (some ([7, 8, 9, 10], [9, 7, 8, 10])) := by cbv
  have hids : (Nfa.tangled.determinize ⟨1⟩).map (fun x => x.1.states.ids) = some [1, 2, 3] := by cbv
  rw [hcompile, Except.toOption, Option.map_some, hresult] at hcompiled
  obtain ⟨hstates, horder⟩ := Prod.mk.inj (Option.some.inj (Option.some.inj hcompiled))
  rw [hd, Option.map_some] at hids
  rw [Option.some.inj hids] at hreach
  rw [hstates] at hperm
  exact ⟨hwell, rfl, ⟨c, n, hcompile, hresult, htrim, hperm, horder⟩, d, after, hd, hreach⟩

end PostfixRegex
