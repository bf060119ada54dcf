import PostfixRegex.Proofs.Compilation
import PostfixRegex.Proofs.Determinization.Provenance
import PostfixRegex.Proofs.Fragment.Coaccessible

/-!
# Which beginnings can still match

A word is viable if some continuation of it is accepted. An automaton that is compiled from an
expression can tell at once: the set of states that a word leads to is empty exactly when the word
is not viable. The reason is that no state of such an automaton is a dead end, and that is what
`Nfa.Live` says.

Two observations follow. Reading a word gets stuck at its first beginning that is not viable. And in
the deterministic automaton the state of the empty set is the only dead one: any other state stands
for a set with a member, from which an accepting state can be reached by a word over the alphabet.

## Main definitions

* `Nfa.Live` — what a path has spelled can be continued to an accepted word
* `Dfa.DeadIffEmpty` — the dead states are those of the empty set

## Main results

* `live_of_compile` — compiled automata are live
* `Nfa.Live.deadIffEmpty_numbered` — determinizing a live automaton
* `compile_determinize_viable` — the two automata of an expression
-/

namespace PostfixRegex

/-! ### Live automata -/

/-- An automaton in which whatever a path from the start spells can be continued to an accepted
word, and whose alphabet has the characters of all accepted words. -/
structure Nfa.Live (n : Nfa) : Prop where
  isEmpty_eq_false : n.states.isEmpty = false
  /-- Accepted words stay within the alphabet. -/
  covers : ∀ w, n.accepts w = true → n.alphabet.Covers w
  /-- There are no dead ends. -/
  continues : ∀ w x, n.states.Path n.start w x → ∃ v, n.accepts (w ++ v) = true

/-- Paths do not leave a fragment. -/
theorem Fragment.Shape.path_mem_ids {f : Fragment} (h : f.Shape) {p q : Nat} {w : Word}
    (hp : f.states.Path p w q) (hmem : p ∈ f.states.ids) : q ∈ f.states.ids :=
  hp.mem_ids (fun _ _ _ => h.target_mem_ids) hmem

/-- In the automaton of a fragment without dead ends every path can be continued to the last
state. -/
theorem Fragment.Coaccessible.continues {f : Fragment} (hco : f.Coaccessible) (hf : f.Shape)
    {n : Nfa} {alphabet : Alphabet} (hn : n.toAutomaton = ⟨f.start, f.states, alphabet⟩) (w : Word)
    (x : Nat) (hp : n.states.Path n.start w x) : ∃ v, n.accepts (w ++ v) = true := by
  rw [hn] at hp
  obtain ⟨v, hv⟩ := hco x (hf.path_mem_ids hp hf.start_mem)
  exact ⟨v, (hf.accepts_iff hn).mpr (hp.trans hv)⟩

theorem Fragment.inherited_coaccessible : Inherited fun f _ => f.Coaccessible where
  atom := coaccessible_atom
  concatenate := coaccessible_concatenate
  star := coaccessible_star
  union := coaccessible_union

/-- **Compiled automata are live.** -/
theorem live_of_compile {text : String} {supply : Supply} {compilation : Compilation} {n : Nfa}
    (hcompile : compile text supply = .ok compilation) (hresult : compilation.result = .ok n) :
    n.Live := by
  obtain ⟨e, _, halphabet, f, ⟨hlanguage, hco⟩, hf, hn⟩ := comesFrom_of_compile
    (Fragment.inherited_language.and Fragment.inherited_coaccessible) hcompile hresult
  refine ⟨?_, fun w hw c hc => ?_, hco.continues hf hn⟩
  · rw [hn]
    exact hf.isEmpty_eq_false
  · rw [hf.accepts_iff hn, hlanguage] at hw
    exact (halphabet c).mpr (Expr.mem_literals_of_mem_language hw hc)

/-! ### Viable words -/

namespace Nfa

variable {n : Nfa} {first : Nat} {s : Signature} {w : Word}

/-- Some path spells the word iff some continuation of the word is accepted. -/
theorem Live.exists_path_iff (h : n.Live) :
    (∃ x, n.states.Path n.start w x) ↔ ∃ v, n.accepts (w ++ v) = true := by
  constructor
  · rintro ⟨x, hx⟩
    exact h.continues w x hx
  · rintro ⟨v, hv⟩
    obtain ⟨_, _, _, hp⟩ := accepts_iff.mp hv
    obtain ⟨x, hx, _⟩ := Table.path_append_iff.mp hp
    exact ⟨x, hx⟩

theorem Live.forall_not_path_iff (h : n.Live) :
    (∀ x, ¬ n.states.Path n.start w x) ↔ ∀ v, n.accepts (w ++ v) = false := by
  rw [← not_exists, h.exists_path_iff]
  simp

/-- The set that a word leads to is empty iff no continuation of the word is accepted. -/
theorem Live.isEmpty_subsetAfter_iff (h : n.Live) :
    (n.subsetAfter w).isEmpty = true ↔ ∀ v, n.accepts (w ++ v) = false := by
  rw [Signature.isEmpty_iff, ← h.forall_not_path_iff]
  exact forall_congr' fun x => not_congr mem_subsetAfter

/-- **Getting stuck.** Reading stops exactly at the first beginning of the word that no accepted
word continues. -/
theorem Live.read_eq_stuck_iff (h : n.Live) {count : Nat} :
    n.read w = .stuck count ↔ count ≤ w.length ∧
      (∀ v, n.accepts (w.take count ++ v) = false) ∧
      ∀ shorter < count, ∃ v, n.accepts (w.take shorter ++ v) = true := by
  rw [Automaton.read_eq_stuck_iff, h.forall_not_path_iff]
  simp only [h.exists_path_iff]

end Nfa

/-! ### Traps -/

/-- A trap is never left. -/
theorem Dfa.eq_of_run?_of_isTrap {d : Dfa} {q : State} {w : Word} {id : Nat}
    (hq : d.state? q.id = some q) (htrap : q.isTrap = true) (h : d.run? q.id w = some id) :
    id = q.id := by
  induction w with
  | nil => exact (Option.some.inj h).symm
  | cons c w ih =>
    rw [Dfa.run?] at h
    split at h
    · next target hnext =>
      rw [Dfa.next?, hq, Option.bind_some, State.next?] at hnext
      have hmem := State.mem_targets.mp (List.mem_of_head? hnext)
      have htarget : target = q.id := of_decide_eq_true (List.all_eq_true.mp htrap _ hmem)
      rw [htarget] at h
      exact ih h
    · cases h

/-- From a trap that does not accept no word is accepted. -/
theorem Dfa.acceptsFrom_of_isTrap {d : Dfa} {q : State} (hq : d.state? q.id = some q)
    (hrejects : q.accepting = false) (htrap : q.isTrap = true) (w : Word) :
    d.acceptsFrom q.id w = false := by
  rw [Dfa.acceptsFrom]
  cases hrun : d.run? q.id w with
  | none => rfl
  | some id =>
    obtain rfl := Dfa.eq_of_run?_of_isTrap hq htrap hrun
    rw [Option.bind_some, hq]
    exact hrejects

/-! ### Dead states -/

/-- The dead states of `d`, from which no word is accepted, are exactly those of the empty set. -/
structure Dfa.DeadIffEmpty (d : Dfa) (n : Nfa) : Prop where
  accepts_eq : ∀ w, d.accepts w = n.accepts w
  /-- A word over the alphabet leads to a set with a member iff some continuation is accepted. -/
  run_isEmpty_iff : ∀ w, (∀ c ∈ w, c ∈ n.alphabet.toList) →
    ∃ id s, d.run? d.start w = some id ∧ d.subset? id = some s ∧
      (s.isEmpty = false ↔ ∃ v, d.accepts (w ++ v) = true)
  /-- A state is dead iff its set is empty, and that is so iff it is a trap that rejects. -/
  dead_iff : ∀ q ∈ d.states.toList, ∃ s, d.subset? q.id = some s ∧
    ((∀ v, d.acceptsFrom q.id v = false) ↔ s.isEmpty = true) ∧
    (q.accepting = false ∧ q.isTrap = true ↔ s.isEmpty = true)
  /-- There is at most one dead state. -/
  dead_unique : ∀ q ∈ d.states.toList, ∀ q' ∈ d.states.toList,
    (∀ v, d.acceptsFrom q.id v = false) → (∀ v, d.acceptsFrom q'.id v = false) → q = q'

namespace Nfa

variable {n : Nfa} {first : Nat} {s : Signature} {w : Word}

theorem Live.accepts_numbered (h : n.Live) (w : Word) :
    (n.numbered first).accepts w = n.accepts w := by
  rw [Bool.eq_iff_iff, accepts_numbered_iff]
  exact and_iff_right_of_imp (h.covers w)

/-- Only the state of the empty set is dead. -/
theorem Live.dead_number_iff (h : n.Live) (hs : s ∈ n.subsets) :
    (∀ v, (n.numbered first).acceptsFrom (n.number first s) v = false) ↔ s.isEmpty = true := by
  obtain ⟨w, _, rfl⟩ := mem_subsets.mp hs
  rw [h.isEmpty_subsetAfter_iff]
  refine forall_congr' fun v => ?_
  rw [Bool.eq_false_iff, Bool.eq_false_iff, Ne, Ne, acceptsFrom_number_iff hs,
    ← subsetAfter_append, ← accepts_iff_anyAccepting, and_iff_right_of_imp]
  intro hv c hc
  exact h.covers _ hv c (List.mem_append_right _ hc)

/-- Only the state of the empty set is a trap that rejects. -/
theorem Live.trap_subsetState_iff (h : n.Live) (hs : s ∈ n.subsets) :
    (n.subsetState first s).accepting = false ∧ (n.subsetState first s).isTrap = true ↔
      s.isEmpty = true := by
  constructor
  · rintro ⟨hrejects, htrap⟩
    rw [← h.dead_number_iff hs]
    exact Dfa.acceptsFrom_of_isTrap (state?_number hs) hrejects htrap
  · intro hempty
    refine ⟨Bool.eq_false_iff.mpr fun hacc => ?_, isTrap_subsetState hempty⟩
    obtain ⟨p, _, _, hp⟩ := accepting_subsetState_iff.mp hacc
    exact Signature.isEmpty_iff.mp hempty _ hp

theorem Live.deadIffEmpty_numbered (h : n.Live) (first : Nat) :
    (n.numbered first).DeadIffEmpty n where
  accepts_eq := h.accepts_numbered
  run_isEmpty_iff w hw := by
    have hs : n.subsetAfter w ∈ n.subsets := mem_subsets.mpr ⟨w, hw, rfl⟩
    refine ⟨n.number first (n.subsetAfter w), n.subsetAfter w, ?_, ?_, ?_⟩
    · exact (run?_numbered n first w).trans (if_pos hw)
    · exact subset?_numbered_iff.mpr ⟨hs, rfl⟩
    · rw [Bool.eq_false_iff, Ne, h.isEmpty_subsetAfter_iff]
      simp [h.accepts_numbered]
  dead_iff q hq := by
    obtain ⟨s, hs, rfl⟩ := mem_states_numbered.mp hq
    exact ⟨s, subset?_numbered_iff.mpr ⟨hs, rfl⟩, h.dead_number_iff hs,
      h.trap_subsetState_iff hs⟩
  dead_unique q hq q' hq' hdead hdead' := by
    obtain ⟨s, hs, rfl⟩ := mem_states_numbered.mp hq
    obtain ⟨s', hs', rfl⟩ := mem_states_numbered.mp hq'
    rw [Signature.eq_of_isEmpty ((h.dead_number_iff hs).mp hdead)
      ((h.dead_number_iff hs').mp hdead')]

end Nfa

/-- **Viable beginnings.** A well-formed text compiles and determinizes, with identifiers from one
supply. In the deterministic automaton a word over the alphabet leads to a set with a member iff it
can be continued to an accepted word, and the dead states are those of the empty set. Reading a word
with the other automaton gets stuck exactly at the first beginning that no accepted word
continues. -/
theorem compile_determinize_viable (text : String) (supply : Supply)
    (h : ∃ e : Expr, e.Plain ∧ e.text = text) :
    ∃ compilation n d supply', compile text supply = .ok compilation ∧
      compilation.result = .ok n ∧ n.determinize compilation.supply = some (d, supply') ∧
      d.DeadIffEmpty n ∧
      ∀ w count, n.read w = .stuck count ↔ count ≤ w.length ∧
        (∀ v, n.accepts (w.take count ++ v) = false) ∧
        ∀ shorter < count, ∃ v, n.accepts (w.take shorter ++ v) = true := by
  obtain ⟨e, he⟩ := h
  obtain ⟨compilation, hcompile, houtcome⟩ := compile_outcome text supply
  rcases houtcome with ⟨_, n, _, hresult, hne, _⟩ | ⟨hnone, _⟩
  · have hlive := live_of_compile hcompile hresult
    exact ⟨compilation, n, _, _, hcompile, hresult, n.determinize_eq _ hne,
      hlive.deadIffEmpty_numbered _, fun _ _ => hlive.read_eq_stuck_iff⟩
  · exact absurd (Expr.tokenize_eq_tokens_iff.mpr he) (hnone e)

/-- After `a` an accepted word goes on with `b`, so that reading stops after the second character,
at the first beginning that cannot be continued. -/
theorem compile_determinize_viable_concatenation :
    (∃ e : Expr, e.Plain ∧ e.text = "ab&") ∧
      ∃ compilation n d supply', compile "ab&" ⟨7⟩ = .ok compilation ∧
        compilation.result = .ok n ∧ n.determinize compilation.supply = some (d, supply') ∧
        d.DeadIffEmpty n ∧ n.read ['a', 'a', 'b'] = .stuck 2 ∧
        (∀ v, n.accepts (['a', 'a'] ++ v) = false) ∧
        ∀ shorter < 2, ∃ v, n.accepts (['a', 'a', 'b'].take shorter ++ v) = true := by
  have hwell : ∃ e : Expr, e.Plain ∧ e.text = "ab&" :=
    ⟨.concatenate (.literal 'a') (.literal 'b'), by simp [Expr.Plain, Expr.literals], by decide⟩
  obtain ⟨compilation, n, d, supply', hcompile, hresult, hd, hdead, hread⟩ :=
    compile_determinize_viable "ab&" ⟨7⟩ hwell
  have hstuck : n.read ['a', 'a', 'b'] = .stuck 2 := by
    have hreads : ((compile "ab&" ⟨7⟩).toOption.map fun c =>
        c.result.toOption.map fun m => m.read ['a', 'a', 'b']) = some (some (.stuck 2)) := by cbv
    rw [hcompile, Except.toOption, Option.map_some, hresult] at hreads
    exact Option.some.inj (Option.some.inj hreads)
  obtain ⟨_, hnone, hsome⟩ := (hread ['a', 'a', 'b'] 2).mp hstuck
  exact ⟨hwell, compilation, n, d, supply', hcompile, hresult, hd, hdead, hstuck, hnone, hsome⟩

end PostfixRegex
