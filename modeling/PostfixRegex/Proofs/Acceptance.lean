import PostfixRegex.Proofs.Path
import PostfixRegex.Proofs.Table

/-!
# Acceptance by sequences of transitions

An automaton reads a word by following a set of states. What that decides can be said without sets:
there is a finite sequence of transitions, each leaving the state at which the one before it
arrived, that begins at the start state and ends at an accepting state, and whose labels spell the
word when the empty ones are left out.

The sequence is a list of transitions of the listed states (`Walk`), and so a thing that can be
shown. `Table.Path` speaks of the same sequences by the words they spell; it is the form in which
reading is analysed, and the two say the same.

The states may come in any order, may be unreachable, may have the same transition twice, may lead
in circles on epsilon and to identifiers that none of them has.

## Main definitions

* `Walk` — a sequence of transitions from one identifier to another
* `spelled` — the word on the way

## Main results

* `Table.path_iff_exists_walk` — paths are the words of walks
* `Nfa.ofStates_accepts_iff` — acceptance in terms of the listed states
-/

namespace PostfixRegex

/-- The character that a label consumes, if it consumes one. -/
def Symbol.char? : Symbol → Option Char
  | epsilon => none
  | char c => some c

/-- A sequence of transitions of the listed states. Each leaves the state at which the one before it
arrived. -/
inductive Walk (states : List State) : Nat → List Transition → Nat → Prop where
  | nil (p : Nat) : Walk states p [] p
  | cons {s : State} {t : Transition} {steps : List Transition} {q : Nat} :
      s ∈ states → t ∈ s.transitions → Walk states t.target steps q →
      Walk states s.id (t :: steps) q

/-- The characters that a sequence of transitions consumes. -/
def spelled (steps : List Transition) : Word :=
  steps.filterMap fun t => t.symbol.char?

theorem Walk.of_forall_mem {states states' : List State} {steps : List Transition} {p q : Nat}
    (hmem : ∀ s ∈ states, s ∈ states') (h : Walk states p steps q) : Walk states' p steps q := by
  induction h with
  | nil p => exact .nil p
  | cons hs ht _ ih => exact .cons (hmem _ hs) ht ih

namespace Table

variable {t : Table} {p q : Nat} {w : Word}

theorem Path.exists_walk (h : t.Path p w q) :
    ∃ steps, Walk t.toList p steps q ∧ spelled steps = w := by
  induction h with
  | nil p => exact ⟨[], .nil p, rfl⟩
  | epsilon hm _ ih =>
    obtain ⟨s, hs, rfl, hmem⟩ := hm
    obtain ⟨steps, hwalk, rfl⟩ := ih
    exact ⟨_, .cons hs hmem hwalk, rfl⟩
  | char hm _ ih =>
    obtain ⟨s, hs, rfl, hmem⟩ := hm
    obtain ⟨steps, hwalk, rfl⟩ := ih
    exact ⟨_, .cons hs hmem hwalk, rfl⟩

theorem path_of_walk {steps : List Transition} (h : Walk t.toList p steps q) :
    t.Path p (spelled steps) q := by
  induction h with
  | nil p => exact .nil p
  | @cons s step steps q hs hmem _ ih =>
    obtain ⟨symbol, target⟩ := step
    cases symbol with
    | epsilon => exact .epsilon ⟨s, hs, rfl, hmem⟩ ih
    | char c => exact .char ⟨s, hs, rfl, hmem⟩ ih

/-- **Paths are the words of walks.** -/
theorem path_iff_exists_walk :
    t.Path p w q ↔ ∃ steps, Walk t.toList p steps q ∧ spelled steps = w := by
  constructor
  · exact Path.exists_walk
  · rintro ⟨steps, hwalk, rfl⟩
    exact path_of_walk hwalk

end Table

namespace Nfa

variable {start : Nat} {states : List State} {alphabet : Alphabet} {n : Nfa}

theorem ofTable_eq_ok {t : Table} (h : ofTable start t alphabet = .ok n) :
    n.toAutomaton = ⟨start, t, alphabet⟩ := by
  rw [ofTable] at h
  split at h
  · cases h
    rfl
  · cases h

theorem ofStates_eq_ok (h : ofStates start states alphabet = .ok n) :
    n.start = start ∧ n.states.toList.Perm states := by
  obtain ⟨t, hlist, hn⟩ := Checked.bind_eq_ok.mp h
  rw [ofTable_eq_ok hn]
  exact ⟨rfl, Table.perm_of_ofList_eq_ok hlist⟩

/-- **Acceptance.** An automaton that was put together from a start state and a list of states
accepts a word iff some sequence of their transitions leads from the start to one of them that
accepts, and its labels spell the word when the empty ones are left out. -/
theorem ofStates_accepts_iff (start : Nat) (states : List State) (alphabet : Alphabet) (n : Nfa)
    (h : ofStates start states alphabet = .ok n) (w : Word) :
    n.accepts w = true ↔
      ∃ s ∈ states, s.accepting = true ∧
        ∃ steps, Walk states start steps s.id ∧ spelled steps = w := by
  obtain ⟨rfl, hperm⟩ := ofStates_eq_ok h
  rw [accepts_iff]
  simp only [Table.path_iff_exists_walk]
  constructor
  · rintro ⟨s, hs, hacc, steps, hwalk, hw⟩
    refine ⟨s, hperm.mem_iff.mp hs, hacc, steps, ?_, hw⟩
    exact hwalk.of_forall_mem fun _ => hperm.mem_iff.mp
  · rintro ⟨s, hs, hacc, steps, hwalk, hw⟩
    refine ⟨s, hperm.mem_iff.mpr hs, hacc, steps, ?_, hw⟩
    exact hwalk.of_forall_mem fun _ => hperm.mem_iff.mpr

/-- States that are not in order. One is unreachable, two lead to each other on epsilon, one has a
transition twice and another one to an identifier that is no state. -/
def scattered : List State :=
  [⟨7, true, [⟨.epsilon, 7⟩]⟩, ⟨1, true, [⟨.epsilon, 0⟩, ⟨.char 'b', 1⟩]⟩,
    ⟨0, false, [⟨.epsilon, 1⟩, ⟨.char 'a', 5⟩, ⟨.char 'a', 1⟩, ⟨.char 'a', 1⟩]⟩]

/-- The word is accepted because there is a sequence, and where a word is rejected there is none. -/
theorem ofStates_accepts_iff_scattered :
    ∃ n, ofStates 0 scattered (.ofList ['a']) = .ok n ∧ n.accepts ['b', 'a'] = true ∧
      ¬ ∃ s ∈ scattered, s.accepting = true ∧
        ∃ steps, Walk scattered 0 steps s.id ∧ spelled steps = ['c'] := by
  have hrejects : (ofStates 0 scattered (.ofList ['a'])).toOption.map (·.accepts ['c']) =
      some false := by cbv
  obtain ⟨n, hn, haccepts⟩ := Option.map_eq_some_iff.mp hrejects
  have hok : ofStates 0 scattered (.ofList ['a']) = .ok n := by
    cases h : ofStates 0 scattered (.ofList ['a']) with
    | error v =>
      rw [h] at hn
      cases hn
    | ok m =>
      rw [h] at hn
      exact congrArg Except.ok (Option.some.inj hn)
  have hiff := ofStates_accepts_iff 0 scattered (.ofList ['a']) n hok
  refine ⟨n, hok, (hiff _).mpr ?_, fun hsome => ?_⟩
  · have hstart : Walk scattered 0
        [⟨.epsilon, 1⟩, ⟨.char 'b', 1⟩, ⟨.epsilon, 0⟩, ⟨.char 'a', 1⟩] 1 := by
      refine .cons (s := scattered[2]) (by decide) (by decide) ?_
      refine .cons (s := scattered[1]) (by decide) (by decide) ?_
      refine .cons (s := scattered[1]) (by decide) (by decide) ?_
      exact .cons (s := scattered[2]) (by decide) (by decide) (.nil 1)
    exact ⟨scattered[1], by decide, rfl, _, hstart, rfl⟩
  · rw [(hiff _).mpr hsome] at haccepts
    cases haccepts

end Nfa

end PostfixRegex
