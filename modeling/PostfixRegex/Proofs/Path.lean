import PostfixRegex.Automaton.Acceptance
import PostfixRegex.Proofs.Search

/-!
# Paths through a table of states

A path follows transitions from one state to another and spells the characters on the way; a move on
epsilon spells nothing. Paths are what the sets of states that an automaton computes with are
compared to: `closure` collects the ends of the paths that spell nothing, and one `step` appends one
character.

Paths are defined for any table, since fragments under construction have paths too. The end of a
path may be an identifier that the table lacks; no path goes on from there.

## Main definitions

* `Table.Move` — one transition
* `Table.Path` — a sequence of transitions and the word it spells

## Main results

* `Table.exists_path_iff` — where paths of any word lead
* `Table.path_append_iff` — a path that spells `u ++ v` passes through a state in between
* `Automaton.mem_closure`, `Automaton.mem_step` — closures and steps in terms of paths
* `Automaton.read_eq_stuck_iff` — where reading a word gets stuck
* `Nfa.accepts_iff` — a word is accepted iff it is spelled by a path to an accepting state
-/

namespace PostfixRegex

/-- Among the listed states, `id` has a transition on `symbol` to `target`. -/
def HasMove (states : List State) (symbol : Symbol) (id target : Nat) : Prop :=
  ∃ s ∈ states, s.id = id ∧ ⟨symbol, target⟩ ∈ s.transitions

theorem HasMove.mem_map_id {states : List State} {symbol : Symbol} {p q : Nat}
    (h : HasMove states symbol p q) : p ∈ states.map State.id := by
  obtain ⟨s, hs, rfl, _⟩ := h
  exact List.mem_map_of_mem hs

theorem hasMove_cons {s : State} {states : List State} {symbol : Symbol} {p q : Nat} :
    HasMove (s :: states) symbol p q ↔
      (s.id = p ∧ ⟨symbol, q⟩ ∈ s.transitions) ∨ HasMove states symbol p q := by
  simp only [HasMove, List.mem_cons, or_and_right, exists_or, exists_eq_left]

theorem hasMove_append {xs ys : List State} {symbol : Symbol} {p q : Nat} :
    HasMove (xs ++ ys) symbol p q ↔ HasMove xs symbol p q ∨ HasMove ys symbol p q := by
  simp only [HasMove, List.mem_append, or_and_right, exists_or]

namespace Table

/-- The table has a transition on `symbol` from the state `id` to `target`. -/
def Move (t : Table) (symbol : Symbol) (id target : Nat) : Prop :=
  HasMove t.toList symbol id target

/-- A sequence of transitions from one state to another, and the word on the way. -/
inductive Path (t : Table) : Nat → Word → Nat → Prop where
  /-- Staying spells nothing. -/
  | nil (p : Nat) : Path t p [] p
  /-- A move that consumes nothing. -/
  | epsilon {p q r : Nat} {w : Word} : t.Move .epsilon p q → Path t q w r → Path t p w r
  /-- A move that consumes one character. -/
  | char {p q r : Nat} {c : Char} {w : Word} :
      t.Move (.char c) p q → Path t q w r → Path t p (c :: w) r

variable {t t' : Table} {p q r : Nat} {u v w : Word} {c : Char} {symbol : Symbol}

theorem Move.mem_ids (h : t.Move symbol p q) : p ∈ t.ids :=
  h.mem_map_id

/-- Paths compose, and so do their words. -/
theorem Path.trans (h : t.Path p u q) (h' : t.Path q v r) : t.Path p (u ++ v) r := by
  induction h with
  | nil => exact h'
  | epsilon hm _ ih => exact .epsilon hm (ih h')
  | char hm _ ih => exact .char hm (ih h')

/-- A path stays a path when transitions are added. -/
theorem Path.mono (hle : ∀ symbol p q, t.Move symbol p q → t'.Move symbol p q)
    (h : t.Path p w q) : t'.Path p w q := by
  induction h with
  | nil => exact .nil _
  | epsilon hm _ ih => exact .epsilon (hle _ _ _ hm) ih
  | char hm _ ih => exact .char (hle _ _ _ hm) ih

/-- A path stays inside a table whose states have no other transitions. -/
theorem Path.confined
    (hin : ∀ symbol p q, p ∈ t'.ids → t.Move symbol p q → t'.Move symbol p q ∧ q ∈ t'.ids)
    (h : t.Path p w q) (hp : p ∈ t'.ids) : t'.Path p w q := by
  induction h with
  | nil => exact .nil _
  | epsilon hm _ ih =>
    obtain ⟨hm', hq⟩ := hin _ _ _ hp hm
    exact .epsilon hm' (ih hq)
  | char hm _ ih =>
    obtain ⟨hm', hq⟩ := hin _ _ _ hp hm
    exact .char hm' (ih hq)

/-- Paths stay in a table that has the targets of all its transitions. -/
theorem Path.mem_ids (hclosed : ∀ symbol p q, t.Move symbol p q → q ∈ t.ids)
    (h : t.Path p w q) (hp : p ∈ t.ids) : q ∈ t.ids := by
  induction h with
  | nil => exact hp
  | epsilon hm _ ih => exact ih (hclosed _ _ _ hm)
  | char hm _ ih => exact ih (hclosed _ _ _ hm)

/-- A word that some path spells: the labels of a sequence of transitions, epsilon left out. -/
theorem exists_path_iff :
    (∃ w, t.Path p w q) ↔ Relation.ReflTransGen (fun p q => ∃ symbol, t.Move symbol p q) p q := by
  constructor
  · rintro ⟨w, h⟩
    induction h with
    | nil => exact .refl
    | epsilon hm _ ih => exact .head ⟨_, hm⟩ ih
    | char hm _ ih => exact .head ⟨_, hm⟩ ih
  · intro h
    induction h using Relation.ReflTransGen.head_induction_on with
    | refl => exact ⟨[], .nil q⟩
    | head hm _ ih =>
      obtain ⟨symbol, hm⟩ := hm
      obtain ⟨w, hw⟩ := ih
      cases symbol with
      | epsilon => exact ⟨w, .epsilon hm hw⟩
      | char c => exact ⟨c :: w, .char hm hw⟩

/-- From a state without transitions there is no path but staying. -/
theorem Path.eq_nil_of_not_move (hno : ∀ symbol q, ¬ t.Move symbol p q) (h : t.Path p w q) :
    w = [] ∧ q = p := by
  cases h with
  | nil => exact ⟨rfl, rfl⟩
  | epsilon hm _ => exact absurd hm (hno _ _)
  | char hm _ => exact absurd hm (hno _ _)

theorem path_append_iff : t.Path p (u ++ v) r ↔ ∃ q, t.Path p u q ∧ t.Path q v r := by
  constructor
  · intro h
    generalize hw : u ++ v = w at h
    induction h generalizing u with
    | nil p =>
      obtain ⟨rfl, rfl⟩ := List.append_eq_nil_iff.mp hw
      exact ⟨p, .nil p, .nil p⟩
    | epsilon hm _ ih =>
      obtain ⟨q, hu, hv⟩ := ih hw
      exact ⟨q, .epsilon hm hu, hv⟩
    | @char p _ _ c w hm hp ih =>
      cases u with
      | nil =>
        refine ⟨p, .nil p, ?_⟩
        rw [show v = c :: w from hw]
        exact .char hm hp
      | cons d u =>
        obtain ⟨rfl, htail⟩ := List.cons.inj hw
        obtain ⟨q, hu, hv⟩ := ih htail
        exact ⟨q, .char hm hu, hv⟩
  · rintro ⟨q, hu, hv⟩
    exact hu.trans hv

/-- The paths that spell nothing are the sequences of moves on epsilon. -/
theorem path_nil_iff : t.Path p [] q ↔ Relation.ReflTransGen (t.Move .epsilon) p q := by
  constructor
  · intro h
    generalize hw : ([] : Word) = w at h
    induction h with
    | nil => exact .refl
    | epsilon hm _ ih => exact .head hm (ih hw)
    | char => cases hw
  · intro h
    induction h with
    | refl => exact .nil p
    | tail _ hm ih => exact ih.trans (.epsilon hm (.nil _))

/-- A path that spells one character makes one move on it, between moves on epsilon. -/
theorem path_singleton_iff :
    t.Path p [c] r ↔ ∃ q, t.Path p [] q ∧ ∃ q', t.Move (.char c) q q' ∧ t.Path q' [] r := by
  constructor
  · intro h
    generalize hw : [c] = w at h
    induction h with
    | nil => cases hw
    | epsilon hm _ ih =>
      obtain ⟨q, hq, q', hm', hr⟩ := ih hw
      exact ⟨q, .epsilon hm hq, q', hm', hr⟩
    | char hm hr =>
      obtain ⟨rfl, rfl⟩ := List.cons.inj hw
      exact ⟨_, .nil _, _, hm, hr⟩
  · rintro ⟨q, hq, q', hm, hr⟩
    exact hq.trans (.char hm hr)

/-- Reading one more character: the last move on it, and moves on epsilon behind. -/
theorem path_concat_iff :
    t.Path p (u ++ [c]) r ↔ ∃ q, t.Path p u q ∧ ∃ q', t.Move (.char c) q q' ∧ t.Path q' [] r := by
  rw [path_append_iff]
  constructor
  · rintro ⟨m, hu, hc⟩
    obtain ⟨q, hq, q', hm, hr⟩ := path_singleton_iff.mp hc
    exact ⟨q, by simpa using hu.trans hq, q', hm, hr⟩
  · rintro ⟨q, hu, q', hm, hr⟩
    exact ⟨q, hu, .char hm hr⟩

end Table

namespace Automaton

variable {a : Automaton} {c : Char} {x : Nat} {w : Word}

theorem mem_targets_iff_move {symbol : Symbol} {p q : Nat} :
    q ∈ a.targets symbol p ↔ a.states.Move symbol p q := by
  rw [mem_targets]
  constructor
  · rintro ⟨s, hs, ht⟩
    obtain ⟨hmem, hid⟩ := Table.get?_eq_some_iff.mp hs
    exact ⟨s, hmem, hid, ht⟩
  · rintro ⟨s, hmem, hid, ht⟩
    exact ⟨s, Table.get?_eq_some_iff.mpr ⟨hmem, hid⟩, ht⟩

/-- Some listed identifier accepts iff an accepting state is listed. -/
theorem anyAccepting_iff_exists_state {ids : List Nat} :
    a.anyAccepting ids = true ↔ ∃ s ∈ a.states.toList, s.accepting = true ∧ s.id ∈ ids := by
  refine anyAccepting_iff.trans ⟨?_, ?_⟩
  · rintro ⟨x, hx, s, hs, hacc⟩
    obtain ⟨hmem, rfl⟩ := Table.get?_eq_some_iff.mp hs
    exact ⟨s, hmem, hacc, hx⟩
  · rintro ⟨s, hmem, hacc, hx⟩
    exact ⟨s.id, hx, s, Table.get?_eq_some_iff.mpr ⟨hmem, rfl⟩, hacc⟩

/-- **Closures.** A closure holds the ends of the paths that spell nothing. -/
theorem mem_closure {ids : List Nat} :
    x ∈ (a.closure ids).order ↔ ∃ p ∈ ids, a.states.Path p [] x := by
  have hedge : a.epsilonGraph.Edge = a.states.Move .epsilon := by
    funext p q
    exact propext mem_targets_iff_move
  rw [closure, Graph.mem_found_search, Graph.Reachable, hedge]
  simp only [Table.path_nil_iff]

theorem mem_closure_start : x ∈ (a.closure [a.start]).order ↔ a.states.Path a.start [] x := by
  rw [mem_closure]
  simp

/-- **Steps.** A step makes one move on the character and then any number on epsilon. -/
theorem mem_step {set : StateSet} :
    x ∈ (a.step c set).order ↔
      ∃ p ∈ set.order, ∃ q, a.states.Move (.char c) p q ∧ a.states.Path q [] x := by
  rw [step, mem_closure]
  simp only [mem_move, mem_targets_iff_move]
  constructor
  · rintro ⟨q, ⟨p, hp, hm⟩, hx⟩
    exact ⟨p, hp, q, hm, hx⟩
  · rintro ⟨p, hp, q, hm, hx⟩
    exact ⟨q, ⟨p, hp, hm⟩, hx⟩

/-- Where a set holds the states after `w`, a step leads to the states after `w ++ [c]`. -/
theorem mem_step_iff_path {set : StateSet}
    (h : ∀ x, x ∈ set.order ↔ a.states.Path a.start w x) :
    x ∈ (a.step c set).order ↔ a.states.Path a.start (w ++ [c]) x := by
  rw [mem_step, Table.path_concat_iff]
  simp only [h]

/-! ### Reading a word -/

/-- What a reading says about the paths that spell the word: it lists their ends, and there are
none when it got stuck. -/
def Describes (a : Automaton) (w : Word) : Reading → Prop
  | .reached set => ∀ x, x ∈ set.order ↔ a.states.Path a.start w x
  | .stuck _ => ∀ x, ¬ a.states.Path a.start w x

/-- Reading on describes the longer word. A set that is empty stays empty, because a path that
spells the longer word spells every shorter one on the way. -/
theorem describes_readFrom {current : StateSet} {count : Nat} {u v : Word}
    (h : ∀ x, x ∈ current.order ↔ a.states.Path a.start u x) :
    a.Describes (u ++ v) (a.readFrom current count v) := by
  induction v generalizing current count u with
  | nil => rw [List.append_nil]; exact h
  | cons c v ih =>
    have hnext : ∀ x, x ∈ (a.step c current).order ↔ a.states.Path a.start (u ++ [c]) x :=
      fun x => mem_step_iff_path h
    rw [show u ++ c :: v = (u ++ [c]) ++ v by simp, readFrom]
    split
    · next hempty =>
      intro x hx
      obtain ⟨q, hq, _⟩ := Table.path_append_iff.mp hx
      have hnil : (a.step c current).order = [] := List.isEmpty_iff.mp hempty
      have := (hnext q).mpr hq
      rw [hnil] at this
      exact List.not_mem_nil this
    · exact ih hnext

theorem describes_read (a : Automaton) (w : Word) : a.Describes w (a.read w) :=
  describes_readFrom fun _ => mem_closure_start

/-- Reading on from a set that is not empty gets stuck at the first set that is. -/
theorem readFrom_eq_stuck {current : StateSet} {count stop : Nat} {u v : Word}
    (h : ∀ x, x ∈ current.order ↔ a.states.Path a.start u x)
    (hne : ∃ x, a.states.Path a.start u x) (hread : a.readFrom current count v = .stuck stop) :
    ∃ j ≤ v.length, stop = count + j ∧ (∀ x, ¬ a.states.Path a.start (u ++ v.take j) x) ∧
      ∀ i < j, ∃ x, a.states.Path a.start (u ++ v.take i) x := by
  induction v generalizing current count u with
  | nil => cases hread
  | cons c v ih =>
    have hnext : ∀ x, x ∈ (a.step c current).order ↔ a.states.Path a.start (u ++ [c]) x :=
      fun x => mem_step_iff_path h
    rw [readFrom] at hread
    split at hread
    · next hempty =>
      cases hread
      refine ⟨1, by simp, rfl, fun x hx => ?_, fun i hi => ?_⟩
      · have hmem := (hnext x).mpr hx
        rw [List.isEmpty_iff.mp hempty] at hmem
        exact List.not_mem_nil hmem
      · obtain rfl : i = 0 := by omega
        rwa [List.take_zero, List.append_nil]
    · next hnonempty =>
      obtain ⟨x, hx⟩ := List.exists_mem_of_ne_nil _ (mt List.isEmpty_iff.mpr hnonempty)
      obtain ⟨j, hj, rfl, hno, hsome⟩ := ih hnext ⟨x, (hnext x).mp hx⟩ hread
      have htake : ∀ i, u ++ (c :: v).take (i + 1) = (u ++ [c]) ++ v.take i := by simp
      refine ⟨j + 1, by simpa using hj, by omega, ?_, fun i hi => ?_⟩
      · rwa [htake]
      · cases i with
        | zero => rwa [List.take_zero, List.append_nil]
        | succ i =>
          rw [htake]
          exact hsome i (by omega)

/-- Reading on from a set that is not empty ends in one that is not empty, unless it gets stuck. -/
theorem ne_nil_of_readFrom_eq_reached {current set : StateSet} {count : Nat}
    (h : current.order ≠ []) (hread : a.readFrom current count w = .reached set) :
    set.order ≠ [] := by
  induction w generalizing current count with
  | nil =>
    cases hread
    exact h
  | cons c w ih =>
    rw [readFrom] at hread
    split at hread
    · cases hread
    · next hnonempty => exact ih (mt List.isEmpty_iff.mpr hnonempty) hread

/-- **Getting stuck.** Reading stops after the shortest beginning of the word that no path
spells. -/
theorem read_eq_stuck_iff {count : Nat} :
    a.read w = .stuck count ↔ count ≤ w.length ∧
      (∀ x, ¬ a.states.Path a.start (w.take count) x) ∧
      ∀ shorter < count, ∃ x, a.states.Path a.start (w.take shorter) x := by
  have hstart : ∀ x, x ∈ (a.closure [a.start]).order ↔ a.states.Path a.start [] x :=
    fun x => mem_closure_start
  have hstuck : ∀ {stop}, a.read w = .stuck stop → stop ≤ w.length ∧
      (∀ x, ¬ a.states.Path a.start (w.take stop) x) ∧
      ∀ shorter < stop, ∃ x, a.states.Path a.start (w.take shorter) x := by
    intro stop hread
    obtain ⟨j, hj, rfl, hno, hsome⟩ := readFrom_eq_stuck hstart ⟨a.start, .nil _⟩ hread
    rw [Nat.zero_add]
    exact ⟨hj, hno, hsome⟩
  refine ⟨hstuck, fun ⟨_, hno, hsome⟩ => ?_⟩
  cases hread : a.read w with
  | reached set =>
    -- a path that spells the word spells its beginnings on the way
    have hne := List.ne_nil_of_mem ((hstart a.start).mpr (.nil _))
    obtain ⟨x, hx⟩ := List.exists_mem_of_ne_nil _ (ne_nil_of_readFrom_eq_reached hne hread)
    have hpath := a.describes_read w
    rw [hread] at hpath
    have hwhole := (hpath x).mp hx
    rw [← List.take_append_drop count w] at hwhole
    obtain ⟨q, hq, _⟩ := Table.path_append_iff.mp hwhole
    exact absurd hq (hno q)
  | stuck stop =>
    obtain ⟨_, hno', hsome'⟩ := hstuck hread
    rcases Nat.lt_trichotomy count stop with hlt | rfl | hlt
    · obtain ⟨x, hx⟩ := hsome' count hlt
      exact absurd hx (hno x)
    · rfl
    · obtain ⟨x, hx⟩ := hsome stop hlt
      exact absurd hx (hno' x)

end Automaton

/-- **Acceptance.** A word is accepted iff some path from the start spells it and ends in an
accepting state. -/
theorem Nfa.accepts_iff {n : Nfa} {w : Word} :
    n.accepts w = true ↔
      ∃ s ∈ n.states.toList, s.accepting = true ∧ n.states.Path n.start w s.id := by
  have hstates : ∀ x s, n.state? x = some s ↔ s ∈ n.states.toList ∧ s.id = x := fun _ _ =>
    Table.get?_eq_some_iff
  rw [accepts]
  split
  · next hempty =>
    simp [List.isEmpty_iff.mp hempty]
  · have hread := n.describes_read w
    split
    · next set heq =>
      rw [heq] at hread
      rw [Automaton.anyAccepting_iff]
      simp only [hstates]
      constructor
      · rintro ⟨_, hx, s, ⟨hs, rfl⟩, hacc⟩
        exact ⟨s, hs, hacc, (hread s.id).mp hx⟩
      · rintro ⟨s, hs, hacc, hp⟩
        exact ⟨s.id, (hread s.id).mpr hp, s, ⟨hs, rfl⟩, hacc⟩
    · next count heq =>
      rw [heq] at hread
      refine iff_of_false (by simp) ?_
      rintro ⟨s, _, _, hp⟩
      exact hread s.id hp

end PostfixRegex
