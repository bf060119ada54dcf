import PostfixRegex.Automaton
import PostfixRegex.Fragment
import PostfixRegex.Proofs.Table

/-!
# The shape of a fragment

What `Fragment.Shape` says of a fragment is what its makers rely on: the last state accepts and has
no transitions yet, every other state rejects and branches in one of two ways, and transitions stay
inside the fragment and never lead back to the start. Each maker is given operands of this shape and
identifiers that are free, and returns a fragment of this shape; so none of the checks on the way
fails.

A maker changes an operand in one place only. `Fragment.leaving` is that change on a single state,
and the states of every result are listed in terms of it (`Fragment.Consists`).

## Main definitions

* `State.Branches` — one move on a character, or one or two moves on epsilon
* `Fragment.Shape` — the invariant
* `Fragment.Consists` — start, last state and list of states of a fragment

## Main results

* `Fragment.atom_ok`, `Fragment.concatenate_ok`, `Fragment.star_ok`, `Fragment.union_ok` — each
  maker succeeds, with the states of its result
* `Fragment.shapeOf_atomStates`, `Fragment.shapeOf_concatenateStates`,
  `Fragment.shapeOf_starStates`, `Fragment.shapeOf_unionStates` — those states have the shape again
-/

namespace PostfixRegex

/-- A state on the way through a fragment: it moves on one character to one state, or on epsilon to
one or two states. -/
def State.Branches (s : State) : Prop :=
  (∃ c p, s.transitions = [⟨.char c, p⟩]) ∨
    (∃ p, s.transitions = [⟨.epsilon, p⟩]) ∨
      ∃ p q, p ≠ q ∧ s.transitions = [⟨.epsilon, p⟩, ⟨.epsilon, q⟩]

theorem State.Branches.exists_mem {s : State} (h : s.Branches) : ∃ t, t ∈ s.transitions := by
  rcases h with ⟨c, p, h⟩ | ⟨p, h⟩ | ⟨p, q, _, h⟩
  all_goals
    rw [h]
    exact ⟨_, List.mem_cons_self⟩

namespace Fragment

/-- The shape of states with one way in, `start`, and one way out, `last`. -/
structure ShapeOf (start last : Nat) (states : List State) : Prop where
  start_mem : start ∈ states.map State.id
  last_mem : last ∈ states.map State.id
  start_ne_last : start ≠ last
  /-- The last state accepts and is not left yet. -/
  eq_last : ∀ s ∈ states, s.id = last → s.accepting = true ∧ s.transitions = []
  /-- Every other state is on the way to it. -/
  inner : ∀ s ∈ states, s.id ≠ last → s.accepting = false ∧ s.Branches
  /-- Transitions stay inside, and lead neither to the start nor to where they come from. -/
  target_mem : ∀ s ∈ states, ∀ t ∈ s.transitions,
    t.target ∈ states.map State.id ∧ t.target ≠ start ∧ t.target ≠ s.id

/-- **The invariant of a fragment.** -/
def Shape (f : Fragment) : Prop := ShapeOf f.start f.last f.states.toList

/-- The start, the last state and the states of a fragment, the latter in any order. -/
structure Consists (f : Fragment) (start last : Nat) (states : List State) : Prop where
  start_eq : f.start = start
  last_eq : f.last = last
  perm : f.states.toList.Perm states

theorem ShapeOf.perm {start last : Nat} {xs ys : List State} (h : ShapeOf start last ys)
    (hp : xs.Perm ys) : ShapeOf start last xs where
  start_mem := (hp.map State.id).mem_iff.mpr h.start_mem
  last_mem := (hp.map State.id).mem_iff.mpr h.last_mem
  start_ne_last := h.start_ne_last
  eq_last s hs := h.eq_last s (hp.mem_iff.mp hs)
  inner s hs := h.inner s (hp.mem_iff.mp hs)
  target_mem s hs t ht := by
    obtain ⟨hmem, hne⟩ := h.target_mem s (hp.mem_iff.mp hs) t ht
    exact ⟨(hp.map State.id).mem_iff.mpr hmem, hne⟩

theorem Shape.isEmpty_eq_false {f : Fragment} (h : f.Shape) : f.states.isEmpty = false := by
  obtain ⟨s, hs, _⟩ := List.mem_map.mp h.start_mem
  exact List.isEmpty_eq_false_iff.mpr (List.ne_nil_of_mem hs)

theorem Shape.accepting_iff {f : Fragment} (h : f.Shape) {s : State} (hs : s ∈ f.states.toList) :
    s.accepting = true ↔ s.id = f.last := by
  constructor
  · intro hacc
    by_contra hid
    rw [(h.inner s hs hid).1] at hacc
    cases hacc
  · intro hid
    exact (h.eq_last s hs hid).1

/-- Only the last state is a trap: every other state leads somewhere else. -/
theorem Shape.isTrap_iff {f : Fragment} (h : f.Shape) {s : State} (hs : s ∈ f.states.toList) :
    s.isTrap = true ↔ s.id = f.last := by
  rw [State.isTrap, List.all_eq_true]
  constructor
  · intro htrap
    by_contra hid
    obtain ⟨t, ht⟩ := (h.inner s hs hid).2.exists_mem
    exact (h.target_mem s hs t ht).2.2 (of_decide_eq_true (htrap t ht))
  · intro hid t ht
    rw [(h.eq_last s hs hid).2] at ht
    exact absurd ht List.not_mem_nil

/-- In the automaton of a fragment the accepting states and the trap states are the same single
state. -/
theorem Shape.accepting_eq_traps {f : Fragment} (h : f.Shape) {alphabet : Alphabet} {a : Automaton}
    (ha : a = ⟨f.start, f.states, alphabet⟩) : ∃ s, a.accepting = [s] ∧ a.traps = [s] := by
  obtain ⟨s, hs, hid⟩ := List.mem_map.mp h.last_mem
  have honly : ∀ p : State → Bool, (∀ x ∈ f.states.toList, p x = true ↔ x.id = f.last) →
      f.states.toList.filter p = [s] := by
    intro p hp
    rw [← Table.filter_id_eq hs, hid]
    refine List.filter_congr fun x hx => ?_
    rw [Bool.eq_iff_iff, hp x hx, decide_eq_true_iff]
  subst ha
  exact ⟨s, honly _ fun x hx => h.accepting_iff hx, honly _ fun x hx => h.isTrap_iff hx⟩

/-- The only accepting state is the last one, and it has no transitions. -/
theorem Shape.exists_accepting {f : Fragment} (h : f.Shape) {alphabet : Alphabet} {a : Automaton}
    (ha : a = ⟨f.start, f.states, alphabet⟩) :
    ∃ s, a.accepting = [s] ∧ s.id = f.last ∧ s.transitions = [] := by
  obtain ⟨s, haccepting, _⟩ := h.accepting_eq_traps ha
  have hmem : s ∈ a.accepting := haccepting ▸ List.mem_singleton_self s
  obtain ⟨hmem, haccepts⟩ := List.mem_filter.mp hmem
  rw [ha] at hmem
  have hid := (h.accepting_iff hmem).mp haccepts
  exact ⟨s, haccepting, hid, (h.eq_last s hmem hid).2⟩

theorem Consists.shape {f : Fragment} {start last : Nat} {states : List State}
    (h : f.Consists start last states) (hs : ShapeOf start last states) : f.Shape := by
  rw [Shape, h.start_eq, h.last_eq]
  exact hs.perm h.perm

theorem Consists.mem_ids {f : Fragment} {start last x : Nat} {states : List State}
    (h : f.Consists start last states) : x ∈ f.states.ids ↔ x ∈ states.map State.id :=
  (Table.perm_ids h.perm).mem_iff

/-! ### Leaving the last state -/

/-- A state after its fragment was left towards `targets`: only the last state changes. -/
def leaving (last : Nat) (targets : List Nat) (s : State) : State :=
  if s.id = last then s.leaveTo targets else s

@[simp] theorem id_leaving (last : Nat) (targets : List Nat) (s : State) :
    (leaving last targets s).id = s.id := by
  rw [leaving]
  split <;> rfl

@[simp] theorem map_id_leaving (last : Nat) (targets : List Nat) (states : List State) :
    (states.map (leaving last targets)).map State.id = states.map State.id := by
  simp [List.map_map, Function.comp_def]

/-- Where the last state is not among the states, none of them changes. -/
theorem map_leaving_of_notMem {last : Nat} {states : List State} (h : last ∉ states.map State.id)
    (targets : List Nat) : states.map (leaving last targets) = states := by
  refine (List.map_congr_left fun s hs => ?_).trans (List.map_id states)
  exact if_neg fun hid : s.id = last => h (hid ▸ List.mem_map_of_mem hs)

/-- Leaving a fragment of the right shape succeeds and changes its last state. -/
theorem leaveLast_ok {f : Fragment} (h : f.Shape) (targets : List Nat) :
    ∃ t, f.leaveLast targets = .ok { f with states := t } ∧
      t.toList = f.states.toList.map (leaving f.last targets) ∧ t.ids = f.states.ids := by
  have hlast : f.states.contains f.last = true := Table.contains_iff.mpr h.last_mem
  rw [leaveLast, if_pos hlast]
  exact ⟨_, rfl, rfl, Table.ids_modify _ _ _ _⟩

/-- The two ways in which a fragment is left. -/
inductive Exits : List Nat → Prop where
  | one (p : Nat) : Exits [p]
  | two {p q : Nat} : p ≠ q → Exits [p, q]

/-- What a state of a fragment looks like after the fragment was left: it rejects and branches, and
only the old last state has new transitions. -/
structure LeftState (start last : Nat) (targets : List Nat) (states : List State) (s : State) :
    Prop where
  id_mem : s.id ∈ states.map State.id
  rejects : s.accepting = false
  branches : s.Branches
  target_cases : ∀ t ∈ s.transitions,
    (t.target ∈ states.map State.id ∧ t.target ≠ start ∧ t.target ≠ s.id) ∨
      (s.id = last ∧ t.target ∈ targets)

theorem ShapeOf.leaving {start last : Nat} {states : List State} {targets : List Nat}
    (h : ShapeOf start last states) (hexits : Exits targets) {s : State}
    (hs : s ∈ states.map (leaving last targets)) : LeftState start last targets states s := by
  obtain ⟨q, hq, rfl⟩ := List.mem_map.mp hs
  have hmem : q.id ∈ states.map State.id := List.mem_map_of_mem hq
  by_cases hid : q.id = last
  · obtain ⟨_, hnil⟩ := h.eq_last q hq hid
    have htransitions : (q.leaveTo targets).transitions = targets.map (⟨.epsilon, ·⟩) := by
      rw [State.leaveTo, hnil, List.nil_append]
    rw [show Fragment.leaving last targets q = q.leaveTo targets from if_pos hid]
    refine ⟨hmem, rfl, ?_, fun t ht => ?_⟩
    · rw [State.Branches, htransitions]
      cases hexits with
      | one p => exact .inr (.inl ⟨p, rfl⟩)
      | two hne => exact .inr (.inr ⟨_, _, hne, rfl⟩)
    · rw [htransitions] at ht
      obtain ⟨p, hp, rfl⟩ := List.mem_map.mp ht
      exact .inr ⟨hid, hp⟩
  · obtain ⟨hrejects, hbranches⟩ := h.inner q hq hid
    rw [show Fragment.leaving last targets q = q from if_neg hid]
    exact ⟨hmem, hrejects, hbranches, fun t ht => .inl (h.target_mem q hq t ht)⟩

/-- The check at the end of a maker passes when the last state accepts. -/
theorem checked_ok {f : Fragment} (h : f.Shape) : f.checked = .ok f := by
  obtain ⟨s, hs, hid⟩ := List.mem_map.mp h.last_mem
  have hget : f.states.get? f.last = some s := Table.get?_eq_some_iff.mpr ⟨hs, hid⟩
  have hacc : (f.states.get? f.last).any State.accepting = true := by
    rw [hget]
    exact (h.eq_last s hs hid).1
  rw [checked, if_pos hacc]

/-! ### The states of the results -/

/-- The two states around a character. -/
def atomStates (c : Char) (first second : Nat) : List State :=
  [⟨second, true, []⟩, ⟨first, false, [⟨.char c, second⟩]⟩]

/-- The states of two fragments one after the other: the left one is left to the start of the right
one. -/
def concatenateStates (left right : Fragment) : List State :=
  left.states.toList.map (leaving left.last [right.start]) ++ right.states.toList

/-- A body between two new states, of which the first one moves on epsilon to `p` and to `q`. -/
def wrap (start last p q : Nat) (body : List State) : List State :=
  ⟨last, true, []⟩ :: ⟨start, false, [⟨.epsilon, p⟩, ⟨.epsilon, q⟩]⟩ :: body

/-- The states of a repetition: the old last state goes to the new one or back to the old start. -/
def starStates (inner : Fragment) (start last : Nat) : List State :=
  wrap start last last inner.start
    (inner.states.toList.map (leaving inner.last [last, inner.start]))

/-- The states of a union: both fragments are left to the new last state. -/
def unionStates (left right : Fragment) (start last : Nat) : List State :=
  wrap start last left.start right.start
    (left.states.toList.map (leaving left.last [last]) ++
      right.states.toList.map (leaving right.last [last]))

variable {left right inner : Fragment} {start last : Nat}

theorem map_id_wrap (p q : Nat) (body : List State) :
    (wrap start last p q body).map State.id = last :: start :: body.map State.id := rfl

theorem map_id_concatenateStates (left right : Fragment) :
    (concatenateStates left right).map State.id = left.states.ids ++ right.states.ids := by
  rw [concatenateStates, List.map_append, map_id_leaving]
  rfl

theorem map_id_starStates (inner : Fragment) (start last : Nat) :
    (starStates inner start last).map State.id = last :: start :: inner.states.ids := by
  rw [starStates, map_id_wrap, map_id_leaving]
  rfl

theorem map_id_unionStates (left right : Fragment) (start last : Nat) :
    (unionStates left right start last).map State.id =
      last :: start :: (left.states.ids ++ right.states.ids) := by
  rw [unionStates, map_id_wrap, List.map_append, map_id_leaving, map_id_leaving]
  rfl

theorem shapeOf_atomStates (c : Char) {first second : Nat} (hne : first ≠ second) :
    ShapeOf first second (atomStates c first second) where
  start_mem := by simp [atomStates]
  last_mem := by simp [atomStates]
  start_ne_last := hne
  eq_last := by simp [atomStates, hne]
  inner := by
    intro s hs hid
    simp only [atomStates, List.mem_cons, List.not_mem_nil, or_false] at hs
    rcases hs with rfl | rfl
    · exact absurd rfl hid
    · exact ⟨rfl, .inl ⟨c, second, rfl⟩⟩
  target_mem := by simp [atomStates, hne.symm]

theorem shapeOf_concatenateStates (hl : left.Shape) (hr : right.Shape)
    (hd : ∀ id ∈ left.states.ids, id ∉ right.states.ids) :
    ShapeOf left.start right.last (concatenateStates left right) := by
  have hids := map_id_concatenateStates left right
  refine ⟨?_, ?_, fun heq => ?_, fun s hs hid => ?_, fun s hs hid => ?_, fun s hs t ht => ?_⟩
  · rw [hids]
    exact List.mem_append_left _ hl.start_mem
  · rw [hids]
    exact List.mem_append_right _ hr.last_mem
  · exact hd _ hl.start_mem (heq ▸ hr.last_mem)
  · rcases List.mem_append.mp hs with hs | hs
    · have hleft := ShapeOf.leaving hl (.one right.start) hs
      exact absurd hr.last_mem (hd _ (hid ▸ hleft.id_mem))
    · exact hr.eq_last s hs hid
  · rcases List.mem_append.mp hs with hs | hs
    · have hleft := ShapeOf.leaving hl (.one right.start) hs
      exact ⟨hleft.rejects, hleft.branches⟩
    · exact hr.inner s hs hid
  · rw [hids]
    rcases List.mem_append.mp hs with hs | hs
    · have hleft := ShapeOf.leaving hl (.one right.start) hs
      rcases hleft.target_cases t ht with ⟨hmem, hne⟩ | ⟨_, htarget⟩
      · exact ⟨List.mem_append_left _ hmem, hne⟩
      · -- the way over: the start of the right fragment is no state of the left one
        rw [List.mem_singleton.mp htarget]
        refine ⟨List.mem_append_right _ hr.start_mem, fun heq => ?_, fun heq => ?_⟩
        · exact hd _ hl.start_mem (heq ▸ hr.start_mem)
        · exact hd _ hleft.id_mem (heq ▸ hr.start_mem)
    · obtain ⟨hmem, _, hself⟩ := hr.target_mem s hs t ht
      refine ⟨List.mem_append_right _ hmem, fun heq => ?_, hself⟩
      exact hd _ hl.start_mem (heq ▸ hmem)

/-- Two new states give a body the shape of a fragment, if all its states reject and branch and
its transitions lead to other states of the body or to the new last state. -/
theorem shapeOf_wrap {p q : Nat} {body : List State} (hne : start ≠ last)
    (hstart : start ∉ body.map State.id) (hlast : last ∉ body.map State.id)
    (hp : p ∈ last :: body.map State.id) (hq : q ∈ last :: body.map State.id) (hpq : p ≠ q)
    (hinner : ∀ s ∈ body, s.accepting = false ∧ s.Branches)
    (htarget : ∀ s ∈ body, ∀ t ∈ s.transitions,
      t.target ∈ last :: body.map State.id ∧ t.target ≠ s.id) :
    ShapeOf start last (wrap start last p q body) := by
  have hids : (wrap start last p q body).map State.id = last :: start :: body.map State.id :=
    map_id_wrap p q body
  have hweaken : ∀ id ∈ last :: body.map State.id,
      id ∈ (wrap start last p q body).map State.id ∧ id ≠ start := by
    intro id hid
    rw [hids]
    rcases List.mem_cons.mp hid with rfl | hid
    · exact ⟨List.mem_cons_self, hne.symm⟩
    · refine ⟨List.mem_cons_of_mem _ (List.mem_cons_of_mem _ hid), fun heq => ?_⟩
      exact hstart (heq ▸ hid)
  refine ⟨by simp [hids], by simp [hids], hne, fun s hs hid => ?_, fun s hs hid => ?_,
    fun s hs t ht => ?_⟩
  · simp only [wrap, List.mem_cons] at hs
    rcases hs with rfl | rfl | hs
    · exact ⟨rfl, rfl⟩
    · exact absurd hid hne
    · exact absurd (List.mem_map_of_mem hs) (hid ▸ hlast)
  · simp only [wrap, List.mem_cons] at hs
    rcases hs with rfl | rfl | hs
    · exact absurd rfl hid
    · exact ⟨rfl, .inr (.inr ⟨p, q, hpq, rfl⟩)⟩
    · exact hinner s hs
  · simp only [wrap, List.mem_cons] at hs
    rcases hs with rfl | rfl | hs
    · exact absurd ht List.not_mem_nil
    · simp only [List.mem_cons, List.not_mem_nil, or_false] at ht
      rcases ht with rfl | rfl
      · exact ⟨(hweaken p hp).1, (hweaken p hp).2, (hweaken p hp).2⟩
      · exact ⟨(hweaken q hq).1, (hweaken q hq).2, (hweaken q hq).2⟩
    · obtain ⟨hmem, hself⟩ := htarget s hs t ht
      exact ⟨(hweaken _ hmem).1, (hweaken _ hmem).2, hself⟩

theorem shapeOf_starStates (h : inner.Shape) (hne : start ≠ last)
    (hstart : start ∉ inner.states.ids) (hlast : last ∉ inner.states.ids) :
    ShapeOf start last (starStates inner start last) := by
  have hlast_ne : last ≠ inner.start := fun heq => hlast (heq ▸ h.start_mem)
  rw [Table.ids] at hstart hlast
  refine shapeOf_wrap hne (by simpa using hstart) (by simpa using hlast) List.mem_cons_self ?_
    hlast_ne (fun s hs => ?_) (fun s hs t ht => ?_)
  · rw [map_id_leaving]
    exact List.mem_cons_of_mem _ h.start_mem
  · have hleft := ShapeOf.leaving h (.two hlast_ne) hs
    exact ⟨hleft.rejects, hleft.branches⟩
  · have hleft := ShapeOf.leaving h (.two hlast_ne) hs
    rw [map_id_leaving]
    rcases hleft.target_cases t ht with ⟨hmem, _, hself⟩ | ⟨hid, htarget⟩
    · exact ⟨List.mem_cons_of_mem _ hmem, hself⟩
    · simp only [List.mem_cons, List.not_mem_nil, or_false] at htarget
      rcases htarget with htarget | htarget
      · rw [htarget]
        exact ⟨List.mem_cons_self, fun heq => hlast (heq ▸ hleft.id_mem)⟩
      · rw [htarget, hid]
        exact ⟨List.mem_cons_of_mem _ h.start_mem, h.start_ne_last⟩

theorem shapeOf_unionStates (hl : left.Shape) (hr : right.Shape) (hne : start ≠ last)
    (hd : ∀ id ∈ left.states.ids, id ∉ right.states.ids)
    (hstart : start ∉ left.states.ids ++ right.states.ids)
    (hlast : last ∉ left.states.ids ++ right.states.ids) :
    ShapeOf start last (unionStates left right start last) := by
  have hids : (left.states.toList.map (leaving left.last [last]) ++
      right.states.toList.map (leaving right.last [last])).map State.id =
      left.states.ids ++ right.states.ids := by
    rw [List.map_append, map_id_leaving, map_id_leaving]
    rfl
  refine shapeOf_wrap hne (hids ▸ hstart) (hids ▸ hlast) ?_ ?_ ?_ (fun s hs => ?_)
    (fun s hs t ht => ?_)
  · rw [hids]
    exact List.mem_cons_of_mem _ (List.mem_append_left _ hl.start_mem)
  · rw [hids]
    exact List.mem_cons_of_mem _ (List.mem_append_right _ hr.start_mem)
  · intro heq
    exact hd _ hl.start_mem (heq ▸ hr.start_mem)
  · rcases List.mem_append.mp hs with hs | hs
    · have hleft := ShapeOf.leaving hl (.one last) hs
      exact ⟨hleft.rejects, hleft.branches⟩
    · have hright := ShapeOf.leaving hr (.one last) hs
      exact ⟨hright.rejects, hright.branches⟩
  · rw [hids]
    rcases List.mem_append.mp hs with hs | hs
    · have hleft := ShapeOf.leaving hl (.one last) hs
      rcases hleft.target_cases t ht with ⟨hmem, _, hself⟩ | ⟨_, htarget⟩
      · exact ⟨List.mem_cons_of_mem _ (List.mem_append_left _ hmem), hself⟩
      · rw [List.mem_singleton.mp htarget]
        refine ⟨List.mem_cons_self, fun heq => hlast ?_⟩
        exact List.mem_append_left _ (heq ▸ hleft.id_mem)
    · have hright := ShapeOf.leaving hr (.one last) hs
      rcases hright.target_cases t ht with ⟨hmem, _, hself⟩ | ⟨_, htarget⟩
      · exact ⟨List.mem_cons_of_mem _ (List.mem_append_right _ hmem), hself⟩
      · rw [List.mem_singleton.mp htarget]
        refine ⟨List.mem_cons_self, fun heq => hlast ?_⟩
        exact List.mem_append_right _ (heq ▸ hright.id_mem)

/-! ### The makers -/

theorem atom_ok (c : Char) {first second : Nat} (hne : first ≠ second) :
    ∃ f, atom c first second = .ok f ∧ f.Consists first second (atomStates c first second) := by
  obtain ⟨t, ht, hpt⟩ := Table.insert_ok (t := .empty)
    (s := { id := first, transitions := [⟨.char c, second⟩] }) List.not_mem_nil
  have hfree : second ∉ t.ids := by
    rw [(Table.perm_ids hpt).mem_iff]
    simpa [Table.empty] using hne.symm
  obtain ⟨t', ht', hpt'⟩ := Table.insert_ok (s := { id := second, accepting := true }) hfree
  refine ⟨⟨t', first, second⟩, ?_, rfl, rfl, hpt'.trans (hpt.cons _)⟩
  simp only [atom, Table.ofList, List.foldlM_cons, List.foldlM_nil, ht, ht', Checked.ok_bind,
    Checked.pure_eq]

/-- A fragment with known states passes the final check if they have the right shape. -/
theorem checked_consists {f : Fragment} {states : List State} (h : f.Consists start last states)
    (hs : ShapeOf start last states) :
    ∃ g, f.checked = .ok g ∧ g.Consists start last states :=
  ⟨f, checked_ok (h.shape hs), h⟩

theorem concatenate_ok (hl : left.Shape) (hr : right.Shape)
    (hd : ∀ id ∈ left.states.ids, id ∉ right.states.ids) :
    ∃ f, left.concatenate right = .ok f ∧
      f.Consists left.start right.last (concatenateStates left right) := by
  obtain ⟨t, ht, hstates, hids⟩ := leaveLast_ok hl [right.start]
  obtain ⟨t', ht', hp⟩ := Table.append_ok (a := t) (b := right.states) (hids ▸ hd)
  rw [concatenate, ht, Checked.ok_bind, ht', Checked.ok_bind]
  rw [hstates] at hp
  exact checked_consists ⟨rfl, rfl, hp⟩ (shapeOf_concatenateStates hl hr hd)

theorem star_ok (h : inner.Shape) (hne : start ≠ last) (hstart : start ∉ inner.states.ids)
    (hlast : last ∉ inner.states.ids) :
    ∃ f, inner.star start last = .ok f ∧
      f.Consists start last (starStates inner start last) := by
  obtain ⟨t, ht, hstates, hids⟩ := leaveLast_ok h [last, inner.start]
  obtain ⟨t₁, ht₁, hp₁⟩ := Table.insert_ok (t := t)
    (s := { id := start, transitions := [⟨.epsilon, last⟩, ⟨.epsilon, inner.start⟩] })
    (hids ▸ hstart)
  have hfree : last ∉ t₁.ids := by
    rw [(Table.perm_ids hp₁).mem_iff, List.map_cons, List.mem_cons, not_or, ← Table.ids, hids]
    exact ⟨hne.symm, hlast⟩
  obtain ⟨t₂, ht₂, hp₂⟩ := Table.insert_ok (s := { id := last, accepting := true }) hfree
  rw [star, ht, Checked.ok_bind, ht₁, Checked.ok_bind, ht₂, Checked.ok_bind]
  rw [hstates] at hp₁
  exact checked_consists ⟨rfl, rfl, hp₂.trans (hp₁.cons _)⟩ (shapeOf_starStates h hne hstart hlast)

theorem union_ok (hl : left.Shape) (hr : right.Shape) (hne : start ≠ last)
    (hd : ∀ id ∈ left.states.ids, id ∉ right.states.ids)
    (hstart : start ∉ left.states.ids ++ right.states.ids)
    (hlast : last ∉ left.states.ids ++ right.states.ids) :
    ∃ f, left.union right start last = .ok f ∧
      f.Consists start last (unionStates left right start last) := by
  obtain ⟨tl, htl, hstatesl, hidsl⟩ := leaveLast_ok hl [last]
  obtain ⟨tr, htr, hstatesr, hidsr⟩ := leaveLast_ok hr [last]
  obtain ⟨t, ht, hp⟩ := Table.append_ok (a := tl) (b := tr) (by rwa [hidsl, hidsr])
  have hids : t.ids.Perm (left.states.ids ++ right.states.ids) := by
    have := Table.perm_ids hp
    rwa [List.map_append, ← Table.ids, ← Table.ids, hidsl, hidsr] at this
  obtain ⟨t₁, ht₁, hp₁⟩ := Table.insert_ok (t := t)
    (s := { id := start, transitions := [⟨.epsilon, left.start⟩, ⟨.epsilon, right.start⟩] })
    (fun hmem => hstart (hids.mem_iff.mp hmem))
  have hfree : last ∉ t₁.ids := by
    rw [(Table.perm_ids hp₁).mem_iff, List.map_cons, List.mem_cons, not_or]
    exact ⟨hne.symm, fun hmem => hlast (hids.mem_iff.mp hmem)⟩
  obtain ⟨t₂, ht₂, hp₂⟩ := Table.insert_ok (s := { id := last, accepting := true }) hfree
  rw [union, htl, Checked.ok_bind, htr, Checked.ok_bind, ht, Checked.ok_bind, ht₁, Checked.ok_bind,
    ht₂, Checked.ok_bind]
  rw [hstatesl, hstatesr] at hp
  exact checked_consists ⟨rfl, rfl, hp₂.trans ((hp₁.trans (hp.cons _)).cons _)⟩
    (shapeOf_unionStates hl hr hne hd hstart hlast)

end Fragment

end PostfixRegex
