import Mathlib.Data.List.Nodup
import PostfixRegex.Builder
import PostfixRegex.Proofs.Fragment.Shape

/-!
# Every identifier has one owner

A builder whose supply stood at `first` when it was created has taken the identifiers from `first`
up to the next one, and each of them belongs to one fragment on the stack. That is
`Builder.Sound`, together with the shape of the fragments.

The invariant is what the makers of fragments ask for. Two fragments on the stack share no
identifier, so they can be merged, and an identifier that comes from the supply belongs to none of
them, so a state can be inserted under it. Each operation is therefore sure to succeed once the
stack is high enough, and it gives its result the identifiers of its operands and the new ones.

## Main definitions

* `Builder.Sound` — the invariant

## Main results

* `Builder.Sound.exists_owner_iff`, `Builder.Sound.pairwise_disjoint` — who owns what
* `Builder.Sound.atom`, `Builder.Sound.concatenate`, `Builder.Sound.star`, `Builder.Sound.union` —
  each operation succeeds and keeps the invariant
* `Builder.Sound.finish` — so does the last one
-/

namespace PostfixRegex

namespace Builder

open Fragment (atomStates concatenateStates starStates unionStates)

open scoped List

/-- The identifiers of some fragments. -/
def idsOf (fragments : List Fragment) : List Nat :=
  fragments.flatMap fun f => f.states.ids

theorem idsOf_cons (f : Fragment) (fragments : List Fragment) :
    idsOf (f :: fragments) = f.states.ids ++ idsOf fragments := rfl

theorem idsOf_append (fs gs : List Fragment) : idsOf (fs ++ gs) = idsOf fs ++ idsOf gs :=
  List.flatMap_append

/-- **The invariant of a builder** whose supply started at `first`. -/
structure Sound (first : Nat) (b : Builder) : Prop where
  first_le : first ≤ b.supply.next
  /-- Each identifier that was handed out belongs to one fragment. -/
  owned : (idsOf b.stack).Perm (List.range' first (b.supply.next - first))
  shape : ∀ f ∈ b.stack, f.Shape

variable {b : Builder} {first : Nat} {f left right inner : Fragment} {rest : List Fragment}

theorem sound_start (supply : Supply) : Sound supply.next { supply } where
  first_le := Nat.le_refl _
  owned := by
    rw [Nat.sub_self]
    exact .refl _
  shape := fun _ h => absurd h List.not_mem_nil

/-- A stack that is high enough for two operands holds two. -/
theorem exists_stack_of_two_le (h : 2 ≤ b.height) :
    ∃ right left rest, b.stack = right :: left :: rest := by
  match hstack : b.stack with
  | [] | [_] =>
    simp only [height, hstack, List.length_cons, List.length_nil] at h
    omega
  | right :: left :: rest => exact ⟨right, left, rest, rfl⟩

/-! ### What the invariant gives to a maker -/

/-- The two identifiers that an operation takes are different. -/
theorem next_ne_succ (b : Builder) : b.supply.next ≠ b.supply.next + 1 :=
  Nat.ne_of_lt (Nat.lt_succ_self _)

theorem Sound.shape_operands (h : b.Sound first) (hstack : b.stack = right :: left :: rest) :
    left.Shape ∧ right.Shape := by
  refine ⟨h.shape left ?_, h.shape right ?_⟩
  · rw [hstack]
    exact List.mem_cons_of_mem _ List.mem_cons_self
  · rw [hstack]
    exact List.mem_cons_self

/-- Somebody owns an identifier iff it was handed out. -/
theorem Sound.exists_owner_iff (h : b.Sound first) {id : Nat} :
    (∃ f ∈ b.stack, id ∈ f.states.ids) ↔ first ≤ id ∧ id < b.supply.next := by
  have hle := h.first_le
  have hmem : (∃ f ∈ b.stack, id ∈ f.states.ids) ↔ id ∈ idsOf b.stack := List.mem_flatMap.symm
  rw [hmem, h.owned.mem_iff, List.mem_range'_1]
  omega

/-- Nothing is owned twice. -/
theorem Sound.pairwise_disjoint (h : b.Sound first) :
    b.stack.Pairwise fun f g => f.states.ids.Disjoint g.states.ids := by
  have hnodup : (idsOf b.stack).Nodup :=
    h.owned.nodup_iff.mpr (List.nodup_range' (h := Nat.one_pos))
  exact (List.nodup_flatMap.mp hnodup).2

theorem Sound.lt_next (h : b.Sound first) (hf : f ∈ b.stack) {id : Nat} (hid : id ∈ f.states.ids) :
    id < b.supply.next :=
  (h.exists_owner_iff.mp ⟨f, hf, hid⟩).2

/-- What the supply has not handed out belongs to nobody. -/
theorem Sound.fresh (h : b.Sound first) (hf : f ∈ b.stack) {id : Nat} (hid : b.supply.next ≤ id) :
    id ∉ f.states.ids := by
  intro hmem
  have := h.lt_next hf hmem
  omega

/-- Two fragments on top of the stack share no identifier. -/
theorem Sound.disjoint (h : b.Sound first) (hstack : b.stack = right :: left :: rest) :
    ∀ id ∈ left.states.ids, id ∉ right.states.ids := by
  intro id hl hr
  have hpairwise := h.pairwise_disjoint
  rw [hstack, List.pairwise_cons] at hpairwise
  exact hpairwise.1 left List.mem_cons_self hr hl

theorem Sound.fresh_append (h : b.Sound first) (hstack : b.stack = right :: left :: rest) {id : Nat}
    (hid : b.supply.next ≤ id) : id ∉ left.states.ids ++ right.states.ids := by
  intro hmem
  rcases List.mem_append.mp hmem with hmem | hmem
  · exact h.fresh (hstack ▸ List.mem_cons_of_mem _ List.mem_cons_self) hid hmem
  · exact h.fresh (hstack ▸ List.mem_cons_self) hid hmem

/-- A fragment that owns what its operands owned and the next `n` identifiers may take their
place. -/
theorem Sound.replace (h : b.Sound first) (operands : List Fragment) (n : Nat)
    {alphabet : Alphabet} (hstack : b.stack = operands ++ rest) (hf : f.Shape)
    (hids : f.states.ids.Perm (List.range' b.supply.next n ++ idsOf operands)) :
    Sound first { supply := b.supply.skip n, stack := f :: rest, alphabet } where
  first_le := Nat.le_add_right_of_le h.first_le
  owned := by
    have hle := h.first_le
    have hsplit : idsOf b.stack = idsOf operands ++ idsOf rest := by
      rw [hstack, idsOf_append]
    have hrange : List.range' first (b.supply.next - first) ++ List.range' b.supply.next n =
        List.range' first (b.supply.next + n - first) := by
      rw [show b.supply.next + n - first = (b.supply.next - first) + n by omega,
        ← List.range'_append_1, show first + (b.supply.next - first) = b.supply.next by omega]
    calc f.states.ids ++ idsOf rest
      _ ~ (List.range' b.supply.next n ++ idsOf operands) ++ idsOf rest := hids.append_right _
      _ = List.range' b.supply.next n ++ idsOf b.stack := by rw [hsplit, List.append_assoc]
      _ ~ List.range' b.supply.next n ++ List.range' first (b.supply.next - first) :=
        h.owned.append_left _
      _ ~ List.range' first (b.supply.next - first) ++ List.range' b.supply.next n :=
        List.perm_append_comm
      _ = List.range' first (b.supply.next + n - first) := hrange
  shape := by
    intro g hg
    rcases List.mem_cons.mp hg with rfl | hg
    · exact hf
    · refine h.shape g ?_
      rw [hstack]
      exact List.mem_append_right _ hg

/-! ### The operations -/

theorem Sound.atom (h : b.Sound first) (c : Char) :
    ∃ f, b.atom c =
        .ok { supply := b.supply.skip 2, stack := f :: b.stack, alphabet := b.alphabet.insert c } ∧
      Sound first
        { supply := b.supply.skip 2, stack := f :: b.stack, alphabet := b.alphabet.insert c } ∧
      f.Consists b.supply.next (b.supply.next + 1)
        (atomStates c b.supply.next (b.supply.next + 1)) := by
  have hne := b.next_ne_succ
  obtain ⟨f, hok, hf⟩ := Fragment.atom_ok c hne
  refine ⟨f, ?_, ?_, hf⟩
  · simp only [Builder.atom, Supply.fresh, hok, Checked.ok_bind, Checked.pure_eq]
    rfl
  · refine h.replace [] 2 rfl (hf.shape (Fragment.shapeOf_atomStates c hne)) ?_
    refine (Table.perm_ids hf.perm).trans ?_
    exact .swap _ _ _

theorem Sound.concatenate (h : b.Sound first) (hstack : b.stack = right :: left :: rest) :
    ∃ f, b.concatenate = .ok (.ok { b with stack := f :: rest }) ∧
      Sound first { b with stack := f :: rest } ∧
      f.Consists left.start right.last (concatenateStates left right) := by
  obtain ⟨hl, hr⟩ := h.shape_operands hstack
  have hd := h.disjoint hstack
  obtain ⟨f, hok, hf⟩ := Fragment.concatenate_ok hl hr hd
  refine ⟨f, ?_, ?_, hf⟩
  · simp only [Builder.concatenate, hstack, hok, Checked.ok_bind, Checked.pure_eq]
  · refine h.replace [right, left] 0 hstack
      (hf.shape (Fragment.shapeOf_concatenateStates hl hr hd)) ?_
    refine (Table.perm_ids hf.perm).trans ?_
    rw [Fragment.map_id_concatenateStates]
    simpa [idsOf_cons, idsOf] using List.perm_append_comm

theorem Sound.star (h : b.Sound first) (hstack : b.stack = inner :: rest) :
    ∃ f, b.star = .ok (.ok { b with supply := b.supply.skip 2, stack := f :: rest }) ∧
      Sound first { b with supply := b.supply.skip 2, stack := f :: rest } ∧
      f.Consists b.supply.next (b.supply.next + 1)
        (starStates inner b.supply.next (b.supply.next + 1)) := by
  have hmem : inner ∈ b.stack := hstack ▸ List.mem_cons_self
  have hi : inner.Shape := h.shape _ hmem
  have hne := b.next_ne_succ
  have hstart := h.fresh hmem (Nat.le_refl _)
  have hlast := h.fresh hmem (Nat.le_succ _)
  obtain ⟨f, hok, hf⟩ := Fragment.star_ok hi hne hstart hlast
  refine ⟨f, ?_, ?_, hf⟩
  · simp only [Builder.star, hstack, Supply.fresh, hok, Checked.ok_bind, Checked.pure_eq]
    rfl
  · refine h.replace [inner] 2 hstack
      (hf.shape (Fragment.shapeOf_starStates hi hne hstart hlast)) ?_
    refine (Table.perm_ids hf.perm).trans ?_
    rw [Fragment.map_id_starStates, idsOf_cons, show idsOf [] = [] from rfl, List.append_nil]
    exact .swap _ _ _

theorem Sound.union (h : b.Sound first) (hstack : b.stack = right :: left :: rest) :
    ∃ f, b.union = .ok (.ok { b with supply := b.supply.skip 2, stack := f :: rest }) ∧
      Sound first { b with supply := b.supply.skip 2, stack := f :: rest } ∧
      f.Consists b.supply.next (b.supply.next + 1)
        (unionStates left right b.supply.next (b.supply.next + 1)) := by
  obtain ⟨hl, hr⟩ := h.shape_operands hstack
  have hd := h.disjoint hstack
  have hne := b.next_ne_succ
  have hstart := h.fresh_append hstack (Nat.le_refl _)
  have hlast := h.fresh_append hstack (Nat.le_succ _)
  obtain ⟨f, hok, hf⟩ := Fragment.union_ok hl hr hne hd hstart hlast
  refine ⟨f, ?_, ?_, hf⟩
  · simp only [Builder.union, hstack, Supply.fresh, hok, Checked.ok_bind, Checked.pure_eq]
    rfl
  · refine h.replace [right, left] 2 hstack
      (hf.shape (Fragment.shapeOf_unionStates hl hr hne hd hstart hlast)) ?_
    refine (Table.perm_ids hf.perm).trans ?_
    rw [Fragment.map_id_unionStates, idsOf_cons, idsOf_cons, show idsOf [] = [] from rfl,
      List.append_nil]
    exact (List.Perm.swap _ _ _).trans (((List.perm_append_comm).cons _).cons _)

/-! ### Refused operations

`apply` compares the height of the stack with the arity before it calls an operation that looks at
the stack itself. Both refuse in the same cases and say the same. -/

theorem apply_of_lt {op : Operator} (h : b.height < op.arity) :
    b.apply op = .ok (.error (b.missing op)) :=
  if_pos h

theorem apply_concatenate (b : Builder) : b.apply .concatenate = b.concatenate := by
  rw [apply]
  split
  · next hlen =>
    match hstack : b.stack with
    | [] | [_] => rw [Builder.concatenate, hstack]
    | _ :: _ :: _ =>
      simp only [height, hstack, List.length_cons, Operator.arity] at hlen
      omega
  · rfl

theorem apply_star (b : Builder) : b.apply .star = b.star := by
  rw [apply]
  split
  · next hlen =>
    match hstack : b.stack with
    | [] => rw [Builder.star, hstack]
    | _ :: _ =>
      simp only [height, hstack, List.length_cons, Operator.arity] at hlen
      omega
  · rfl

theorem apply_union (b : Builder) : b.apply .union = b.union := by
  rw [apply]
  split
  · next hlen =>
    match hstack : b.stack with
    | [] | [_] => rw [Builder.union, hstack]
    | _ :: _ :: _ =>
      simp only [height, hstack, List.length_cons, Operator.arity] at hlen
      omega
  · rfl

/-! ### The end -/

/-- The only fragment becomes the automaton. -/
theorem Sound.finish (h : b.Sound first) (hstack : b.stack = [f]) :
    ∃ n : Nfa, b.finish = .ok (.ok n) ∧ n.toAutomaton = ⟨f.start, f.states, b.alphabet⟩ := by
  have hshape : f.Shape := h.shape f (hstack ▸ List.mem_cons_self)
  have hstart : f.states.isEmpty = true ∨ f.states.contains f.start = true :=
    .inr (Table.contains_iff.mpr hshape.start_mem)
  refine ⟨⟨⟨f.start, f.states, b.alphabet⟩, hstart⟩, ?_, rfl⟩
  simp only [Builder.finish, hstack, Nfa.ofTable, dif_pos hstart, Checked.ok_bind, Checked.pure_eq]

theorem finish_of_height_ne (h : b.height ≠ 1) : b.finish = .ok (.error b.height) := by
  match hstack : b.stack with
  | [_] =>
    rw [height, hstack] at h
    exact absurd rfl h
  | [] | _ :: _ :: _ =>
    rw [Builder.finish, height, hstack]
    rfl

/-- The end succeeds, whether or not there is exactly one fragment. -/
theorem Sound.exists_finish (h : b.Sound first) : ∃ outcome, b.finish = .ok outcome := by
  by_cases hlen : b.height = 1
  · obtain ⟨f, hstack⟩ := List.length_eq_one_iff.mp hlen
    obtain ⟨n, hok, _⟩ := h.finish hstack
    exact ⟨_, hok⟩
  · exact ⟨_, finish_of_height_ne hlen⟩

/-- An automaton that comes out at the end is that of the only fragment. -/
theorem Sound.of_finish_ok (h : b.Sound first) {n : Nfa} (hfinish : b.finish = .ok (.ok n)) :
    ∃ f, b.stack = [f] ∧ f.Shape ∧ n.toAutomaton = ⟨f.start, f.states, b.alphabet⟩ := by
  by_cases hlen : b.height = 1
  · obtain ⟨f, hstack⟩ := List.length_eq_one_iff.mp hlen
    obtain ⟨n', hok, hn⟩ := h.finish hstack
    rw [hfinish] at hok
    cases hok
    exact ⟨f, hstack, h.shape f (hstack ▸ List.mem_cons_self), hn⟩
  · rw [finish_of_height_ne hlen] at hfinish
    cases hfinish

end Builder

end PostfixRegex
