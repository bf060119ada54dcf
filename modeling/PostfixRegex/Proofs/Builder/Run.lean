import PostfixRegex.Proofs.Builder.Ownership
import PostfixRegex.Proofs.Expression

/-!
# What every run of a builder keeps

Beside the stack of fragments runs a stack of trees, changed in the same way by every call that
succeeds and by no other. A relation between fragments and trees that the four makers hand on, from
operands to result, then holds place by place between the two stacks, whatever calls were made and
whichever of them were refused. The induction over calls is done here once. An invariant of
fragments is four facts, one for each maker (`Fragment.Inherited`), and it may or may not look at
the trees.

The calls may come in any order, and any of them may be refused. Nothing is assumed about the
identifier the supply starts at.

## Main definitions

* `Builder.Call.onTrees`, `Builder.performAllWith` — the stack of trees beside a run
* `Fragment.Inherited` — the makers hand the relation on
* `Builder.Carries` — a sound builder whose fragments are related to the trees

## Main results

* `Builder.Carries.performWith`, `Builder.Carries.performAllWith` — one call, and every run
* `Builder.performAll_owned` — each identifier that was handed out lies in one fragment
-/

namespace PostfixRegex

namespace Fragment

/-- The makers hand the relation on. The operands may be assumed to be what a builder gives to a
maker: fragments of the right shape that share no identifier, and fresh identifiers. -/
structure Inherited (R : Fragment → Expr → Prop) : Prop where
  atom : ∀ {f : Fragment} {c : Char} {start last : Nat}, start ≠ last →
    f.Consists start last (atomStates c start last) → R f (.literal c)
  concatenate : ∀ {f left right : Fragment} {el er : Expr}, left.Shape → right.Shape →
    (∀ id ∈ left.states.ids, id ∉ right.states.ids) →
    f.Consists left.start right.last (concatenateStates left right) → R left el → R right er →
    R f (.concatenate el er)
  star : ∀ {f inner : Fragment} {e : Expr} {start last : Nat}, inner.Shape → start ≠ last →
    start ∉ inner.states.ids → last ∉ inner.states.ids →
    f.Consists start last (starStates inner start last) → R inner e → R f (.star e)
  union : ∀ {f left right : Fragment} {el er : Expr} {start last : Nat}, left.Shape →
    right.Shape → start ≠ last → (∀ id ∈ left.states.ids, id ∉ right.states.ids) →
    start ∉ left.states.ids ++ right.states.ids → last ∉ left.states.ids ++ right.states.ids →
    f.Consists start last (unionStates left right start last) → R left el → R right er →
    R f (.union el er)

/-- The relation that says nothing: what a run keeps then is the order among the identifiers. -/
theorem inherited_true : Inherited fun _ _ => True where
  atom _ _ := trivial
  concatenate _ _ _ _ _ _ := trivial
  star _ _ _ _ _ _ := trivial
  union _ _ _ _ _ _ _ _ _ := trivial

theorem Inherited.and {R S : Fragment → Expr → Prop} (hR : Inherited R) (hS : Inherited S) :
    Inherited fun f e => R f e ∧ S f e where
  atom hne h := ⟨hR.atom hne h, hS.atom hne h⟩
  concatenate hl hr hd h hel her :=
    ⟨hR.concatenate hl hr hd h hel.1 her.1, hS.concatenate hl hr hd h hel.2 her.2⟩
  star hi hne hstart hlast h he :=
    ⟨hR.star hi hne hstart hlast h he.1, hS.star hi hne hstart hlast h he.2⟩
  union hl hr hne hd hstart hlast h hel her :=
    ⟨hR.union hl hr hne hd hstart hlast h hel.1 her.1,
      hS.union hl hr hne hd hstart hlast h hel.2 her.2⟩

end Fragment

namespace Builder

/-! ### The trees beside a run -/

/-- What a call that succeeds does to a stack of trees. -/
def Call.onTrees : Call → List Expr → List Expr
  | .atom c, trees => .literal c :: trees
  | .concatenate, trees => Operator.concatenate.onTrees trees
  | .star, trees => Operator.star.onTrees trees
  | .union, trees => Operator.union.onTrees trees
  | .apply op, trees => op.onTrees trees

/-- Makes one call. The trees follow it unless it is refused. -/
def performWith (s : Builder × List Expr) (c : Call) : Checked (Builder × List Expr) := do
  match ← s.1.call c with
  | .ok b => return (b, c.onTrees s.2)
  | .error _ => return s

/-- Makes calls one after the other, with the trees beside them. -/
def performAllWith (s : Builder × List Expr) (calls : List Call) :
    Checked (Builder × List Expr) :=
  calls.foldlM performWith s

/-- Every call but an atom does what `apply` does for its operator. -/
theorem Call.atom_or_apply (call : Call) :
    (∃ c, call = .atom c) ∨
      ∃ op, (∀ b : Builder, b.call call = b.apply op) ∧
        ∀ trees, call.onTrees trees = op.onTrees trees := by
  cases call with
  | atom c => exact .inl ⟨c, rfl⟩
  | concatenate => exact .inr ⟨.concatenate, fun b => (apply_concatenate b).symm, fun _ => rfl⟩
  | star => exact .inr ⟨.star, fun b => (apply_star b).symm, fun _ => rfl⟩
  | union => exact .inr ⟨.union, fun b => (apply_union b).symm, fun _ => rfl⟩
  | apply op => exact .inr ⟨op, fun _ => rfl, fun _ => rfl⟩

/-! ### The invariant -/

/-- **The fragments are related to the trees**, place by place, and the alphabet holds the literals
of the trees. -/
structure Carries (R : Fragment → Expr → Prop) (first : Nat) (b : Builder) (trees : List Expr) :
    Prop extends Sound first b where
  related : List.Forall₂ R b.stack trees
  alphabet : ∀ c, c ∈ b.alphabet.toList ↔ c ∈ trees.flatMap Expr.literals

variable {R : Fragment → Expr → Prop} {b : Builder} {first : Nat} {trees : List Expr}
  {op : Operator}

theorem carries_start (R : Fragment → Expr → Prop) (supply : Supply) :
    Carries R supply.next { supply } [] where
  toSound := sound_start supply
  related := .nil
  alphabet _ := iff_of_false List.not_mem_nil List.not_mem_nil

theorem Carries.height_eq (h : b.Carries R first trees) : b.height = trees.length :=
  h.related.length_eq

/-! ### One call -/

theorem Carries.atom (h : b.Carries R first trees) (hR : Fragment.Inherited R) (c : Char) :
    ∃ b', b.atom c = .ok b' ∧ b'.Carries R first (.literal c :: trees) := by
  obtain ⟨f, hok, hsound, hf⟩ := h.toSound.atom c
  refine ⟨_, hok, hsound, .cons (hR.atom b.next_ne_succ hf) h.related, fun x => ?_⟩
  rw [Alphabet.mem_insert, h.alphabet, List.flatMap_cons, List.mem_append, or_comm]
  exact or_congr_left List.mem_singleton.symm

/-- An operator keeps the literals of the trees it is applied to. -/
theorem mem_literals_onTrees {c : Char} :
    c ∈ (op.onTrees trees).flatMap Expr.literals ↔ c ∈ trees.flatMap Expr.literals := by
  match op, trees with
  | .union, right :: left :: rest | .concatenate, right :: left :: rest =>
    simp only [Operator.onTrees, List.flatMap_cons, Expr.literals, List.mem_append]
    tauto
  | .star, inner :: rest => rfl
  | .union, [] | .union, [_] | .concatenate, [] | .concatenate, [_] | .star, [] => rfl

theorem Carries.star (h : b.Carries R first trees) (hR : Fragment.Inherited R)
    (hlen : 1 ≤ b.height) :
    ∃ b', b.star = .ok (.ok b') ∧ b'.Carries R first (Operator.star.onTrees trees) := by
  obtain ⟨inner, rest, hstack⟩ := List.exists_cons_of_length_pos hlen
  have hrelated := h.related
  rw [hstack] at hrelated
  obtain ⟨e, es, he, hes, rfl⟩ := List.forall₂_cons_left_iff.mp hrelated
  have hmem : inner ∈ b.stack := hstack ▸ List.mem_cons_self
  obtain ⟨f, hok, hsound, hf⟩ := h.toSound.star hstack
  have hresult : R f (.star e) := hR.star (h.shape _ hmem) b.next_ne_succ
    (h.fresh hmem (Nat.le_refl _)) (h.fresh hmem (Nat.le_succ _)) hf he
  refine ⟨_, hok, hsound, .cons hresult hes, fun c => ?_⟩
  exact (h.alphabet c).trans mem_literals_onTrees.symm

/-- Two operands on the stack, and the trees beside them. -/
theorem Carries.exists_operands (h : b.Carries R first trees) (hlen : 2 ≤ b.height) :
    ∃ right left rest er el es, b.stack = right :: left :: rest ∧ trees = er :: el :: es ∧
      R right er ∧ R left el ∧ List.Forall₂ R rest es := by
  obtain ⟨right, left, rest, hstack⟩ := exists_stack_of_two_le hlen
  have hrelated := h.related
  rw [hstack] at hrelated
  obtain ⟨er, _, her, htail, rfl⟩ := List.forall₂_cons_left_iff.mp hrelated
  obtain ⟨el, es, hel, hes, rfl⟩ := List.forall₂_cons_left_iff.mp htail
  exact ⟨right, left, rest, er, el, es, hstack, rfl, her, hel, hes⟩

theorem Carries.concatenate (h : b.Carries R first trees) (hR : Fragment.Inherited R)
    (hlen : 2 ≤ b.height) :
    ∃ b', b.concatenate = .ok (.ok b') ∧
      b'.Carries R first (Operator.concatenate.onTrees trees) := by
  obtain ⟨right, left, rest, er, el, es, hstack, rfl, her, hel, hes⟩ := h.exists_operands hlen
  obtain ⟨hl, hr⟩ := h.shape_operands hstack
  obtain ⟨f, hok, hsound, hf⟩ := h.toSound.concatenate hstack
  have hresult : R f (.concatenate el er) :=
    hR.concatenate hl hr (h.disjoint hstack) hf hel her
  refine ⟨_, hok, hsound, .cons hresult hes, fun c => ?_⟩
  exact (h.alphabet c).trans mem_literals_onTrees.symm

theorem Carries.union (h : b.Carries R first trees) (hR : Fragment.Inherited R)
    (hlen : 2 ≤ b.height) :
    ∃ b', b.union = .ok (.ok b') ∧ b'.Carries R first (Operator.union.onTrees trees) := by
  obtain ⟨right, left, rest, er, el, es, hstack, rfl, her, hel, hes⟩ := h.exists_operands hlen
  obtain ⟨hl, hr⟩ := h.shape_operands hstack
  obtain ⟨f, hok, hsound, hf⟩ := h.toSound.union hstack
  have hresult : R f (.union el er) := hR.union hl hr b.next_ne_succ (h.disjoint hstack)
    (h.toSound.fresh_append hstack (Nat.le_refl _))
    (h.toSound.fresh_append hstack (Nat.le_succ _)) hf hel her
  refine ⟨_, hok, hsound, .cons hresult hes, fun c => ?_⟩
  exact (h.alphabet c).trans mem_literals_onTrees.symm

/-- An operator that finds its operands succeeds. -/
theorem Carries.apply (h : b.Carries R first trees) (hR : Fragment.Inherited R)
    (hlen : ¬ b.height < op.arity) :
    ∃ b', b.apply op = .ok (.ok b') ∧ b'.Carries R first (op.onTrees trees) := by
  rw [Nat.not_lt] at hlen
  cases op with
  | union =>
    rw [apply_union]
    exact h.union hR hlen
  | star =>
    rw [apply_star]
    exact h.star hR hlen
  | concatenate =>
    rw [apply_concatenate]
    exact h.concatenate hR hlen

/-- **One call.** It succeeds and keeps the invariant, or it is refused and changes nothing. -/
theorem Carries.performWith (h : b.Carries R first trees) (hR : Fragment.Inherited R)
    (call : Call) :
    ∃ b' trees', Builder.performWith (b, trees) call = .ok (b', trees') ∧
      b.perform call = .ok b' ∧ b'.Carries R first trees' := by
  have hsuccess : ∀ {b'}, b.call call = .ok (.ok b') → b'.Carries R first (call.onTrees trees) →
      ∃ b' trees', Builder.performWith (b, trees) call = .ok (b', trees') ∧
        b.perform call = .ok b' ∧ b'.Carries R first trees' := by
    intro b' hcall hb'
    refine ⟨b', call.onTrees trees, ?_, ?_, hb'⟩
    · rw [Builder.performWith, hcall]
      rfl
    · rw [perform, hcall]
      rfl
  rcases call.atom_or_apply with ⟨c, rfl⟩ | ⟨op, hcall, htrees⟩
  · obtain ⟨b', hok, hb'⟩ := h.atom hR c
    refine hsuccess ?_ hb'
    rw [call, hok]
    rfl
  · by_cases hlen : b.height < op.arity
    · refine ⟨b, trees, ?_, ?_, h⟩
      · rw [Builder.performWith, hcall, apply_of_lt hlen]
        rfl
      · rw [perform, hcall, apply_of_lt hlen]
        rfl
    · obtain ⟨b', hok, hb'⟩ := h.apply hR hlen
      rw [← htrees] at hb'
      exact hsuccess ((hcall b).trans hok) hb'

/-! ### Runs -/

/-- **Every run keeps the invariant**, and no run fails. -/
theorem Carries.performAllWith (h : b.Carries R first trees) (hR : Fragment.Inherited R)
    (calls : List Call) :
    ∃ b' trees', Builder.performAllWith (b, trees) calls = .ok (b', trees') ∧
      b.performAll calls = .ok b' ∧ b'.Carries R first trees' := by
  induction calls generalizing b trees with
  | nil => exact ⟨b, trees, rfl, rfl, h⟩
  | cons call calls ih =>
    obtain ⟨b₁, trees₁, hwith, hperform, h₁⟩ := h.performWith hR call
    obtain ⟨b₂, trees₂, hwith', hperform', h₂⟩ := ih h₁
    refine ⟨b₂, trees₂, ?_, ?_, h₂⟩
    · rw [Builder.performAllWith, List.foldlM_cons, hwith, Checked.ok_bind]
      exact hwith'
    · rw [performAll, List.foldlM_cons, hperform, Checked.ok_bind]
      exact hperform'

/-- With one tree, the builder yields the automaton of a fragment that is related to the tree. -/
theorem Carries.finish {e : Expr} (h : b.Carries R first [e]) :
    ∃ (f : Fragment) (n : Nfa), b.finish = .ok (.ok n) ∧ R f e ∧ f.Shape ∧
      n.toAutomaton = ⟨f.start, f.states, b.alphabet⟩ := by
  obtain ⟨f, rest, hf, hrest, hstack⟩ := List.forall₂_cons_right_iff.mp h.related
  rw [List.forall₂_nil_right_iff.mp hrest] at hstack
  obtain ⟨n, hok, hn⟩ := h.toSound.finish hstack
  exact ⟨f, n, hok, hf, h.shape f (hstack ▸ List.mem_cons_self), hn⟩

/-- No run fails, and every run keeps the identifiers in good order. -/
theorem performAll_sound (supply : Supply) (calls : List Call) :
    ∃ b, performAll { supply } calls = .ok b ∧ b.Sound supply.next := by
  obtain ⟨b, _, _, hrun, h⟩ :=
    (carries_start (fun _ _ => True) supply).performAllWith Fragment.inherited_true calls
  exact ⟨b, hrun, h.toSound⟩

/-- **Ownership.** Whatever calls are made, none of them and not the end either finds a rule broken.
No identifier lies in two fragments, and the identifiers that lie in one are exactly those that the
supply handed out since the builder was created. Since the calls are arbitrary, this holds at every
point of a run. -/
theorem performAll_owned (supply : Supply) (calls : List Call) :
    ∃ b, performAll { supply } calls = .ok b ∧ (∃ outcome, b.finish = .ok outcome) ∧
      supply.next ≤ b.supply.next ∧
      (b.stack.Pairwise fun f g => f.states.ids.Disjoint g.states.ids) ∧
      ∀ id, (∃ f ∈ b.stack, id ∈ f.states.ids) ↔ supply.next ≤ id ∧ id < b.supply.next := by
  obtain ⟨b, hrun, h⟩ := performAll_sound supply calls
  exact ⟨b, hrun, h.exists_finish, h.first_le, h.pairwise_disjoint, fun _ => h.exists_owner_iff⟩

end Builder

end PostfixRegex
