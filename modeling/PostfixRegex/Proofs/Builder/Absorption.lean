import PostfixRegex.Proofs.Builder.Frame

/-!
# What becomes of a fragment

A fragment on the stack stays there until some operator takes it for an operand. Then its states
become states of the result, and at most one of them is changed: the last state, which is left to
one or two other states. The right operand of a concatenation is not even left, so its last state is
the last one of the result and may be left later. A last state that was left is an inner state from
then on, and inner states are not changed by anything.

That a step keeps the invariant of the builder is known for each operation; here it is said for
whatever step succeeds, so that it can be used along a run. A well-formed text leaves one fragment
on the stack, and it is the same one whatever lies below.

## Main definitions

* `Fragment.Absorbed` — a fragment as part of another one

## Main results

* `Builder.Sound.of_step` — one step: each fragment stays or is absorbed
* `Builder.Sound.of_feed` — a run keeps the invariant
* `exists_compilation_on_top` — the one fragment that a well-formed text leaves on top of others
-/

namespace PostfixRegex

namespace Fragment

/-- What an operand is in a result. -/
inductive Absorbed (g f : Fragment) : Prop where
  /-- All states are as they were, and the last one is the last one still. -/
  | kept : f.last = g.last → g.states.toList ⊆ f.states.toList → Absorbed g f
  /-- The last state was left, all others are as they were, and none of them is the last one of the
  result. -/
  | left {targets : List Nat} : Exits targets → f.last ∉ g.states.ids →
      g.states.toList.map (leaving g.last targets) ⊆ f.states.toList → Absorbed g f

variable {f left right inner : Fragment} {start last : Nat}

theorem Consists.absorbed_concatenate (hr : right.Shape)
    (hd : ∀ id ∈ left.states.ids, id ∉ right.states.ids)
    (h : f.Consists left.start right.last (concatenateStates left right)) :
    left.Absorbed f ∧ right.Absorbed f := by
  constructor
  · refine .left (.one right.start) ?_ fun s hs => h.perm.mem_iff.mpr (List.mem_append_left _ hs)
    rw [h.last_eq]
    exact fun hmem => hd _ hmem hr.last_mem
  · exact .kept h.last_eq fun s hs => h.perm.mem_iff.mpr (List.mem_append_right _ hs)

theorem Consists.absorbed_star (hi : inner.Shape) (hlast : last ∉ inner.states.ids)
    (h : f.Consists start last (starStates inner start last)) : inner.Absorbed f := by
  have hne : last ≠ inner.start := fun heq => hlast (heq ▸ hi.start_mem)
  refine .left (.two hne) (h.last_eq ▸ hlast) fun s hs => h.perm.mem_iff.mpr ?_
  exact List.mem_cons_of_mem _ (List.mem_cons_of_mem _ hs)

theorem Consists.absorbed_union (hlast : last ∉ left.states.ids ++ right.states.ids)
    (h : f.Consists start last (unionStates left right start last)) :
    left.Absorbed f ∧ right.Absorbed f := by
  rw [List.mem_append, not_or] at hlast
  have hbody : left.states.toList.map (leaving left.last [last]) ++
      right.states.toList.map (leaving right.last [last]) ⊆ f.states.toList := fun s hs =>
    h.perm.mem_iff.mpr (List.mem_cons_of_mem _ (List.mem_cons_of_mem _ hs))
  obtain ⟨hleft, hright⟩ := List.append_subset.mp hbody
  exact ⟨.left (.one last) (h.last_eq ▸ hlast.1) hleft,
    .left (.one last) (h.last_eq ▸ hlast.2) hright⟩

end Fragment

namespace Builder

variable {b b' : Builder} {first position : Nat} {t : Token} {tokens : List Token} {op : Operator}
  {f g : Fragment} {rest : List Fragment}

/-- Where one fragment takes the place of its operands, every other one stays. -/
theorem mem_or_absorbed (operands : List Fragment) (hstack : b.stack = operands ++ rest)
    (hoperands : ∀ g ∈ operands, g.Absorbed f) (hg : g ∈ b.stack) :
    g ∈ f :: rest ∨ ∃ f' ∈ f :: rest, g.Absorbed f' := by
  rw [hstack] at hg
  rcases List.mem_append.mp hg with hg | hg
  · exact .inr ⟨f, List.mem_cons_self, hoperands g hg⟩
  · exact .inl (List.mem_cons_of_mem f hg)

/-- An operator absorbs its operands and leaves all other fragments alone. -/
theorem Sound.of_apply (h : b.Sound first) (happly : b.apply op = .ok (.ok b')) :
    b'.Sound first ∧
      ∀ g ∈ b.stack, g ∈ b'.stack ∨ ∃ f ∈ b'.stack, g.Absorbed f := by
  have hlen : op.arity ≤ b.height := by
    by_contra hlt
    rw [apply_of_lt (Nat.lt_of_not_le hlt)] at happly
    cases happly
  cases op with
  | union =>
    obtain ⟨right, left, rest, hstack⟩ := exists_stack_of_two_le hlen
    obtain ⟨f, hok, hsound, hf⟩ := h.union hstack
    rw [apply_union, hok] at happly
    cases happly
    obtain ⟨hleft, hright⟩ := hf.absorbed_union (h.fresh_append hstack (Nat.le_succ _))
    exact ⟨hsound, fun g => mem_or_absorbed [right, left] hstack (by simp [hleft, hright])⟩
  | star =>
    obtain ⟨inner, rest, hstack⟩ := List.exists_cons_of_length_pos hlen
    obtain ⟨f, hok, hsound, hf⟩ := h.star hstack
    rw [apply_star, hok] at happly
    cases happly
    have hmem : inner ∈ b.stack := hstack ▸ List.mem_cons_self
    have hinner := hf.absorbed_star (h.shape inner hmem) (h.fresh hmem (Nat.le_succ _))
    exact ⟨hsound, fun g => mem_or_absorbed [inner] hstack (by simp [hinner])⟩
  | concatenate =>
    obtain ⟨right, left, rest, hstack⟩ := exists_stack_of_two_le hlen
    obtain ⟨f, hok, hsound, hf⟩ := h.concatenate hstack
    rw [apply_concatenate, hok] at happly
    cases happly
    obtain ⟨hleft, hright⟩ :=
      hf.absorbed_concatenate (h.shape_operands hstack).2 (h.disjoint hstack)
    exact ⟨hsound, fun g => mem_or_absorbed [right, left] hstack (by simp [hleft, hright])⟩

/-- **One step.** It keeps the invariant, and a fragment stays on the stack unless the token is an
operator that absorbs it. -/
theorem Sound.of_step (h : b.Sound first) (hstep : b.Step t b') :
    b'.Sound first ∧
      ∀ g ∈ b.stack, g ∈ b'.stack ∨
        ∃ op, t = .operator op ∧ b.apply op = .ok (.ok b') ∧ ∃ f ∈ b'.stack, g.Absorbed f := by
  cases hstep with
  | @literal _ c hatom =>
    obtain ⟨f, hok, hsound, _⟩ := h.atom c
    rw [hok] at hatom
    cases hatom
    exact ⟨hsound, fun g hg => .inl (List.mem_cons_of_mem f hg)⟩
  | @operator _ op happly =>
    obtain ⟨hsound, hstack⟩ := h.of_apply happly
    exact ⟨hsound, fun g hg => (hstack g hg).imp_right fun hf => ⟨op, rfl, happly, hf⟩⟩

/-- **A run keeps the invariant.** -/
theorem Sound.of_feed (h : b.Sound first)
    (hfeed : b.feed position tokens = .ok (b', .ok ())) : b'.Sound first := by
  induction tokens generalizing b position with
  | nil =>
    cases hfeed
    exact h
  | cons t tokens ih =>
    obtain ⟨b₁, hstep, hfeed⟩ := feed_cons_iff.mp hfeed
    exact ih (h.of_step hstep).1 hfeed

end Builder

/-- **A well-formed text.** On top of other fragments it leaves one fragment, the one that it is
compiled to alone, and what it takes from the supply is what it takes alone. -/
theorem exists_compilation_on_top {text : String} (h : ∃ e : Expr, e.Plain ∧ e.text = text)
    (supply : Supply) :
    ∃ c n f, compile text supply = .ok c ∧ c.result = .ok n ∧ f.Shape ∧
      n.toAutomaton = ⟨f.start, f.states, n.alphabet⟩ ∧
      ∀ {b : Builder}, b.supply = supply → ∀ position, ∃ b',
        b.feed position (tokenize text) = .ok (b', .ok ()) ∧ b'.supply = c.supply ∧
          b'.stack = f :: b.stack := by
  obtain ⟨c, n, hcompile, hresult, _⟩ := exists_nfa_of_plain h supply
  have halone := feed_of_compile hcompile hresult
  have hsound := (Builder.sound_start supply).of_feed halone
  obtain ⟨f, hstack, hshape, hn⟩ := hsound.of_finish_ok (finish_of_compile hcompile hresult)
  refine ⟨c, n, f, hcompile, hresult, hshape, by rw [hn], fun {b} hb position => ?_⟩
  have hover : Builder.Over b.stack { supply } b := ⟨hb, rfl⟩
  obtain ⟨b', hfeed, hsupply, hstack'⟩ := hover.feed halone position
  rw [hstack, List.singleton_append] at hstack'
  exact ⟨b', hfeed, hsupply, hstack'⟩

end PostfixRegex
