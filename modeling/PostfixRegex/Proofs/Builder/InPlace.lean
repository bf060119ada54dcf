import PostfixRegex.Builder.InPlace
import PostfixRegex.Proofs.Builder.Run

/-!
# Refused calls leave no trace

A call that is made in place could take operands off the stack or identifiers from the supply before
it finds that something is missing. None does: each operation counts its operands before its first
change, and `apply`, which counts before it calls the operation, counts the same. So a call in place
has the effect of the operation that returns a builder, and where that one returns none, the builder
is what it was (`Builder.make_eq`). Runs of calls in place and the runs of `Builder.performAll`
therefore end with the same builder, and what is known about the latter is known about the former.

From there the calls that were refused can be taken out of a run: they change nothing, so the calls
after them meet the same builder.

## Main definitions

* `Builder.settle` — the outcome of an operation for a caller that keeps the builder
* `Builder.accepted` — the calls of a run that were not refused

## Main results

* `Builder.Steps.runOn_operate_of_lt`, `Builder.Steps.runOn_operate` — an operation in place
* `Builder.make_eq` — each call in place
* `Builder.performAll_eq` — runs of calls in place
* `Builder.makeAll_accepted` — a run without the calls that were refused
* `Builder.makeAll_traceless` — all of this for the builders that can arise
-/

namespace PostfixRegex

namespace Builder

/-- What a caller that keeps the builder `b` sees of an operation that returns a builder only when
it succeeds. -/
def settle (b : Builder) : Except MissingOperands Builder → Except MissingOperands Unit × Builder
  | .ok b' => (.ok (), b')
  | .error m => (.error m, b)

namespace Steps

variable {α β : Type} {b b' : Builder} {op : Operator} {f left right : Fragment}
  {rest : List Fragment}

/-! ### One step after another -/

theorem runOn_bind_of_ok {x : Steps α} {a : α} (g : α → Steps β)
    (h : x.runOn b = .ok (.ok a, b')) : (x >>= g).runOn b = (g a).runOn b' := by
  rw [runOn] at h
  rw [runOn, ExceptT.run_bind, StateT.run_bind, h]
  rfl

/-- A refusal ends the steps and leaves the builder as it is by then. -/
theorem runOn_bind_of_error {x : Steps α} {m : MissingOperands} (g : α → Steps β)
    (h : x.runOn b = .ok (.error m, b')) : (x >>= g).runOn b = .ok (.error m, b') := by
  rw [runOn] at h
  rw [runOn, ExceptT.run_bind, StateT.run_bind, h]
  rfl

theorem runOn_lift_bind (x : Checked α) (g : α → Steps β) (b : Builder) :
    ((liftM x : Steps α) >>= g).runOn b = x >>= fun a => (g a).runOn b := by
  cases x <;> rfl

theorem runOn_get_bind (g : Builder → Steps β) (b : Builder) :
    (get >>= g).runOn b = (g b).runOn b :=
  runOn_bind_of_ok g rfl

theorem runOn_fresh_bind (g : Nat → Steps β) (b : Builder) :
    (fresh >>= g).runOn b = (g b.supply.fresh.1).runOn { b with supply := b.supply.fresh.2 } :=
  runOn_bind_of_ok g rfl

theorem runOn_require_of_lt (h : b.height < op.arity) :
    (require op).runOn b = .ok (.error (b.missing op), b) := by
  rw [require, runOn_get_bind, if_pos h]
  rfl

theorem runOn_require (h : ¬ b.height < op.arity) : (require op).runOn b = .ok (.ok (), b) := by
  rw [require, runOn_get_bind, if_neg h]
  rfl

theorem runOn_pop (hstack : b.stack = f :: rest) :
    (pop op).runOn b = .ok (.ok f, { b with stack := rest }) := by
  rw [pop, runOn_get_bind]
  simp only [hstack]
  rfl

theorem runOn_popTwo (hstack : b.stack = right :: left :: rest) (h : ¬ b.height < op.arity) :
    (popTwo op).runOn b = .ok (.ok (left, right), { b with stack := rest }) := by
  rw [popTwo, runOn_bind_of_ok _ (runOn_require h), runOn_bind_of_ok _ (runOn_pop hstack),
    runOn_bind_of_ok _ (runOn_pop rfl)]
  rfl

/-- Steps that end with a builder made of a checked result. -/
theorem bind_eq_map_settle (b : Builder) (x : Checked α) (k : α → Builder) :
    (x >>= fun a => .ok (.ok (), k a)) = (x >>= fun a => .ok (.ok (k a))).map b.settle := by
  cases x <;> rfl

/-! ### The operations -/

theorem runOn_atom (c : Char) (b : Builder) :
    (atom c).runOn b = (b.call (.atom c)).map b.settle := by
  rw [atom, runOn_fresh_bind, runOn_fresh_bind, runOn_lift_bind, call, Builder.atom]
  cases hf : Fragment.atom c b.supply.fresh.1 b.supply.fresh.2.fresh.1 <;> simp only [hf] <;> rfl

theorem runOn_concatenate (h : ¬ b.height < Operator.concatenate.arity) :
    concatenate.runOn b = b.concatenate.map b.settle := by
  obtain ⟨right, left, rest, hstack⟩ := exists_stack_of_two_le (Nat.not_lt.mp h)
  rw [concatenate, runOn_bind_of_ok _ (runOn_popTwo hstack h), runOn_lift_bind,
    Builder.concatenate, hstack]
  exact bind_eq_map_settle b (left.concatenate right) fun f => { b with stack := f :: rest }

theorem runOn_star (h : ¬ b.height < Operator.star.arity) :
    star.runOn b = b.star.map b.settle := by
  obtain ⟨inner, rest, hstack⟩ := List.exists_cons_of_length_pos (Nat.not_lt.mp h)
  rw [star, runOn_bind_of_ok _ (runOn_require h), runOn_bind_of_ok _ (runOn_pop hstack),
    runOn_fresh_bind, runOn_fresh_bind, runOn_lift_bind, Builder.star, hstack]
  exact bind_eq_map_settle b (inner.star b.supply.fresh.1 b.supply.fresh.2.fresh.1)
    fun f => { b with supply := b.supply.fresh.2.fresh.2, stack := f :: rest }

theorem runOn_union (h : ¬ b.height < Operator.union.arity) :
    union.runOn b = b.union.map b.settle := by
  obtain ⟨right, left, rest, hstack⟩ := exists_stack_of_two_le (Nat.not_lt.mp h)
  rw [union, runOn_bind_of_ok _ (runOn_popTwo hstack h), runOn_fresh_bind, runOn_fresh_bind,
    runOn_lift_bind, Builder.union, hstack]
  exact bind_eq_map_settle b (left.union right b.supply.fresh.1 b.supply.fresh.2.fresh.1)
    fun f => { b with supply := b.supply.fresh.2.fresh.2, stack := f :: rest }

/-- **Refusal.** Each operation counts its operands before it changes anything. -/
theorem runOn_operate_of_lt (h : b.height < op.arity) :
    (operate op).runOn b = .ok (.error (b.missing op), b) := by
  have hrequire := runOn_require_of_lt h
  cases op with
  | star => exact runOn_bind_of_error _ hrequire
  | union | concatenate => exact runOn_bind_of_error _ (runOn_bind_of_error _ hrequire)

/-- **Success.** An operation that finds its operands has the effect of the one that returns a
builder. -/
theorem runOn_operate (h : ¬ b.height < op.arity) :
    (operate op).runOn b = (b.apply op).map b.settle := by
  cases op with
  | union => rw [operate, runOn_union h, apply_union]
  | star => rw [operate, runOn_star h, apply_star]
  | concatenate => rw [operate, runOn_concatenate h, apply_concatenate]

/-- Counting twice is counting once. -/
theorem runOn_apply (op : Operator) (b : Builder) :
    (apply op).runOn b = (operate op).runOn b := by
  by_cases h : b.height < op.arity
  · rw [runOn_operate_of_lt h]
    exact runOn_bind_of_error _ (runOn_require_of_lt h)
  · exact runOn_bind_of_ok _ (runOn_require h)

theorem runOn_operate_eq (op : Operator) (b : Builder) :
    (operate op).runOn b = (b.apply op).map b.settle := by
  by_cases h : b.height < op.arity
  · rw [runOn_operate_of_lt h, apply_of_lt h]
    rfl
  · exact runOn_operate h

end Steps

/-! ### Calls in place -/

/-- The call of the operation that an operator stands for, past `apply`. -/
def Call.ofOperator : Operator → Call
  | .union => .union
  | .star => .star
  | .concatenate => .concatenate

variable {b b' : Builder} {first : Nat} {op : Operator}

theorem make_ofOperator (b : Builder) (op : Operator) :
    b.make (.ofOperator op) = (Steps.operate op).runOn b := by
  cases op <;> rfl

theorem make_apply (b : Builder) (op : Operator) :
    b.make (.apply op) = (Steps.operate op).runOn b :=
  Steps.runOn_apply op b

/-- **A call in place** has the effect of the operation that returns a builder. Where that one
returns none, the builder stays what it was. -/
theorem make_eq (b : Builder) (call : Call) : b.make call = (b.call call).map b.settle := by
  cases call with
  | atom c => exact Steps.runOn_atom c b
  | concatenate =>
    rw [Builder.call, ← apply_concatenate]
    exact Steps.runOn_operate_eq .concatenate b
  | star =>
    rw [Builder.call, ← apply_star]
    exact Steps.runOn_operate_eq .star b
  | union =>
    rw [Builder.call, ← apply_union]
    exact Steps.runOn_operate_eq .union b
  | apply op =>
    rw [make_apply]
    exact Steps.runOn_operate_eq op b

/-- A refused call changes nothing. -/
theorem eq_of_make_error {call : Call} {m : MissingOperands}
    (h : b.make call = .ok (.error m, b')) : b' = b := by
  rw [make_eq] at h
  cases hcall : b.call call with
  | error v =>
    rw [hcall] at h
    cases h
  | ok outcome =>
    rw [hcall] at h
    cases outcome with
    | error _ =>
      cases h
      rfl
    | ok _ => cases h

theorem perform_eq (b : Builder) (call : Call) : b.perform call = (b.make call).map Prod.snd := by
  rw [make_eq, perform]
  cases b.call call with
  | error v => rfl
  | ok outcome => cases outcome <;> rfl

/-- With its operands at hand, an operator replaces them by one fragment. -/
theorem Sound.exists_apply (h : b.Sound first) (hlen : ¬ b.height < op.arity) :
    ∃ f supply, b.apply op =
      .ok (.ok { b with supply, stack := f :: b.stack.drop op.arity }) := by
  rw [Nat.not_lt] at hlen
  cases op with
  | union =>
    obtain ⟨right, left, rest, hstack⟩ := exists_stack_of_two_le hlen
    obtain ⟨f, hok, _⟩ := h.union hstack
    refine ⟨f, b.supply.skip 2, ?_⟩
    rw [apply_union, hok, hstack]
    rfl
  | star =>
    obtain ⟨inner, rest, hstack⟩ := List.exists_cons_of_length_pos hlen
    obtain ⟨f, hok, _⟩ := h.star hstack
    refine ⟨f, b.supply.skip 2, ?_⟩
    rw [apply_star, hok, hstack]
    rfl
  | concatenate =>
    obtain ⟨right, left, rest, hstack⟩ := exists_stack_of_two_le hlen
    obtain ⟨f, hok, _⟩ := h.concatenate hstack
    refine ⟨f, b.supply, ?_⟩
    rw [apply_concatenate, hok, hstack]
    rfl

theorem Sound.exists_make_apply (h : b.Sound first) (hlen : ¬ b.height < op.arity) :
    ∃ f supply, b.make (.apply op) =
      .ok (.ok (), { b with supply, stack := f :: b.stack.drop op.arity }) := by
  obtain ⟨f, supply, hok⟩ := h.exists_apply hlen
  refine ⟨f, supply, ?_⟩
  rw [make_apply, Steps.runOn_operate hlen, hok]
  rfl

/-! ### Runs of calls in place -/

theorem makeAll_cons (b : Builder) (call : Call) (calls : List Call) :
    b.makeAll (call :: calls) = do
      let (answer, b₁) ← b.make call
      let (answers, b₂) ← b₁.makeAll calls
      return (answer :: answers, b₂) := rfl

/-- **Runs.** Calls in place end with the builder that the calls of `performAll` end with. -/
theorem performAll_eq (b : Builder) (calls : List Call) :
    b.performAll calls = (b.makeAll calls).map Prod.snd := by
  induction calls generalizing b with
  | nil => rfl
  | cons call calls ih =>
    rw [performAll, List.foldlM_cons, perform_eq, makeAll_cons]
    cases b.make call with
    | error v => rfl
    | ok made =>
      refine (ih made.2).trans ?_
      simp only [Checked.ok_bind]
      cases made.2.makeAll calls <;> rfl

/-- The calls that were not refused, by the answers to them. -/
def accepted (calls : List Call) (answers : List (Except MissingOperands Unit)) : List Call :=
  ((calls.zip answers).filter fun p => p.2.isOk).map Prod.fst

/-- **Erasure.** Without the calls that were refused, a run ends with the same builder, and no call
is refused. -/
theorem makeAll_accepted {calls : List Call} {answers : List (Except MissingOperands Unit)}
    (h : b.makeAll calls = .ok (answers, b')) :
    b.makeAll (accepted calls answers) = .ok (answers.filter Except.isOk, b') := by
  induction calls generalizing b answers with
  | nil =>
    cases h
    rfl
  | cons call calls ih =>
    rw [makeAll_cons] at h
    obtain ⟨⟨answer, b₁⟩, hmake, h⟩ := Checked.bind_eq_ok.mp h
    obtain ⟨⟨answers₁, b₂⟩, hrest, h⟩ := Checked.bind_eq_ok.mp h
    cases h
    have hkept := ih hrest
    cases answer with
    | error m =>
      -- the call is left out, and the others meet the builder they met before
      rw [eq_of_make_error hmake] at hkept
      exact hkept
    | ok _ =>
      have hcons : accepted (call :: calls) (.ok () :: answers₁) =
          call :: accepted calls answers₁ := rfl
      rw [hcons, makeAll_cons, hmake, Checked.ok_bind]
      simp only [hkept, Checked.ok_bind]
      rfl

/-- **Refused calls leave no trace.** After any calls in place, an operator may be applied or its
operation be called, the answer and the builder afterwards are the same. It is refused if the stack
is lower than its arity, and then the stack, the alphabet and the supply are what they were;
otherwise it replaces its operands by one fragment and touches nothing below them. So the calls that
were refused can be taken out: the builder at the end is the same, and with it the automaton that it
yields, the number of fragments it holds and the identifiers that were handed out. -/
theorem makeAll_traceless (supply : Supply) (calls : List Call) :
    ∃ answers b, makeAll { supply } calls = .ok (answers, b) ∧
      (∀ op, b.make (.ofOperator op) = b.make (.apply op)) ∧
      (∀ op : Operator, b.height < op.arity → b.make (.apply op) =
        .ok (.error { required := op.arity, available := b.height }, b)) ∧
      (∀ op : Operator, op.arity ≤ b.height → ∃ b', b.make (.apply op) = .ok (.ok (), b') ∧
        b'.height + op.arity = b.height + 1 ∧ b'.stack.drop 1 = b.stack.drop op.arity) ∧
      ∃ answers', makeAll { supply } (accepted calls answers) = .ok (answers', b) ∧
        ∀ answer ∈ answers', answer = .ok () := by
  obtain ⟨b, hrun, hsound⟩ := performAll_sound supply calls
  rw [performAll_eq] at hrun
  cases hmake : makeAll { supply } calls with
  | error v =>
    rw [hmake] at hrun
    cases hrun
  | ok made =>
    obtain ⟨answers, b₁⟩ := made
    rw [hmake] at hrun
    obtain rfl : b₁ = b := Except.ok.inj hrun
    refine ⟨answers, b₁, rfl, fun op => ?_, fun op hlt => ?_, fun op hle => ?_, _,
      makeAll_accepted hmake, fun answer hanswer => ?_⟩
    · rw [make_ofOperator, make_apply]
    · rw [make_apply]
      exact Steps.runOn_operate_of_lt hlt
    · obtain ⟨f, supply', hok⟩ := hsound.exists_make_apply (Nat.not_lt.mpr hle)
      refine ⟨_, hok, ?_, rfl⟩
      rw [height, List.length_cons, List.length_drop]
      rw [height] at hle ⊢
      omega
    · have hkept := (List.mem_filter.mp hanswer).2
      cases answer with
      | error m => cases hkept
      | ok _ => rfl

-- operators that come too early are refused and take no identifiers
example : (makeAll { supply := {} } [.star, .atom 'a', .union, .star]).toOption.map
    (fun made => (made.1, made.2.supply.next)) =
      some ([.error ⟨1, 0⟩, .ok (), .error ⟨2, 1⟩, .ok ()], 4) := by
  cbv

end Builder

end PostfixRegex
