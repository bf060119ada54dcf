import PostfixRegex.Proofs.Compilation

/-!
# What lies below on the stack

An operator takes its operands from the top of the stack. So a run of tokens that succeeds on a
stack succeeds in the same way when there are other fragments below, and these are still there at
the end, untouched. In particular, the fragments that a well-formed part of a text is built from do
not depend on what was read before it, but for the identifiers, which come from the supply.

The converse is not claimed. With fragments below, an operator may find operands that it would have
lacked without them.

## Main definitions

* `Builder.Step` — one token is read and not refused
* `Builder.Over` — a builder on top of other fragments

## Main results

* `Builder.feed_append` — a run in two parts
* `Builder.feed_cons_iff`, `Builder.feed_append_iff` — a successful run, step by step
* `Builder.Over.step` — one step on top of other fragments
* `Builder.Over.feed` — and every run
-/

namespace PostfixRegex

theorem tokenize_append (s t : String) : tokenize (s ++ t) = tokenize s ++ tokenize t := by
  simp [tokenize]

namespace Builder

/-! ### Runs, part by part -/

/-- One token is read and not refused. -/
inductive Step : Builder → Token → Builder → Prop where
  | literal {b b' : Builder} {c : Char} : b.atom c = .ok b' → Step b (.literal c) b'
  | operator {b b' : Builder} {op : Operator} : b.apply op = .ok (.ok b') → Step b (.operator op) b'

variable {b b' : Builder} {position : Nat} {t : Token} {tokens : List Token}

/-- A run that succeeds reads its first token and goes on. -/
theorem feed_cons_iff :
    b.feed position (t :: tokens) = .ok (b', .ok ()) ↔
      ∃ b₁, b.Step t b₁ ∧ b₁.feed (position + 1) tokens = .ok (b', .ok ()) := by
  constructor
  · intro h
    cases t with
    | literal c =>
      obtain ⟨b₁, hatom, h⟩ := Checked.bind_eq_ok.mp h
      exact ⟨b₁, .literal hatom, h⟩
    | operator op =>
      obtain ⟨answer, hanswer, h⟩ := Checked.bind_eq_ok.mp h
      cases answer with
      | ok b₁ => exact ⟨b₁, .operator hanswer, h⟩
      | error m => cases h
  · rintro ⟨b₁, hstep, h⟩
    cases hstep with
    | literal hatom => exact (feed_literal position tokens hatom).trans h
    | operator happly => exact (feed_operator position tokens happly).trans h

/-- Goes on after a run, if it was not refused. -/
def resume (position : Nat) (tokens : List Token) :
    Builder × Except CompileError Unit → Checked (Builder × Except CompileError Unit)
  | (b, .ok ()) => b.feed position tokens
  | (b, .error e) => return (b, .error e)

/-- A run over two lists of tokens is two runs, of which the second one begins where the first one
ended. -/
theorem feed_append (b : Builder) (position : Nat) (before after : List Token) :
    b.feed position (before ++ after) =
      b.feed position before >>= resume (position + before.length) after := by
  induction before generalizing b position with
  | nil => rfl
  | cons t before ih =>
    have hlength : position + (t :: before).length = position + 1 + before.length := by
      rw [List.length_cons, Nat.add_assoc, Nat.add_comm 1]
    rw [hlength, List.cons_append]
    cases t with
    | literal c =>
      cases hatom : b.atom c with
      | error v =>
        rw [feed, feed, hatom]
        rfl
      | ok b₁ => rw [feed_literal _ _ hatom, feed_literal _ _ hatom, ih]
    | operator op =>
      cases happly : b.apply op with
      | error v =>
        rw [feed, feed, happly]
        rfl
      | ok answer =>
        cases answer with
        | error m =>
          rw [feed, feed, happly]
          rfl
        | ok b₁ => rw [feed_operator _ _ happly, feed_operator _ _ happly, ih]

theorem feed_append_iff {before after : List Token} :
    b.feed position (before ++ after) = .ok (b', .ok ()) ↔
      ∃ b₁, b.feed position before = .ok (b₁, .ok ()) ∧
        b₁.feed (position + before.length) after = .ok (b', .ok ()) := by
  rw [feed_append, Checked.bind_eq_ok]
  constructor
  · rintro ⟨⟨b₁, outcome⟩, hbefore, hafter⟩
    cases outcome with
    | ok _ => exact ⟨b₁, hbefore, hafter⟩
    | error e => cases hafter
  · rintro ⟨b₁, hbefore, hafter⟩
    exact ⟨_, hbefore, hafter⟩

/-! ### On top of other fragments -/

/-- `big` is `small` with other fragments below. The characters that were seen do not have to be the
same, since no fragment depends on them. -/
structure Over (below : List Fragment) (small big : Builder) : Prop where
  supply_eq : big.supply = small.supply
  stack_eq : big.stack = small.stack ++ below

variable {below : List Fragment} {small small' big : Builder}

theorem Over.atom (h : small.Over below big) {c : Char} (hatom : small.atom c = .ok small') :
    ∃ big', big.atom c = .ok big' ∧ small'.Over below big' := by
  obtain ⟨_, _, alphabet'⟩ := big
  obtain ⟨rfl, rfl⟩ := h
  obtain ⟨f, hf, hatom⟩ := Checked.bind_eq_ok.mp hatom
  cases hatom
  exact ⟨_, Checked.bind_eq_ok.mpr ⟨f, hf, rfl⟩, rfl, rfl⟩

theorem Over.concatenate (h : small.Over below big)
    (hconcatenate : small.concatenate = .ok (.ok small')) :
    ∃ big', big.concatenate = .ok (.ok big') ∧ small'.Over below big' := by
  obtain ⟨_, _, alphabet'⟩ := big
  obtain ⟨rfl, rfl⟩ := h
  obtain ⟨supply, stack, alphabet⟩ := small
  match stack, hconcatenate with
  | [], hconcatenate | [_], hconcatenate => cases hconcatenate
  | right :: left :: rest, hconcatenate =>
    obtain ⟨f, hf, hconcatenate⟩ := Checked.bind_eq_ok.mp hconcatenate
    cases hconcatenate
    exact ⟨_, Checked.bind_eq_ok.mpr ⟨f, hf, rfl⟩, rfl, rfl⟩

theorem Over.star (h : small.Over below big) (hstar : small.star = .ok (.ok small')) :
    ∃ big', big.star = .ok (.ok big') ∧ small'.Over below big' := by
  obtain ⟨_, _, alphabet'⟩ := big
  obtain ⟨rfl, rfl⟩ := h
  obtain ⟨supply, stack, alphabet⟩ := small
  match stack, hstar with
  | [], hstar => cases hstar
  | inner :: rest, hstar =>
    obtain ⟨f, hf, hstar⟩ := Checked.bind_eq_ok.mp hstar
    cases hstar
    exact ⟨_, Checked.bind_eq_ok.mpr ⟨f, hf, rfl⟩, rfl, rfl⟩

theorem Over.union (h : small.Over below big) (hunion : small.union = .ok (.ok small')) :
    ∃ big', big.union = .ok (.ok big') ∧ small'.Over below big' := by
  obtain ⟨_, _, alphabet'⟩ := big
  obtain ⟨rfl, rfl⟩ := h
  obtain ⟨supply, stack, alphabet⟩ := small
  match stack, hunion with
  | [], hunion | [_], hunion => cases hunion
  | right :: left :: rest, hunion =>
    obtain ⟨f, hf, hunion⟩ := Checked.bind_eq_ok.mp hunion
    cases hunion
    exact ⟨_, Checked.bind_eq_ok.mpr ⟨f, hf, rfl⟩, rfl, rfl⟩

/-- **One step.** What succeeds without the fragments below succeeds with them. -/
theorem Over.step (h : small.Over below big) (hstep : small.Step t small') :
    ∃ big', big.Step t big' ∧ small'.Over below big' := by
  cases hstep with
  | literal hatom =>
    obtain ⟨big', hok, h'⟩ := h.atom hatom
    exact ⟨big', .literal hok, h'⟩
  | @operator _ op happly =>
    have hbig : ∃ big', big.apply op = .ok (.ok big') ∧ small'.Over below big' := by
      cases op with
      | union =>
        rw [apply_union] at happly ⊢
        exact h.union happly
      | star =>
        rw [apply_star] at happly ⊢
        exact h.star happly
      | concatenate =>
        rw [apply_concatenate] at happly ⊢
        exact h.concatenate happly
    obtain ⟨big', hok, h'⟩ := hbig
    exact ⟨big', .operator hok, h'⟩

/-- **Every run.** The fragments below stay as they are, and the ones on top of them are those that
the same tokens make without them. Positions only matter to errors. -/
theorem Over.feed (h : small.Over below big)
    (hfeed : small.feed position tokens = .ok (small', .ok ())) (position' : Nat) :
    ∃ big', big.feed position' tokens = .ok (big', .ok ()) ∧ small'.Over below big' := by
  induction tokens generalizing small big position position' with
  | nil =>
    cases hfeed
    exact ⟨big, rfl, h⟩
  | cons t tokens ih =>
    obtain ⟨small₁, hstep, hfeed⟩ := feed_cons_iff.mp hfeed
    obtain ⟨big₁, hbig, h₁⟩ := h.step hstep
    obtain ⟨big', hfeed', h'⟩ := ih h₁ hfeed (position' + 1)
    exact ⟨big', feed_cons_iff.mpr ⟨big₁, hbig, hfeed'⟩, h'⟩

end Builder

end PostfixRegex
