import Mathlib.Algebra.BigOperators.Group.List.Basic
import Mathlib.Algebra.Ring.Int.Defs
import PostfixRegex.Proofs.Compilation

/-!
# Counting operands

Whether a text is an expression, and what is wrong with it if it is none, can be told by counting.
A literal adds an operand, the star replaces one, and each of the other two operators replaces two
by one. `depth` does this sum and pays no attention to operators that lack operands, so it may even
become negative; what it says is of use up to the first such operator, and that operator is the
error. A text without one is an expression iff a single operand is left.

The count is compared with the trees that are read (`Expr.length_of_read`), and through them with
the stack of a builder. Nothing here looks at identifiers, so the verdict on a text is the same for
every supply.

## Main definitions

* `depth` — the number of operands after some tokens
* `FaultAt`, `FirstFault` — an operator that lacks operands, and the first one
* `Verdict` — what counting says of a list of tokens

## Main results

* `Verdict.unique` — counting says one thing only
* `Compilation.Outcome.verdict` — and compiling says the same
* `compile_verdict` — the verdict of the compiler on every text, with every supply
-/

namespace PostfixRegex

/-- What a token adds to the number of operands. -/
def Token.effect : Token → Int
  | literal _ => 1
  | operator .star => 0
  | operator .union => -1
  | operator .concatenate => -1

/-- The number of operands after the tokens, when every operator is taken to find its operands. -/
def depth (tokens : List Token) : Int :=
  (tokens.map Token.effect).sum

/-- At the position stands the operator, and it lacks operands. -/
def FaultAt (tokens : List Token) (position : Nat) (op : Operator) : Prop :=
  tokens[position]? = some (.operator op) ∧ depth (tokens.take position) < op.arity

/-- At the position stands the first operator that lacks operands. -/
structure FirstFault (tokens : List Token) (position : Nat) (op : Operator) : Prop where
  fault : FaultAt tokens position op
  first : ∀ earlier < position, ∀ op', ¬ FaultAt tokens earlier op'

/-- **What counting says of a list of tokens.** -/
inductive Verdict (tokens : List Token) : Except CompileError Unit → Prop where
  /-- The first operator that lacks operands, its position, how many it takes and how many there
  are. -/
  | insufficientOperands {position : Nat} {op : Operator} {available : Nat} :
      FirstFault tokens position op → depth (tokens.take position) = available →
      Verdict tokens (.error (.insufficientOperands op position op.arity available))
  /-- All operators find their operands, and the number that is left is not one. -/
  | malformed {fragments : Nat} : (∀ position op, ¬ FaultAt tokens position op) →
      depth tokens = fragments → fragments ≠ 1 → Verdict tokens (.error (.malformed fragments))
  /-- All operators find their operands, and one is left. -/
  | ok : (∀ position op, ¬ FaultAt tokens position op) → depth tokens = 1 → Verdict tokens (.ok ())

/-! ### One verdict only -/

variable {tokens before after : List Token} {position position' : Nat} {op op' : Operator}

theorem FirstFault.le (h : FirstFault tokens position op) (h' : FaultAt tokens position' op') :
    position ≤ position' := by
  by_contra hlt
  exact h.first position' (Nat.not_le.mp hlt) op' h'

theorem FirstFault.unique (h : FirstFault tokens position op)
    (h' : FirstFault tokens position' op') : position = position' ∧ op = op' := by
  obtain rfl := Nat.le_antisymm (h.le h'.fault) (h'.le h.fault)
  have hop := h.fault.1.symm.trans h'.fault.1
  exact ⟨rfl, Token.operator.inj (Option.some.inj hop)⟩

/-- Counting says one thing only. -/
theorem Verdict.unique {v v' : Except CompileError Unit} (h : Verdict tokens v)
    (h' : Verdict tokens v') : v = v' := by
  cases h with
  | insufficientOperands hfault hdepth =>
    cases h' with
    | insufficientOperands hfault' hdepth' =>
      obtain ⟨rfl, rfl⟩ := hfault.unique hfault'
      rw [Int.ofNat_inj.mp (hdepth.symm.trans hdepth')]
    | malformed hnone => exact absurd hfault.fault (hnone _ _)
    | ok hnone => exact absurd hfault.fault (hnone _ _)
  | malformed hnone hdepth hne =>
    cases h' with
    | insufficientOperands hfault => exact absurd hfault.fault (hnone _ _)
    | malformed _ hdepth' => rw [Int.ofNat_inj.mp (hdepth.symm.trans hdepth')]
    | ok _ hone => omega
  | ok hnone hone =>
    cases h' with
    | insufficientOperands hfault => exact absurd hfault.fault (hnone _ _)
    | malformed _ hdepth hne => omega
    | ok => rfl

/-! ### Counting and reading -/

/-- An operator that finds its operands changes the number of trees as counted. -/
theorem length_onTrees {trees : List Expr} (h : ¬ trees.length < op.arity) :
    ((op.onTrees trees).length : Int) = trees.length + (Token.operator op).effect := by
  match op, trees, h with
  | .union, right :: left :: rest, _ | .concatenate, right :: left :: rest, _ =>
    simp only [Operator.onTrees, Token.effect, List.length_cons]
    omega
  | .star, inner :: rest, _ =>
    simp only [Operator.onTrees, Token.effect, List.length_cons]
    omega
  | .union, [], h | .union, [_], h | .concatenate, [], h | .concatenate, [_], h | .star, [], h =>
    simp [Operator.arity] at h

/-- As long as tokens can be read, counting them counts the trees. -/
theorem Expr.length_of_read {trees trees' : List Expr} (h : Expr.read trees tokens = some trees') :
    (trees'.length : Int) = trees.length + depth tokens := by
  induction tokens generalizing trees with
  | nil =>
    obtain rfl : trees = trees' := Option.some.inj h
    simp [depth]
  | cons t tokens ih =>
    have hdepth : depth (t :: tokens) = t.effect + depth tokens := rfl
    cases t with
    | literal c =>
      rw [ih h, hdepth, List.length_cons, Token.effect]
      omega
    | operator op =>
      rw [Expr.read] at h
      split at h
      · cases h
      · next hlen =>
        rw [ih h, hdepth, length_onTrees hlen]
        omega

theorem Expr.length_of_read_nil {trees : List Expr} (h : Expr.read [] tokens = some trees) :
    depth tokens = trees.length := by
  rw [Expr.length_of_read h, List.length_nil, Int.natCast_zero, Int.zero_add]

/-- Tokens that can be read have no operator that lacks operands. -/
theorem Expr.not_faultAt_of_read {trees : List Expr} (h : Expr.read [] tokens = some trees)
    (position : Nat) (op : Operator) : ¬ FaultAt tokens position op := by
  rintro ⟨htoken, hlt⟩
  obtain ⟨hlen, hget⟩ := List.getElem?_eq_some_iff.mp htoken
  have hsplit : tokens = tokens.take position ++ .operator op :: tokens.drop (position + 1) := by
    rw [← hget, List.getElem_cons_drop, List.take_append_drop]
  -- what stands before the position can be read too, and then the count is a height
  rw [hsplit, Expr.read_append] at h
  cases hbefore : Expr.read [] (tokens.take position) with
  | none =>
    rw [hbefore] at h
    cases h
  | some trees' =>
    rw [Expr.length_of_read_nil hbefore, Int.ofNat_lt] at hlt
    rw [← Expr.read_append, Expr.read_of_length_lt hbefore hlt] at h
    cases h

/-- The operator at which reading stops is the first that lacks operands. -/
theorem Expr.firstFault_of_read {trees : List Expr} (h : Expr.read [] before = some trees)
    (hlt : trees.length < op.arity) :
    FirstFault (before ++ .operator op :: after) before.length op where
  fault := by
    refine ⟨by simp, ?_⟩
    rw [List.take_left, Expr.length_of_read_nil h]
    exact Int.ofNat_lt.mpr hlt
  first := by
    rintro earlier hearlier op' ⟨htoken, hlt'⟩
    refine Expr.not_faultAt_of_read h earlier op' ⟨?_, ?_⟩
    · rwa [List.getElem?_append_left hearlier] at htoken
    · rwa [List.take_append_of_le_length (Nat.le_of_lt hearlier)] at hlt'

/-! ### The verdict of the compiler -/

/-- However compiling ends, it says what counting says. -/
theorem Compilation.Outcome.verdict {R : Fragment → Expr → Prop} {text : String} {supply : Supply}
    {compilation : Compilation} (h : compilation.Outcome R text supply) :
    Verdict (tokenize text) (compilation.result.map fun _ => ()) := by
  cases h with
  | made hread =>
    exact .ok (Expr.not_faultAt_of_read hread) (Expr.length_of_read_nil hread)
  | leftover hread hlen =>
    exact .malformed (Expr.not_faultAt_of_read hread) (Expr.length_of_read_nil hread) hlen
  | refused htokens hbefore hlt =>
    rw [htokens]
    refine .insufficientOperands (Expr.firstFault_of_read hbefore hlt) ?_
    rw [List.take_left, Expr.length_of_read_nil hbefore]

/-- **The verdict on a text.** Counting decides what compiling answers: the first operator that
lacks operands is reported with its position and the count before it, whatever follows; without one,
the number of operands that are left is reported unless it is one; and if it is one, compiling
succeeds. The supply has no part in it. It succeeds exactly on the printed forms of trees, and no
text is the printed form of two. -/
theorem compile_verdict (text : String) :
    ∃ verdict, Verdict (tokenize text) verdict ∧
      (∀ supply, ∃ compilation, compile text supply = .ok compilation ∧
        compilation.result.map (fun _ => ()) = verdict) ∧
      (verdict = .ok () ↔ ∃ e : Expr, e.Plain ∧ e.text = text) ∧
      ∀ e e' : Expr, e.Plain → e.text = text → e'.Plain → e'.text = text → e = e' := by
  have hcompile := exists_compilation Fragment.inherited_true text
  obtain ⟨compilation, _, houtcome⟩ := hcompile {}
  refine ⟨_, houtcome.verdict, fun supply => ?_, ?_, fun e e' hplain htext hplain' htext' => ?_⟩
  · obtain ⟨other, hother, houtcome'⟩ := hcompile supply
    exact ⟨other, hother, houtcome'.verdict.unique houtcome.verdict⟩
  · rcases houtcome.comesFrom_or_error with ⟨e, n, htokens, hresult, _⟩ | ⟨hnone, error, hresult⟩
    · rw [hresult]
      exact iff_of_true rfl ⟨e, Expr.tokenize_eq_tokens_iff.mp htokens⟩
    · rw [hresult]
      refine iff_of_false (fun h => by cases h) fun ⟨e, he⟩ => hnone e ?_
      exact Expr.tokenize_eq_tokens_iff.mpr he
  · have htokens := Expr.tokenize_eq_tokens_iff.mpr ⟨hplain, htext⟩
    have htokens' := Expr.tokenize_eq_tokens_iff.mpr ⟨hplain', htext'⟩
    exact Expr.tokens_injective (htokens.symm.trans htokens')

-- a position counts characters, and what follows the first fault has no part in the answer
example : (compile "é&b*" {}).toOption.map (fun c => c.result.map fun _ => ()) =
    some (.error (.insufficientOperands .concatenate 1 2 1)) := by
  cbv

end PostfixRegex
