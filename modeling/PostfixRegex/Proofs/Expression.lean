import Mathlib.Computability.Language
import PostfixRegex.Token
import PostfixRegex.Word

/-!
# Regular expressions as trees

A postfix expression is the printed form of a tree, and this module holds the tree, its language and
its printed form. Languages and their operations are those of the library.

The printed form puts an operator behind its operands, so a stack of trees is enough to read it: a
literal pushes a leaf and an operator replaces its operands. `Expr.read` is that machine. It is no
second parser to be trusted, because it inverts printing in both directions
(`Expr.read_eq_singleton_iff`); in particular a text is the printed form of at most one tree.

Any character may be a literal of a tree. Only a `Plain` tree can be written down, because an
operator character in a text is always read as the operator.

## Main definitions

* `Expr` — literals, union, concatenation and star
* `Expr.language` — the words that an expression describes
* `Expr.tokens`, `Expr.text` — the printed form
* `Expr.read` — reading tokens onto a stack of trees

## Main results

* `Expr.read_eq_singleton_iff` — reading yields one tree iff the tokens are its printed form
* `Expr.tokenize_eq_tokens_iff` — the texts that are printed forms
* `Expr.mem_literals_of_mem_language` — words consist of literals of the expression
-/

namespace PostfixRegex

open Computability

/-- A regular expression. -/
inductive Expr where
  | literal (c : Char)
  | union (left right : Expr)
  | concatenate (left right : Expr)
  | star (inner : Expr)
deriving DecidableEq

/-- What an operator does to a stack of trees, the topmost first: the lower one of two operands is
the left one. A stack that is too short stays as it is. -/
def Operator.onTrees : Operator → List Expr → List Expr
  | union, right :: left :: rest => .union left right :: rest
  | concatenate, right :: left :: rest => .concatenate left right :: rest
  | star, inner :: rest => .star inner :: rest
  | _, trees => trees

namespace Expr

/-- The words that the expression describes. -/
def language : Expr → Language Char
  | literal c => {[c]}
  | union left right => left.language + right.language
  | concatenate left right => left.language * right.language
  | star inner => inner.language∗

/-- The literals from left to right. -/
def literals : Expr → List Char
  | literal c => [c]
  | union left right => left.literals ++ right.literals
  | concatenate left right => left.literals ++ right.literals
  | star inner => inner.literals

/-- The postfix form: operands first, the left one before the right one. -/
def tokens : Expr → List Token
  | literal c => [.literal c]
  | union left right => left.tokens ++ right.tokens ++ [.operator .union]
  | concatenate left right => left.tokens ++ right.tokens ++ [.operator .concatenate]
  | star inner => inner.tokens ++ [.operator .star]

/-- The postfix form as a text. -/
def text (e : Expr) : String :=
  String.ofList (e.tokens.map Token.char)

/-- No literal is one of the characters that denote operators. -/
def Plain (e : Expr) : Prop := ∀ c ∈ e.literals, c ≠ '|' ∧ c ≠ '*' ∧ c ≠ '&'

/-! ### Words and literals -/

/-- A word of the language consists of literals of the expression. -/
theorem mem_literals_of_mem_language {e : Expr} {w : Word} (h : w ∈ e.language) {c : Char}
    (hc : c ∈ w) : c ∈ e.literals := by
  induction e generalizing w with
  | literal d =>
    obtain rfl : w = [d] := h
    exact hc
  | union left right ihl ihr =>
    rcases h with h | h
    · exact List.mem_append_left _ (ihl h hc)
    · exact List.mem_append_right _ (ihr h hc)
  | concatenate left right ihl ihr =>
    obtain ⟨u, hu, v, hv, rfl⟩ := Language.mem_mul.mp h
    rcases List.mem_append.mp hc with hc | hc
    · exact List.mem_append_left _ (ihl hu hc)
    · exact List.mem_append_right _ (ihr hv hc)
  | star inner ih =>
    obtain ⟨us, rfl, hus⟩ := Language.mem_kstar.mp h
    obtain ⟨u, hu, hc⟩ := List.mem_flatten.mp hc
    exact ih (hus u hu) hc

theorem literal_mem_tokens_iff {e : Expr} {c : Char} :
    .literal c ∈ e.tokens ↔ c ∈ e.literals := by
  induction e with
  | literal d => simp [tokens, literals]
  | union left right ihl ihr => simp [tokens, literals, ihl, ihr]
  | concatenate left right ihl ihr => simp [tokens, literals, ihl, ihr]
  | star inner ih => simp [tokens, literals, ih]

/-! ### Reading the postfix form -/

/-- Reads tokens onto a stack of trees, unless an operator lacks operands. -/
def read (trees : List Expr) : List Token → Option (List Expr)
  | [] => some trees
  | .literal c :: tokens => read (.literal c :: trees) tokens
  | .operator op :: tokens =>
    if trees.length < op.arity then none else read (op.onTrees trees) tokens

theorem read_append (trees : List Expr) (xs ys : List Token) :
    read trees (xs ++ ys) = (read trees xs).bind fun trees' => read trees' ys := by
  induction xs generalizing trees with
  | nil => rfl
  | cons t xs ih =>
    cases t with
    | literal c => exact ih _
    | operator op =>
      rw [List.cons_append, read, read]
      split
      · rfl
      · exact ih _

/-- Reading stops at an operator that lacks operands. -/
theorem read_of_length_lt {trees trees' : List Expr} {before after : List Token} {op : Operator}
    (h : read trees before = some trees') (hlt : trees'.length < op.arity) :
    read trees (before ++ .operator op :: after) = none := by
  rw [read_append, h, Option.bind_some, read, if_pos hlt]

/-- Reading the printed form of a tree pushes the tree. -/
theorem read_tokens (e : Expr) (trees : List Expr) (rest : List Token) :
    read trees (e.tokens ++ rest) = read (e :: trees) rest := by
  induction e generalizing trees rest with
  | literal c => rfl
  | union left right ihl ihr =>
    rw [tokens, List.append_assoc, List.append_assoc, ihl, ihr]
    rfl
  | concatenate left right ihl ihr =>
    rw [tokens, List.append_assoc, List.append_assoc, ihl, ihr]
    rfl
  | star inner ih =>
    rw [tokens, List.append_assoc, ih]
    rfl

/-- The printed forms of the trees on a stack, the lowest first. -/
def stackTokens (trees : List Expr) : List Token :=
  trees.reverse.flatMap tokens

@[simp] theorem stackTokens_cons (e : Expr) (trees : List Expr) :
    stackTokens (e :: trees) = stackTokens trees ++ e.tokens := by
  simp [stackTokens]

/-- Applying an operator prints it behind its operands. -/
theorem stackTokens_onTrees {op : Operator} {trees : List Expr}
    (h : ¬ trees.length < op.arity) :
    stackTokens (op.onTrees trees) = stackTokens trees ++ [.operator op] := by
  match op, trees, h with
  | .union, right :: left :: rest, _ => simp [Operator.onTrees, tokens]
  | .concatenate, right :: left :: rest, _ => simp [Operator.onTrees, tokens]
  | .star, inner :: rest, _ => simp [Operator.onTrees, tokens]
  | .union, [], h | .union, [_], h | .concatenate, [], h | .concatenate, [_], h | .star, [], h =>
    simp [Operator.arity] at h

/-- What was read can be printed again. -/
theorem stackTokens_of_read {trees trees' : List Expr} {ts : List Token}
    (h : read trees ts = some trees') : stackTokens trees' = stackTokens trees ++ ts := by
  induction ts generalizing trees with
  | nil =>
    obtain rfl : trees = trees' := Option.some.inj h
    rw [List.append_nil]
  | cons t ts ih =>
    cases t with
    | literal c =>
      rw [ih h, stackTokens_cons, List.append_assoc]
      rfl
    | operator op =>
      rw [read] at h
      split at h
      · cases h
      · next hlen => rw [ih h, stackTokens_onTrees hlen, List.append_assoc, List.singleton_append]

/-- **Unique readability.** Reading yields one tree iff the tokens are its printed form. -/
theorem read_eq_singleton_iff {e : Expr} {ts : List Token} :
    read [] ts = some [e] ↔ ts = e.tokens := by
  constructor
  · intro h
    have := stackTokens_of_read h
    simpa [stackTokens] using this.symm
  · rintro rfl
    have := read_tokens e [] []
    rwa [List.append_nil] at this

theorem tokens_injective {e e' : Expr} (h : e.tokens = e'.tokens) : e = e' := by
  have h₁ := read_eq_singleton_iff.mpr (Eq.refl e.tokens)
  have h₂ := read_eq_singleton_iff.mpr h
  rw [h₁] at h₂
  exact List.singleton_inj.mp (Option.some.inj h₂)

/-! ### Texts -/

theorem ofChar?_eq_none_iff {c : Char} :
    Operator.ofChar? c = none ↔ c ≠ '|' ∧ c ≠ '*' ∧ c ≠ '&' := by
  rw [Operator.ofChar?]
  split
  · next h => simp [h]
  · split
    · next h => simp [h]
    · split
      · next h => simp [h]
      · next h₁ h₂ h₃ => simp [h₁, h₂, h₃]

/-- Tokens that come from a text can be printed as that text. -/
theorem tokenize_eq_tokens_iff {s : String} {e : Expr} :
    tokenize s = e.tokens ↔ e.Plain ∧ e.text = s := by
  constructor
  · intro h
    constructor
    · intro c hc
      have hmem : .literal c ∈ tokenize s := h ▸ literal_mem_tokens_iff.mpr hc
      obtain ⟨d, _, hd⟩ := List.mem_map.mp hmem
      obtain ⟨rfl, hnone⟩ := Token.ofChar_eq_literal_iff.mp hd
      exact ofChar?_eq_none_iff.mp hnone
    · rw [text, ← h, map_char_tokenize, String.ofList_toList]
  · rintro ⟨hplain, rfl⟩
    rw [tokenize, text, String.toList_ofList, List.map_map]
    -- each token is read back from its character
    refine (List.map_congr_left fun t ht => ?_).trans (List.map_id e.tokens)
    cases t with
    | literal c =>
      have hnone := ofChar?_eq_none_iff.mpr (hplain c (literal_mem_tokens_iff.mp ht))
      exact Token.ofChar_eq_literal_iff.mpr ⟨rfl, hnone⟩
    | operator op => exact Token.ofChar_char_operator op

example : tokenize "ab|*c&" =
    (concatenate (star (union (literal 'a') (literal 'b'))) (literal 'c')).tokens := by
  decide

end Expr

end PostfixRegex
