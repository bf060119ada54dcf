import Mathlib.Data.List.Chain
import PostfixRegex.Proofs.Fragment.Labels
import PostfixRegex.Sampling.Draft

/-!
# Expressions in pieces

A piece is a literal or a binary operator with at most one star behind it. This module says which
texts consist of pieces that are in a good order, without a word about drawing them.

Which piece may come next depends on two numbers only, the literals still to be written and the
operands that there are. `Completes` lists the pieces that lead from any two such numbers to no
literal and one operand. An induction over it gives how many pieces there are, which literals they
have and that they can be read; so the text of pieces that start without an operand is `Drawable`,
and there are no other drawable texts (`drawable_iff`).

The converse is the half that needs care. A text must be cut into pieces from left to right, and a
star belongs to the piece in front of it. So what has not been cut yet must not start with a star,
although a star stands in front of it in the worst case: the tokens form a chain with one more star
at the head.

## Main definitions

* `Piece.tokens` — a piece as tokens
* `Completes` — pieces that complete an expression
* `Drawable` — the texts with given literals and no two stars in a row

## Main results

* `Completes.length_add_one` — the number of pieces
* `Completes.exists_read` — the pieces make one tree out of the trees on a stack
* `exists_completes` — tokens that can be read are pieces, if no two stars stand in a row
* `drawable_iff` — the drawable texts are those of the pieces that complete an expression
-/

namespace PostfixRegex

/-! ### Pieces as tokens -/

namespace Piece

/-- The tokens of a piece. -/
def tokens (p : Piece) : List Token :=
  p.token :: if p.starred then [.operator .star] else []

theorem map_char_tokens (p : Piece) : p.tokens.map Token.char = p.chars := by
  rw [tokens, chars, List.map_cons]
  split <;> rfl

/-- The text of some pieces is that of their tokens. -/
theorem text_eq (ps : List Piece) :
    text ps = String.ofList ((ps.flatMap tokens).map Token.char) := by
  rw [text, List.map_flatMap]
  simp only [map_char_tokens]

@[simp] theorem literalsOf_literal (c : Char) (starred : Bool) :
    literalsOf (tokens ⟨.literal c, starred⟩) = [c] := by
  cases starred <;> rfl

@[simp] theorem literalsOf_operator (op : Operator) (starred : Bool) :
    literalsOf (tokens ⟨.operator op, starred⟩) = [] := by
  cases starred <;> rfl

/-- A literal is one tree more, whether it has a star or not. -/
theorem exists_read_literal (c : Char) (starred : Bool) (trees : List Expr) :
    ∃ e, ∀ ts,
      Expr.read trees (tokens ⟨.literal c, starred⟩ ++ ts) = Expr.read (e :: trees) ts := by
  cases starred with
  | false => exact ⟨.literal c, fun _ => rfl⟩
  | true => exact ⟨.star (.literal c), fun _ => rfl⟩

/-- A binary operator makes one tree out of two. -/
theorem exists_read_operator {op : Operator} (hop : op ≠ .star) (starred : Bool)
    (left right : Expr) (trees : List Expr) :
    ∃ e, ∀ ts, Expr.read (right :: left :: trees) (tokens ⟨.operator op, starred⟩ ++ ts) =
      Expr.read (e :: trees) ts := by
  match op, starred, hop with
  | .union, false, _ => exact ⟨.union left right, fun _ => rfl⟩
  | .union, true, _ => exact ⟨.star (.union left right), fun _ => rfl⟩
  | .concatenate, false, _ => exact ⟨.concatenate left right, fun _ => rfl⟩
  | .concatenate, true, _ => exact ⟨.star (.concatenate left right), fun _ => rfl⟩

end Piece

/-! ### Pieces in a good order -/

/-- The pieces complete an expression, given the literals still to be written and the number of
operands there are. -/
inductive Completes (symbols : List Char) : (remaining operands : Nat) → List Piece → Prop where
  | done : Completes symbols 0 1 []
  | literal {remaining operands : Nat} {c : Char} {starred : Bool} {ps : List Piece} :
      c ∈ symbols → Completes symbols remaining (operands + 1) ps →
      Completes symbols (remaining + 1) operands (⟨.literal c, starred⟩ :: ps)
  | operator {remaining operands : Nat} {op : Operator} {starred : Bool} {ps : List Piece} :
      op ≠ .star → Completes symbols remaining (operands + 1) ps →
      Completes symbols remaining (operands + 2) (⟨.operator op, starred⟩ :: ps)

namespace Completes

variable {symbols : List Char} {remaining operands : Nat} {ps : List Piece}

/-- Each literal costs two pieces, itself and the operator that takes it up; an operand that is
there already costs one, and one operand is left. -/
theorem length_add_one (h : Completes symbols remaining operands ps) :
    ps.length + 1 = 2 * remaining + operands := by
  induction h with
  | done => rfl
  | literal _ _ ih => rw [List.length_cons]; omega
  | operator _ _ ih => rw [List.length_cons]; omega

theorem length_literals (h : Completes symbols remaining operands ps) :
    (literalsOf (ps.flatMap Piece.tokens)).length = remaining := by
  induction h with
  | done => rfl
  | literal _ _ ih => simp [ih]
  | operator _ _ ih => simp [ih]

theorem mem_symbols (h : Completes symbols remaining operands ps) {c : Char}
    (hc : c ∈ literalsOf (ps.flatMap Piece.tokens)) : c ∈ symbols := by
  induction h with
  | done => cases hc
  | literal hmem _ ih =>
    rw [List.flatMap_cons, literalsOf_append, Piece.literalsOf_literal] at hc
    rcases List.mem_cons.mp hc with rfl | hc
    · exact hmem
    · exact ih hc
  | operator _ _ ih =>
    rw [List.flatMap_cons, literalsOf_append, Piece.literalsOf_operator] at hc
    exact ih hc

/-- There are as many trees as operands in the beginning and one tree in the end. -/
theorem exists_read (h : Completes symbols remaining operands ps) {trees : List Expr}
    (hlen : trees.length = operands) :
    ∃ e, Expr.read trees (ps.flatMap Piece.tokens) = some [e] := by
  induction h generalizing trees with
  | done =>
    obtain ⟨e, rfl⟩ := List.length_eq_one_iff.mp hlen
    exact ⟨e, rfl⟩
  | @literal _ _ c starred _ _ _ ih =>
    obtain ⟨e, he⟩ := Piece.exists_read_literal c starred trees
    rw [List.flatMap_cons, he]
    exact ih (by rw [List.length_cons, hlen])
  | @operator _ _ _ starred _ hop _ ih =>
    match trees, hlen with
    | right :: left :: trees, hlen =>
      obtain ⟨e, he⟩ := Piece.exists_read_operator hop starred left right trees
      rw [List.flatMap_cons, he]
      exact ih (by simpa using hlen)

/-- A piece does not start with a star. -/
theorem token_ne_star (h : Completes symbols remaining operands ps) {p : Piece} (hp : p ∈ ps) :
    p.token ≠ .operator .star := by
  induction h with
  | done => cases hp
  | literal _ _ ih =>
    rcases List.mem_cons.mp hp with rfl | hp
    · exact Token.noConfusion
    · exact ih hp
  | operator hop _ ih =>
    rcases List.mem_cons.mp hp with rfl | hp
    · exact fun heq => hop (Token.operator.inj heq)
    · exact ih hp

end Completes

/-- There are at most as many stars as pieces. -/
theorem Piece.count_star_le {ps : List Piece} (h : ∀ p ∈ ps, p.token ≠ .operator .star) :
    (ps.flatMap tokens).count (.operator .star) ≤ ps.length := by
  induction ps with
  | nil => rfl
  | cons p ps ih =>
    have hp : p.tokens.count (.operator .star) ≤ 1 := by
      rw [tokens, List.count_cons_of_ne (h p List.mem_cons_self)]
      split <;> decide
    have := ih fun q hq => h q (List.mem_cons_of_mem p hq)
    rw [List.flatMap_cons, List.count_append, List.length_cons]
    omega

/-! ### Stars in a row -/

/-- The tokens are not both stars. -/
def Token.Apart (x y : Token) : Prop :=
  ¬ (x = .operator .star ∧ y = .operator .star)

theorem Token.isChain_cons_of_ne_star {t : Token} {ts : List Token} (ht : t ≠ .operator .star)
    (h : (.operator .star :: ts).IsChain Apart) : (t :: ts).IsChain Apart := by
  cases ts with
  | nil => exact .singleton t
  | cons u us => exact .cons_cons (fun hboth => ht hboth.1) h.tail

/-- No two tokens are stars in a row exactly when no two characters are. -/
theorem isChain_tokenize_iff {text : String} :
    (tokenize text).IsChain Token.Apart ↔
      text.toList.IsChain fun x y => ¬ (x = '*' ∧ y = '*') := by
  have hstar : ∀ x, Token.ofChar x = .operator .star ↔ x = '*' :=
    fun x => ⟨fun h => Token.ofChar_injective h, fun h => h ▸ rfl⟩
  rw [tokenize, List.isChain_map]
  simp only [Token.Apart, hstar]

/-- No two stars meet among pieces, not even when one more stands in front. -/
theorem Piece.isChain_tokens {ps : List Piece} (h : ∀ p ∈ ps, p.token ≠ .operator .star) :
    (.operator .star :: ps.flatMap tokens).IsChain Token.Apart := by
  induction ps with
  | nil => exact .singleton _
  | cons p ps ih =>
    have hp := h p List.mem_cons_self
    have hrest := ih fun q hq => h q (List.mem_cons_of_mem p hq)
    rw [List.flatMap_cons, tokens, List.cons_append]
    refine .cons_cons (fun hboth => hp hboth.2) ?_
    split
    · exact .cons_cons (fun hboth => hp hboth.1) hrest
    · exact Token.isChain_cons_of_ne_star hp hrest

/-- The first piece can be cut off, and what is left does not start with a star. -/
theorem Piece.exists_cut {t : Token} {ts : List Token} (h : (t :: ts).IsChain Token.Apart) :
    ∃ starred rest, t :: ts = tokens ⟨t, starred⟩ ++ rest ∧
      (.operator .star :: rest).IsChain Token.Apart := by
  cases ts with
  | nil => exact ⟨false, [], rfl, .singleton _⟩
  | cons u us =>
    by_cases hu : u = .operator .star
    · subst hu
      exact ⟨true, us, rfl, h.tail⟩
    · exact ⟨false, u :: us, rfl, .cons_cons (fun hboth => hu hboth.2) h.tail⟩

/-- A binary operator can be read only if there are two trees. -/
theorem Expr.exists_of_read_operator {op : Operator} (hop : op ≠ .star) {trees trees' : List Expr}
    {ts : List Token} (h : read trees (.operator op :: ts) = some trees') :
    ∃ right left rest, trees = right :: left :: rest := by
  match op, trees, hop with
  | _, right :: left :: rest, _ => exact ⟨right, left, rest, rfl⟩
  | .union, [], _ | .union, [_], _ | .concatenate, [], _ | .concatenate, [_], _ => cases h

/-- What is read without any tree does not start with a star. -/
theorem Token.isChain_star_cons {ts : List Token} {trees : List Expr}
    (hread : Expr.read [] ts = some trees) (h : ts.IsChain Apart) :
    (.operator .star :: ts).IsChain Apart := by
  cases ts with
  | nil => exact .singleton _
  | cons t us =>
    refine .cons_cons (fun hboth => ?_) h
    rw [hboth.2] at hread
    cases hread

/-- **Cutting into pieces.** Tokens that make one tree out of some trees are pieces in a good order,
if no two stars stand in a row and no star stands at the head. -/
theorem exists_completes {symbols : List Char} {ts : List Token} {trees : List Expr} {e : Expr}
    (hread : Expr.read trees ts = some [e])
    (hchain : (.operator .star :: ts).IsChain Token.Apart)
    (hmem : ∀ c ∈ literalsOf ts, c ∈ symbols) :
    ∃ ps, ps.flatMap Piece.tokens = ts ∧
      Completes symbols (literalsOf ts).length trees.length ps := by
  -- on the number of tokens, since a piece may have two of them
  induction hlen : ts.length using Nat.strong_induction_on generalizing ts trees with
  | h n ih =>
    subst hlen
    cases ts with
    | nil =>
      obtain rfl := Option.some.inj hread
      exact ⟨[], rfl, .done⟩
    | cons t us =>
      have ht : t ≠ .operator .star := fun heq => hchain.rel ⟨rfl, heq⟩
      obtain ⟨starred, rest, hcut, hrest⟩ := Piece.exists_cut hchain.tail
      have hlt : rest.length < (t :: us).length := by
        rw [hcut, List.length_append, Piece.tokens, List.length_cons]
        omega
      cases t with
      | literal c =>
        obtain ⟨e', he⟩ := Piece.exists_read_literal c starred trees
        rw [hcut, literalsOf_append, Piece.literalsOf_literal] at hmem
        rw [hcut, he] at hread
        obtain ⟨ps, hps, hcompletes⟩ := ih rest.length hlt hread hrest
          (fun d hd => hmem d (List.mem_cons_of_mem c hd)) rfl
        refine ⟨⟨.literal c, starred⟩ :: ps, by rw [List.flatMap_cons, hps, hcut], ?_⟩
        rw [hcut, literalsOf_append, Piece.literalsOf_literal]
        exact .literal (hmem c List.mem_cons_self) hcompletes
      | operator op =>
        have hop : op ≠ .star := fun heq => ht (congrArg Token.operator heq)
        obtain ⟨right, left, trees, rfl⟩ := Expr.exists_of_read_operator hop hread
        obtain ⟨e', he⟩ := Piece.exists_read_operator hop starred left right trees
        rw [hcut, literalsOf_append, Piece.literalsOf_operator] at hmem
        rw [hcut, he] at hread
        obtain ⟨ps, hps, hcompletes⟩ := ih rest.length hlt hread hrest hmem rfl
        refine ⟨⟨.operator op, starred⟩ :: ps, by rw [List.flatMap_cons, hps, hcut], ?_⟩
        rw [hcut, literalsOf_append, Piece.literalsOf_operator]
        exact .operator hop hcompletes

/-! ### What can be drawn -/

/-- The text is well formed, has the given number of literals, each of them one of the symbols, and
no two stars in a row. -/
structure Drawable (n : Nat) (symbols : List Char) (text : String) : Prop where
  wellFormed : ∃ e : Expr, e.Plain ∧ e.text = text
  length_literals : (literalsOf (tokenize text)).length = n
  mem_symbols : ∀ c ∈ literalsOf (tokenize text), c ∈ symbols
  no_double_star : text.toList.IsChain fun x y => ¬ (x = '*' ∧ y = '*')

section Texts

variable {n : Nat} {symbols : List Char} {text : String} {ps : List Piece}

/-- Unions and concatenations make one expression out of the literals. -/
theorem Drawable.binary_add_one (h : Drawable n symbols text) :
    (tally (tokenize text)).unions + (tally (tokenize text)).concatenations + 1 = n := by
  obtain ⟨e, he⟩ := h.wellFormed
  have htokens := Expr.tokenize_eq_tokens_iff.mpr he
  have hlen := h.length_literals
  rw [htokens] at hlen ⊢
  exact (Expr.tally_tokens e).trans hlen

/-- Pieces that complete nothing are the printed form of an expression. -/
theorem Completes.exists_expr (h : Completes symbols n 0 ps)
    (hplain : ∀ c ∈ symbols, Operator.ofChar? c = none) :
    ∃ e : Expr, e.Plain ∧ e.text = Piece.text ps ∧ e.tokens = ps.flatMap Piece.tokens := by
  obtain ⟨e, hread⟩ := h.exists_read List.length_nil
  have htokens := Expr.read_eq_singleton_iff.mp hread
  refine ⟨e, fun c hc => ?_, by rw [Expr.text, ← htokens, Piece.text_eq], htokens.symm⟩
  rw [← Expr.literalsOf_tokens, ← htokens] at hc
  exact Expr.ofChar?_eq_none_iff.mp (hplain c (h.mem_symbols hc))

/-- Reading the text of such pieces gives their tokens back. -/
theorem Completes.tokenize_text (h : Completes symbols n 0 ps)
    (hplain : ∀ c ∈ symbols, Operator.ofChar? c = none) :
    tokenize (Piece.text ps) = ps.flatMap Piece.tokens := by
  obtain ⟨e, he, htext, htokens⟩ := h.exists_expr hplain
  rw [← htokens]
  exact Expr.tokenize_eq_tokens_iff.mpr ⟨he, htext⟩

theorem Completes.count_star_le (h : Completes symbols n 0 ps)
    (hplain : ∀ c ∈ symbols, Operator.ofChar? c = none) :
    (tally (tokenize (Piece.text ps))).stars ≤ ps.length := by
  rw [h.tokenize_text hplain]
  exact Piece.count_star_le fun p => h.token_ne_star

/-- **The drawable texts** are those of the pieces that complete an expression from nothing. -/
theorem drawable_iff (hplain : ∀ c ∈ symbols, Operator.ofChar? c = none) :
    Drawable n symbols text ↔ ∃ ps, Completes symbols n 0 ps ∧ Piece.text ps = text := by
  constructor
  · intro h
    obtain ⟨e, he⟩ := h.wellFormed
    have htokens := Expr.tokenize_eq_tokens_iff.mpr he
    have hread := Expr.read_eq_singleton_iff.mpr htokens
    have hchain := isChain_tokenize_iff.mpr h.no_double_star
    obtain ⟨ps, hps, hcompletes⟩ :=
      exists_completes hread (Token.isChain_star_cons hread hchain) h.mem_symbols
    rw [h.length_literals] at hcompletes
    refine ⟨ps, hcompletes, ?_⟩
    rw [Piece.text_eq, hps, map_char_tokenize, String.ofList_toList]
  · rintro ⟨ps, h, rfl⟩
    have htokens := h.tokenize_text hplain
    obtain ⟨e, he, htext, _⟩ := h.exists_expr hplain
    exact {
      wellFormed := ⟨e, he, htext⟩
      length_literals := by rw [htokens, h.length_literals]
      mem_symbols := fun c hc => h.mem_symbols (htokens ▸ hc)
      no_double_star := by
        rw [← isChain_tokenize_iff, htokens]
        exact (Piece.isChain_tokens fun p => h.token_ne_star).tail }

end Texts

end PostfixRegex
