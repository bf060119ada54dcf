import PostfixRegex.Proofs.Sampling.Soundness

/-!
# What can be drawn

Every drawable text is drawn by some source, and no clever source is needed for that. A script says
in advance how each coin falls and what each choice is; the source that follows it keeps the script
as its state and knows nothing else. It assumes of a coin that it can fall both ways if its chance
is neither none nor certain, and of a choice that it can be any of the things to choose from.

A draw that a script does not provide for spoils the script for good: a coin is thrown where the
script has a choice, or falls a way that its chance excludes, or the script has come to its end. So
a script that is empty at the end was followed draw by draw.

That a computation may yield some value means that some draws make it do so, whatever comes after
them (`Script.May`). It composes along the computation. What a computation may yield first is
decided before what it may yield then, and so the draws for the pieces of an expression are found
piece by piece, from the first to the last.

## Main definitions

* `Draw`, `Script`, `Script.source` — the source that follows a script
* `Script.May` — what a computation may yield

## Main results

* `Script.may_literalNext` — the pieces that fit are the ones that may come next
* `Script.may_pieces` — whatever completes a draft may be drawn
* `Script.exists_draws` — every drawable text is drawn with some script
-/

namespace PostfixRegex

/-- Whether a coin with this chance can fall this way. -/
def Chance.allows (chance : Chance) (yes : Bool) : Bool :=
  if yes then 0 < chance.threshold else chance.threshold < UInt64.size

/-- The outcome of a draw. -/
inductive Draw where
  | coin (yes : Bool)
  | pick (index : Nat)
deriving DecidableEq

/-- The outcomes of all draws to come, unless a draw was not provided for. -/
abbrev Script := Option (List Draw)

namespace Script

/-- The next outcome must be a way the coin can fall. -/
def coin (chance : Chance) : StateM Script Bool := fun
  | some (.coin yes :: draws) => (yes, if chance.allows yes then some draws else none)
  | _ => (false, none)

/-- The next outcome must be one of the things to choose from. -/
def pick (n : Nat) : StateM Script (Fin (n + 1)) := fun
  | some (.pick i :: draws) => if h : i < n + 1 then (⟨i, h⟩, some draws) else (0, none)
  | _ => (0, none)

/-- The source that follows a script. -/
def source : Source Script := ⟨coin, pick⟩

/-! ### What a computation may yield -/

/-- Some draws make the computation yield `a`, and it draws nothing else. -/
def May {α : Type} (x : StateM Script α) (a : α) : Prop :=
  ∃ draws, ∀ rest, x.run (some (draws ++ rest)) = (a, some rest)

section May

variable {α β : Type} {x : StateM Script α} {a : α} {b : β}

theorem may_pure (a : α) : May (pure a) a :=
  ⟨[], fun _ => rfl⟩

theorem May.bind {f : α → StateM Script β} (hx : May x a) (hf : May (f a) b) :
    May (x >>= f) b := by
  obtain ⟨draws, hx⟩ := hx
  obtain ⟨draws', hf⟩ := hf
  refine ⟨draws ++ draws', fun rest => ?_⟩
  rw [List.append_assoc, Source.run_bind (hx _)]
  exact hf rest

theorem may_coin {chance : Chance} (h : 0 < chance.threshold ∧ chance.threshold < UInt64.size)
    (yes : Bool) : May (source.coin chance) yes := by
  have hallows : chance.allows yes = true := by
    cases yes with
    | true => exact decide_eq_true h.1
    | false => exact decide_eq_true h.2
  refine ⟨[.coin yes], fun rest => ?_⟩
  exact congrArg (Prod.mk yes) (if_pos hallows)

theorem may_half (yes : Bool) : May (source.coin .half) yes :=
  may_coin (by decide) yes

theorem may_pick {n : Nat} (i : Fin (n + 1)) : May (source.pick n) i := by
  refine ⟨[.pick i], fun rest => ?_⟩
  exact dif_pos i.isLt

end May

/-! ### Pieces -/

theorem may_literal {c x : Char} {cs : List Char} (hx : x ∈ c :: cs) (starred : Bool) :
    May (source.literal c cs) ⟨.literal x, starred⟩ := by
  obtain ⟨i, hi, rfl⟩ := List.getElem_of_mem hx
  exact (may_pick ⟨i, hi⟩).bind ((may_coin (by decide) starred).bind (may_pure _))

theorem may_binary {op : Operator} (hop : op ≠ .star) (starred : Bool) :
    May source.binary ⟨.operator op, starred⟩ := by
  have hstar : May (source.coin .tenth) starred := may_coin (by decide) starred
  match op, hop with
  | .union, _ => exact (may_half true).bind (hstar.bind (may_pure _))
  | .concatenate, _ => exact (may_half false).bind (hstar.bind (may_pure _))

/-- A literal may come next if one remains, an operator if there are two operands. -/
theorem may_literalNext {remaining operands : Nat} {yes : Bool}
    (h : if yes then 0 < remaining else 1 < operands) :
    May (source.literalNext remaining operands) yes := by
  rw [Source.literalNext]
  by_cases hremaining : remaining = 0
  · cases yes with
    | true => exact absurd hremaining (Nat.ne_of_gt h)
    | false =>
      rw [if_pos hremaining]
      exact may_pure false
  · rw [if_neg hremaining]
    by_cases hoperands : operands < 2
    · cases yes with
      | true =>
        rw [if_pos hoperands]
        exact may_pure true
      | false => exact absurd hoperands (Nat.not_lt_of_ge h)
    · rw [if_neg hoperands]
      exact may_half yes

/-- **Every completion may be drawn.** -/
theorem may_pieces {c : Char} {cs : List Char} {remaining operands : Nat} {ps : List Piece}
    (h : Completes (c :: cs) remaining operands ps) :
    May (source.pieces c cs remaining operands) ps := by
  induction h with
  | done =>
    rw [source.pieces_zero_one]
    exact may_pure []
  | @literal remaining operands x starred ps hmem _ ih =>
    rw [source.pieces_of_open c cs (.inl remaining.succ_pos)]
    have hnext : May (source.literalNext (remaining + 1) operands) true :=
      may_literalNext remaining.succ_pos
    refine hnext.bind ?_
    rw [if_pos rfl]
    exact (may_literal hmem starred).bind (ih.bind (may_pure _))
  | @operator remaining operands op starred ps hop _ ih =>
    have hoperands : 1 < operands + 2 := by omega
    rw [source.pieces_of_open c cs (.inr hoperands)]
    have hnext : May (source.literalNext remaining (operands + 2)) false :=
      may_literalNext hoperands
    refine hnext.bind ?_
    rw [if_neg Bool.false_ne_true]
    exact (may_binary hop starred).bind (ih.bind (may_pure _))

/-! ### Texts -/

/-- **Every drawable text is drawn.** With the right draws, and without any others, the source draws
the pieces of the text, and the loop leaves the text behind. -/
theorem exists_draws {n : Nat} {symbols : List Char} {text : String}
    (hplain : ∀ c ∈ symbols, Operator.ofChar? c = none) (h : Drawable n symbols text) :
    ∃ draws ps, Piece.text ps = text ∧
      (source.expression n symbols).run.run (some draws) = (.ok ps, some []) ∧
      source.Ends symbols { remaining := n } (some draws) (2 * n - 1) ⟨text, 0, 1⟩ (some []) := by
  obtain ⟨ps, hcompletes, rfl⟩ := (drawable_iff hplain).mp h
  have hlength := hcompletes.length_add_one
  have hn : 0 < n := by omega
  have hsymbols : symbols ≠ [] := by
    have hliterals := hcompletes.length_literals
    obtain ⟨c, hc⟩ := List.exists_mem_of_length_pos (hliterals ▸ hn)
    exact List.ne_nil_of_mem (hcompletes.mem_symbols hc)
  obtain ⟨c, cs, rfl⟩ := List.exists_cons_of_ne_nil hsymbols
  obtain ⟨draws, hdraws⟩ := may_pieces hcompletes
  have hpieces := hdraws []
  rw [List.append_nil] at hpieces
  have hrun := source.run_expression c cs hn hplain hpieces
  obtain ⟨ps', s', hrun', _, hends⟩ := source.exists_expression hn hsymbols hplain (some draws)
  obtain ⟨rfl, rfl⟩ : ps = ps' ∧ some [] = s' := by
    have heq := hrun.symm.trans hrun'
    exact ⟨Except.ok.inj (congrArg Prod.fst heq), congrArg Prod.snd heq⟩
  exact ⟨draws, ps, rfl, hrun, hends⟩

/-- A union with a star, before the last literal is there. -/
theorem exists_draws_starred_union :
    (∀ c ∈ ['a', 'b', 'c'], Operator.ofChar? c = none) ∧
      Drawable 3 ['a', 'b', 'c'] "ab|*c&" ∧
      ∃ draws ps, Piece.text ps = "ab|*c&" ∧
        (source.expression 3 ['a', 'b', 'c']).run.run (some draws) = (.ok ps, some []) ∧
        source.Ends ['a', 'b', 'c'] { remaining := 3 } (some draws) 5 ⟨"ab|*c&", 0, 1⟩
          (some []) := by
  have hplain : ∀ c ∈ ['a', 'b', 'c'], Operator.ofChar? c = none := by simp [Operator.ofChar?]
  have hliterals : literalsOf (tokenize "ab|*c&") = ['a', 'b', 'c'] := by cbv
  have hchars : "ab|*c&".toList = ['a', 'b', '|', '*', 'c', '&'] := by cbv
  have hdrawable : Drawable 3 ['a', 'b', 'c'] "ab|*c&" := {
    wellFormed := ⟨.concatenate (.star (.union (.literal 'a') (.literal 'b'))) (.literal 'c'),
      by simp [Expr.Plain, Expr.literals], by cbv⟩
    length_literals := by rw [hliterals]; rfl
    mem_symbols := by rw [hliterals]; exact fun _ hc => hc
    no_double_star := by rw [hchars]; decide }
  exact ⟨hplain, hdrawable, exists_draws hplain hdrawable⟩

end Script

end PostfixRegex
