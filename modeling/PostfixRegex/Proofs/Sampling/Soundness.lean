import PostfixRegex.Proofs.Compilation
import PostfixRegex.Proofs.Sampling.Pieces

/-!
# What is drawn

Whatever the source says, the loop that writes a random expression ends after one round less than
twice the number of literals, without a fault, and what it has written is a drawable text.

Nothing is assumed about the source. It may throw the coin in any way and choose in any way, and its
draws may depend on all draws before; that a choice is one of the things to choose from is part of
its type. The numbers of a draft decide everything else. A round of an open draft appends a piece
that fits (`Source.exists_next`), and each piece makes one less of twice the literals still to be
written and the operands together. That is the measure, and since some operand is there after the
first round, the loop can only end with one operand.

The loop is compared with `Source.pieces` round by round, so the same lemma says that the expression
which is drawn there is the text that the loop leaves behind.

## Main definitions

* `Piece.Fits` — a piece that may come next
* `Source.Ends` — the loop ends after some number of rounds and not earlier

## Main results

* `Source.pieces_of_open` — the pieces of an open draft, the next one first
* `Source.exists_next` — one round, on both sides
* `Source.exists_pieces` — all rounds
* `Source.expression_drawable` — random expressions are drawable, for every source
-/

namespace PostfixRegex

/-! ### Drafts -/

namespace Draft

theorem isOpen_iff {d : Draft} : d.isOpen = true ↔ 0 < d.remaining ∨ 1 < d.operands := by
  simp [isOpen]

@[simp] theorem write_literal (d : Draft) (c : Char) (starred : Bool) :
    d.write ⟨.literal c, starred⟩ = {
      text := d.text ++ String.ofList (Piece.chars ⟨.literal c, starred⟩)
      remaining := d.remaining - 1
      operands := d.operands + 1 } := rfl

@[simp] theorem write_operator (d : Draft) (op : Operator) (starred : Bool) :
    d.write ⟨.operator op, starred⟩ = {
      text := d.text ++ String.ofList (Piece.chars ⟨.operator op, starred⟩)
      remaining := d.remaining
      operands := d.operands - 1 } := rfl

end Draft

/-- Writing the pieces that complete a draft leaves one operand. -/
theorem Completes.foldl_write {symbols : List Char} {remaining operands : Nat} {ps : List Piece}
    (h : Completes symbols remaining operands ps) (text : String) :
    ps.foldl Draft.write ⟨text, remaining, operands⟩ = ⟨text ++ Piece.text ps, 0, 1⟩ := by
  induction h generalizing text with
  | done => simp [Piece.text]
  | literal _ _ ih =>
    rw [List.foldl_cons, Draft.write_literal]
    refine (ih _).trans ?_
    simp [Piece.text, String.append_assoc]
  | operator _ _ ih =>
    rw [List.foldl_cons, Draft.write_operator]
    refine (ih _).trans ?_
    simp [Piece.text, String.append_assoc]

/-- The piece may come next, given the literals still to be written and the number of operands. -/
inductive Piece.Fits (symbols : List Char) (remaining operands : Nat) : Piece → Prop where
  | literal {c : Char} {starred : Bool} :
      0 < remaining → c ∈ symbols → Fits symbols remaining operands ⟨.literal c, starred⟩
  | operator {op : Operator} {starred : Bool} :
      1 < operands → op ≠ .star → Fits symbols remaining operands ⟨.operator op, starred⟩

namespace Piece.Fits

variable {symbols : List Char} {d : Draft} {p : Piece}

/-- The measure of the loop: each piece makes it one less. -/
theorem measure_write (h : p.Fits symbols d.remaining d.operands) :
    2 * (d.write p).remaining + (d.write p).operands + 1 = 2 * d.remaining + d.operands := by
  cases h with
  | literal hremaining _ =>
    rw [Draft.write_literal]
    dsimp only
    omega
  | operator hoperands _ =>
    rw [Draft.write_operator]
    dsimp only
    omega

/-- After a piece there is an operand. -/
theorem operands_write_pos (h : p.Fits symbols d.remaining d.operands) :
    0 < (d.write p).operands := by
  cases h with
  | literal _ _ => exact Nat.succ_pos _
  | operator hoperands _ => exact Nat.sub_pos_of_lt hoperands

theorem completes_cons {ps : List Piece} (h : p.Fits symbols d.remaining d.operands)
    (hps : Completes symbols (d.write p).remaining (d.write p).operands ps) :
    Completes symbols d.remaining d.operands (p :: ps) := by
  cases h with
  | literal hremaining hmem =>
    rw [← Nat.sub_add_cancel hremaining]
    exact .literal hmem hps
  | operator hoperands hop =>
    obtain ⟨k, hk⟩ := Nat.exists_eq_add_of_le' hoperands
    rw [Draft.write_operator, hk] at hps
    rw [hk]
    exact .operator hop hps

end Piece.Fits

namespace Source

variable {σ : Type} (source : Source σ)

/-! ### Single draws -/

section Runs

variable {ε α β : Type} {s s' : σ}

theorem run_bind {x : StateM σ α} {a : α} (h : x.run s = (a, s')) (f : α → StateM σ β) :
    (x >>= f).run s = (f a).run s' := by
  rw [StateT.run_bind, h]
  rfl

theorem run_lift_bind {x : StateM σ α} {a : α} (h : x.run s = (a, s'))
    (f : α → ExceptT ε (StateM σ) β) :
    ((liftM x : ExceptT ε (StateM σ) α) >>= f).run.run s = (f a).run.run s' := by
  change (f (x.run s).1).run.run (x.run s).2 = _
  rw [h]

theorem run_bind_of_ok {x : ExceptT ε (StateM σ) α} {a : α} (h : x.run.run s = (.ok a, s'))
    (f : α → ExceptT ε (StateM σ) β) : (x >>= f).run.run s = (f a).run.run s' := by
  rw [ExceptT.run_bind, StateT.run_bind, h]
  rfl

end Runs

/-- A literal is one of the characters to choose from. -/
theorem exists_literal (c : Char) (cs : List Char) (s : σ) :
    ∃ x ∈ c :: cs, ∃ starred s', (source.literal c cs).run s = (⟨.literal x, starred⟩, s') :=
  ⟨_, List.getElem_mem _, _, _, rfl⟩

theorem exists_binary (s : σ) :
    ∃ op ≠ Operator.star, ∃ starred s', source.binary.run s = (⟨.operator op, starred⟩, s') := by
  refine ⟨_, ?_, _, _, rfl⟩
  split <;> exact Operator.noConfusion

/-- A literal comes next only if one remains, and an operator only if there are two operands. -/
theorem literalNext_cases {remaining operands : Nat} (h : 0 < remaining ∨ 1 < operands) (s : σ) :
    ∃ s', (0 < remaining ∧ (source.literalNext remaining operands).run s = (true, s')) ∨
      (1 < operands ∧ (source.literalNext remaining operands).run s = (false, s')) := by
  rw [literalNext]
  split
  · exact ⟨s, .inr ⟨by omega, rfl⟩⟩
  · next hremaining =>
    split
    · exact ⟨s, .inl ⟨by omega, rfl⟩⟩
    · rcases hcoin : (source.coin .half).run s with ⟨yes, s'⟩
      cases yes with
      | true => exact ⟨s', .inl ⟨by omega, rfl⟩⟩
      | false => exact ⟨s', .inr ⟨by omega, rfl⟩⟩

/-! ### One round -/

/-- What may come next depends on the two numbers only through `literalNext`. -/
theorem pieces_of_open (c : Char) (cs : List Char) {remaining operands : Nat}
    (h : 0 < remaining ∨ 1 < operands) :
    source.pieces c cs remaining operands = do
      if ← source.literalNext remaining operands then
        let p ← source.literal c cs
        return p :: (← source.pieces c cs (remaining - 1) (operands + 1))
      else
        let p ← source.binary
        return p :: (← source.pieces c cs remaining (operands - 1)) := by
  match remaining, operands, h with
  | 0, 0, h | 0, 1, h => omega
  | 0, operands + 2, _ => simp [literalNext, pieces]
  | remaining + 1, 0, _ =>
    conv_lhs => rw [pieces]
    simp [literalNext]
  | remaining + 1, 1, _ =>
    conv_lhs => rw [pieces]
    simp [literalNext]
  | remaining + 1, operands + 2, _ =>
    have hmany : ¬ operands + 2 < 2 := by omega
    conv_lhs => rw [pieces]
    simp [literalNext, hmany]

theorem pieces_zero_one (c : Char) (cs : List Char) : source.pieces c cs 0 1 = return [] := by
  rw [pieces]

section Round

variable {c : Char} {cs : List Char} {d : Draft} {s s₁ s₂ s₃ : σ} {p : Piece} {ps : List Piece}

theorem round_of_literal (hopen : d.isOpen = true)
    (hnext : (source.literalNext d.remaining d.operands).run s = (true, s₁))
    (hp : (source.literal c cs).run s₁ = (p, s₂)) :
    (source.round (c :: cs) d).run.run s = (.ok (d.write p), s₂) := by
  simp only [round, hopen, Bool.not_true, Bool.false_eq_true, if_false, run_lift_bind hnext,
    if_true, run_lift_bind hp]
  rfl

theorem round_of_binary (hopen : d.isOpen = true) (hoperands : 1 < d.operands)
    (hnext : (source.literalNext d.remaining d.operands).run s = (false, s₁))
    (hp : source.binary.run s₁ = (p, s₂)) :
    (source.round (c :: cs) d).run.run s = (.ok (d.write p), s₂) := by
  have hne : d.operands ≠ 0 := by omega
  simp only [round, hopen, Bool.not_true, Bool.false_eq_true, if_false, run_lift_bind hnext,
    hne, run_lift_bind hp]
  rfl

theorem pieces_of_literal {remaining operands : Nat} (h : 0 < remaining ∨ 1 < operands)
    (hnext : (source.literalNext remaining operands).run s = (true, s₁))
    (hp : (source.literal c cs).run s₁ = (p, s₂))
    (hps : (source.pieces c cs (remaining - 1) (operands + 1)).run s₂ = (ps, s₃)) :
    (source.pieces c cs remaining operands).run s = (p :: ps, s₃) := by
  rw [source.pieces_of_open c cs h, run_bind hnext, if_pos rfl, run_bind hp, run_bind hps]
  rfl

theorem pieces_of_binary {remaining operands : Nat} (h : 0 < remaining ∨ 1 < operands)
    (hnext : (source.literalNext remaining operands).run s = (false, s₁))
    (hp : source.binary.run s₁ = (p, s₂))
    (hps : (source.pieces c cs remaining (operands - 1)).run s₂ = (ps, s₃)) :
    (source.pieces c cs remaining operands).run s = (p :: ps, s₃) := by
  rw [source.pieces_of_open c cs h, run_bind hnext, if_neg Bool.false_ne_true, run_bind hp,
    run_bind hps]
  rfl

/-- **One round.** An open draft gets a piece that fits, and the pieces of the draft are this one
and those of the draft with it. -/
theorem exists_next (c : Char) (cs : List Char) (hopen : d.isOpen = true) (s : σ) :
    ∃ p s₁, p.Fits (c :: cs) d.remaining d.operands ∧
      (source.round (c :: cs) d).run.run s = (.ok (d.write p), s₁) ∧
      ∀ ps s₂, (source.pieces c cs (d.write p).remaining (d.write p).operands).run s₁ = (ps, s₂) →
        (source.pieces c cs d.remaining d.operands).run s = (p :: ps, s₂) := by
  have hnumbers := Draft.isOpen_iff.mp hopen
  obtain ⟨s', ⟨hremaining, hnext⟩ | ⟨hoperands, hnext⟩⟩ := source.literalNext_cases hnumbers s
  · obtain ⟨x, hx, starred, s₁, hp⟩ := source.exists_literal c cs s'
    exact ⟨_, s₁, .literal hremaining hx, source.round_of_literal hopen hnext hp,
      fun ps s₂ hps => source.pieces_of_literal hnumbers hnext hp hps⟩
  · obtain ⟨op, hop, starred, s₁, hp⟩ := source.exists_binary s'
    exact ⟨_, s₁, .operator hoperands hop, source.round_of_binary hopen hoperands hnext hp,
      fun ps s₂ hps => source.pieces_of_binary hnumbers hnext hp hps⟩

end Round

/-! ### All rounds -/

theorem rounds_succ {symbols : List Char} {d d₁ : Draft} {s s₁ : σ}
    (h : (source.round symbols d).run.run s = (.ok d₁, s₁)) (n : Nat) :
    (source.rounds symbols (n + 1) d).run.run s = (source.rounds symbols n d₁).run.run s₁ := by
  rw [rounds, run_bind_of_ok h]

/-- The loop that starts with `d` ends with `d'` after exactly `n` rounds. There is no fault, and
every earlier draft is open. -/
structure Ends (symbols : List Char) (d : Draft) (s : σ) (n : Nat) (d' : Draft) (s' : σ) :
    Prop where
  finished : (source.rounds symbols n d).run.run s = (.ok d', s')
  closed : d'.isOpen = false
  earlier : ∀ j < n, ∃ d₁ s₁, (source.rounds symbols j d).run.run s = (.ok d₁, s₁) ∧
    d₁.isOpen = true

section Loop

variable {source} {symbols : List Char} {d d₁ d' : Draft} {s s₁ s' : σ} {n : Nat}

theorem Ends.refl (h : d.isOpen = false) : source.Ends symbols d s 0 d s where
  finished := rfl
  closed := h
  earlier := fun _ hj => absurd hj (Nat.not_lt_zero _)

theorem Ends.head (hopen : d.isOpen = true)
    (hround : (source.round symbols d).run.run s = (.ok d₁, s₁))
    (h : source.Ends symbols d₁ s₁ n d' s') : source.Ends symbols d s (n + 1) d' s' where
  finished := (source.rounds_succ hround n).trans h.finished
  closed := h.closed
  earlier := by
    intro j hj
    cases j with
    | zero => exact ⟨d, s, rfl, hopen⟩
    | succ j =>
      rw [source.rounds_succ hround j]
      exact h.earlier j (Nat.lt_of_succ_lt_succ hj)

end Loop

/-- **All rounds.** If there is a literal to be written or an operand, the loop writes the pieces of
the draft one by one, and they complete it. -/
theorem exists_pieces (c : Char) (cs : List Char) {d : Draft} (hpos : 0 < d.remaining + d.operands)
    (s : σ) :
    ∃ ps s', (source.pieces c cs d.remaining d.operands).run s = (ps, s') ∧
      Completes (c :: cs) d.remaining d.operands ps ∧
      source.Ends (c :: cs) d s ps.length (ps.foldl Draft.write d) s' := by
  induction hmeasure : 2 * d.remaining + d.operands generalizing d s with
  | zero => omega
  | succ m ih =>
    by_cases hopen : d.isOpen = true
    · obtain ⟨p, s₁, hfits, hround, hpieces⟩ := source.exists_next c cs hopen s
      have hone := hfits.measure_write
      have hwritten := hfits.operands_write_pos
      obtain ⟨ps, s', hps, hcompletes, hends⟩ := ih (d := d.write p) (by omega) s₁ (by omega)
      exact ⟨p :: ps, s', hpieces ps s' hps, hfits.completes_cons hcompletes,
        hends.head hopen hround⟩
    · have hclosed := Bool.eq_false_iff.mpr hopen
      rw [Draft.isOpen_iff] at hopen
      have hremaining : d.remaining = 0 := by omega
      have hoperands : d.operands = 1 := by omega
      rw [hremaining, hoperands, source.pieces_zero_one]
      exact ⟨[], s, rfl, .done, .refl hclosed⟩

/-! ### Random expressions -/

/-- What was asked for is checked first. -/
theorem run_expression (c : Char) (cs : List Char) {n : Nat} (hn : 0 < n)
    (hplain : ∀ x ∈ c :: cs, Operator.ofChar? x = none) {s s' : σ} {ps : List Piece}
    (h : (source.pieces c cs n 0).run s = (ps, s')) :
    (source.expression n (c :: cs)).run.run s = (.ok ps, s') := by
  have hany : ((c :: cs).any fun x => (Operator.ofChar? x).isSome) = false := by
    rw [List.any_eq_false]
    intro x hx
    simp [hplain x hx]
  rw [expression, if_neg hn.ne', hany]
  change (Except.ok ((source.pieces c cs n 0).run s).1, ((source.pieces c cs n 0).run s).2) = _
  rw [h]

/-- The pieces that are drawn complete an expression, and the loop writes them. -/
theorem exists_expression {n : Nat} (hn : 0 < n) {symbols : List Char} (hsymbols : symbols ≠ [])
    (hplain : ∀ c ∈ symbols, Operator.ofChar? c = none) (s : σ) :
    ∃ ps s', (source.expression n symbols).run.run s = (.ok ps, s') ∧ Completes symbols n 0 ps ∧
      source.Ends symbols { remaining := n } s (2 * n - 1) ⟨Piece.text ps, 0, 1⟩ s' := by
  obtain ⟨c, cs, rfl⟩ := List.exists_cons_of_ne_nil hsymbols
  obtain ⟨ps, s', hps, hcompletes, hends⟩ :=
    source.exists_pieces c cs (d := { remaining := n }) hn s
  refine ⟨ps, s', source.run_expression c cs hn hplain hps, hcompletes, ?_⟩
  have hlength : ps.length + 1 = 2 * n + 0 := hcompletes.length_add_one
  rw [hcompletes.foldl_write "", String.empty_append] at hends
  rwa [show 2 * n - 1 = ps.length by omega]

/-- **Random expressions are drawable.** Whatever the source draws, the loop ends after one round
less than twice the number of literals, and it leaves a well-formed text with this number of
literals, each of them one of the symbols, one binary operator less, no two stars in a row and at
most one star for each round. The text compiles, and it is the expression that the source draws. -/
theorem expression_drawable {n : Nat} (hn : 0 < n) {symbols : List Char} (hsymbols : symbols ≠ [])
    (hplain : ∀ c ∈ symbols, Operator.ofChar? c = none) (s : σ) :
    ∃ ps s', (source.expression n symbols).run.run s = (.ok ps, s') ∧
      source.Ends symbols { remaining := n } s (2 * n - 1) ⟨Piece.text ps, 0, 1⟩ s' ∧
      Drawable n symbols (Piece.text ps) ∧
      (tally (tokenize (Piece.text ps))).unions +
        (tally (tokenize (Piece.text ps))).concatenations = n - 1 ∧
      (tally (tokenize (Piece.text ps))).stars ≤ 2 * n - 1 ∧
      ∀ supply, ∃ compilation nfa, compile (Piece.text ps) supply = .ok compilation ∧
        compilation.result = .ok nfa := by
  obtain ⟨ps, s', hps, hcompletes, hends⟩ := source.exists_expression hn hsymbols hplain s
  have hdrawable := (drawable_iff hplain).mpr ⟨ps, hcompletes, rfl⟩
  have hbinary := hdrawable.binary_add_one
  have hstars := hcompletes.count_star_le hplain
  have hlength := hcompletes.length_add_one
  refine ⟨ps, s', hps, hends, hdrawable, by omega, by omega, fun supply => ?_⟩
  obtain ⟨compilation, nfa, hcompile, hresult, _⟩ := exists_nfa_of_plain hdrawable.wellFormed supply
  exact ⟨compilation, nfa, hcompile, hresult⟩

/-- Three words, replayed over and over again, make an expression with three literals. -/
theorem expression_drawable_replay :
    0 < 3 ∧ ['a', 'b'] ≠ [] ∧ (∀ c ∈ ['a', 'b'], Operator.ofChar? c = none) ∧
      (Replay.source.rounds ['a', 'b'] 5 { remaining := 3 }).run.run
        ⟨#[0, 18446744073709551615, 5], 0⟩ =
          (.ok ⟨"aa*|*b*|", 0, 1⟩, ⟨#[0, 18446744073709551615, 5], 11⟩) ∧
      Drawable 3 ['a', 'b'] "aa*|*b*|" := by
  have hplain : ∀ c ∈ ['a', 'b'], Operator.ofChar? c = none := by simp [Operator.ofChar?]
  have hrun : (Replay.source.rounds ['a', 'b'] 5 { remaining := 3 }).run.run
      ⟨#[0, 18446744073709551615, 5], 0⟩ =
        (.ok ⟨"aa*|*b*|", 0, 1⟩, ⟨#[0, 18446744073709551615, 5], 11⟩) := by rfl
  obtain ⟨ps, s', _, hends, hdrawable, _⟩ := Replay.source.expression_drawable (n := 3)
    (by decide) (List.cons_ne_nil _ _) hplain ⟨#[0, 18446744073709551615, 5], 0⟩
  have htext : Piece.text ps = "aa*|*b*|" := by
    have hdraft := congrArg Prod.fst (hends.finished.symm.trans hrun)
    exact congrArg Draft.text (Except.ok.inj hdraft)
  exact ⟨by decide, List.cons_ne_nil _ _, hplain, hrun, htext ▸ hdrawable⟩

end Source

end PostfixRegex
