import PostfixRegex.Compilation
import PostfixRegex.Proofs.Builder.Language

/-!
# Compiling and reading

Feeding tokens to a builder and reading them onto a stack of trees are the same walk. A literal
pushes on both sides, an operator replaces its operands on both sides, and since the stacks are
equally high, both stop at the same operator if they stop. So compiling succeeds exactly on the
texts that are printed forms, and whatever the makers of fragments hand on relates the automaton to
the tree that was printed: its language, for one, and its shape.

## Main definitions

* `Nfa.ComesFrom` — the automaton of a fragment that is related to a tree
* `Compilation.Outcome` — the three ways in which compiling can end

## Main results

* `Builder.Carries.feed` — the two walks side by side
* `compile_cases` — what the builder did when a text was compiled
* `exists_compilation` — what compiling a text yields, in terms of any relation
* `compile_outcome` — and in terms of languages
* `Builder.performAll_shape` — the shape of all fragments, and of the automata made from them
-/

namespace PostfixRegex

namespace Builder

variable {R : Fragment → Expr → Prop} {b : Builder} {first : Nat} {trees : List Expr}

theorem feed_literal {b₁ : Builder} {c : Char} (position : Nat) (tokens : List Token)
    (h : b.atom c = .ok b₁) :
    b.feed position (.literal c :: tokens) = b₁.feed (position + 1) tokens := by
  rw [feed, h, Checked.ok_bind]

theorem feed_operator {b₁ : Builder} {op : Operator} (position : Nat) (tokens : List Token)
    (h : b.apply op = .ok (.ok b₁)) :
    b.feed position (.operator op :: tokens) = b₁.feed (position + 1) tokens := by
  rw [feed, h, Checked.ok_bind]

/-- **One walk.** If the tokens can be read onto the trees, the fragments are related to what was
read. Otherwise both stop at the same operator, and the error says where it stands and how high the
stack was. -/
theorem Carries.feed (h : b.Carries R first trees) (hR : Fragment.Inherited R) (position : Nat)
    (tokens : List Token) :
    (∃ b' trees', Expr.read trees tokens = some trees' ∧
        b.feed position tokens = .ok (b', .ok ()) ∧ b'.Carries R first trees') ∨
      ∃ b' trees' before op after, tokens = before ++ .operator op :: after ∧
        Expr.read trees before = some trees' ∧ trees'.length < op.arity ∧
        b.feed position tokens = .ok (b', .error
          (.insufficientOperands op (position + before.length) op.arity trees'.length)) ∧
        b'.Carries R first trees' := by
  induction tokens generalizing b trees position with
  | nil => exact .inl ⟨b, trees, rfl, rfl, h⟩
  | cons t tokens ih =>
    cases t with
    | literal c =>
      obtain ⟨b₁, hok, h₁⟩ := h.atom hR c
      rw [feed_literal position tokens hok]
      rcases ih h₁ (position + 1) with
        hread | ⟨b', trees', before, op, after, rfl, hread, hlt, hfeed, hb'⟩
      · exact .inl hread
      · refine .inr ⟨b', trees', .literal c :: before, op, after, rfl, hread, hlt, ?_, hb'⟩
        rw [hfeed, List.length_cons, Nat.add_assoc, Nat.add_comm 1]
    | operator op =>
      by_cases hlen : b.height < op.arity
      · refine .inr ⟨b, trees, [], op, tokens, rfl, rfl, h.height_eq ▸ hlen, ?_, h⟩
        rw [Builder.feed, apply_of_lt hlen, Checked.ok_bind, ← h.height_eq]
        rfl
      · obtain ⟨b₁, hok, h₁⟩ := h.apply hR hlen
        have hread_operator : ∀ ts, Expr.read trees (.operator op :: ts) =
            Expr.read (op.onTrees trees) ts := by
          intro ts
          rw [Expr.read, ← h.height_eq, if_neg hlen]
        rw [feed_operator position tokens hok, hread_operator]
        rcases ih h₁ (position + 1) with
          hread | ⟨b', trees', before, op', after, rfl, hread, hlt, hfeed, hb'⟩
        · exact .inl hread
        · refine .inr ⟨b', trees', .operator op :: before, op', after, rfl,
            (hread_operator before).trans hread, hlt, ?_, hb'⟩
          rw [hfeed, List.length_cons, Nat.add_assoc, Nat.add_comm 1]

end Builder

/-! ### From the last token to the outcome -/

section Outcome

variable {text : String} {supply : Supply} {b : Builder}

theorem compile_of_refused {e : CompileError}
    (hfeed : Builder.feed { supply } 0 (tokenize text) = .ok (b, .error e)) :
    compile text supply = .ok ⟨b, .error e⟩ := by
  rw [compile, hfeed, Checked.ok_bind]
  rfl

theorem compile_of_leftover {fragments : Nat}
    (hfeed : Builder.feed { supply } 0 (tokenize text) = .ok (b, .ok ()))
    (hfinish : b.finish = .ok (.error fragments)) :
    compile text supply = .ok ⟨b, .error (.malformed fragments)⟩ := by
  rw [compile, hfeed, Checked.ok_bind]
  simp only [hfinish, Checked.ok_bind, Checked.pure_eq]

theorem compile_of_finish {n : Nfa}
    (hfeed : Builder.feed { supply } 0 (tokenize text) = .ok (b, .ok ()))
    (hfinish : b.finish = .ok (.ok n)) : compile text supply = .ok ⟨b, .ok n⟩ := by
  rw [compile, hfeed, Checked.ok_bind]
  simp only [hfinish, Checked.ok_bind, Checked.pure_eq]

/-- A compilation is one of these three. -/
theorem compile_cases {c : Compilation} (h : compile text supply = .ok c) :
    (∃ b e, Builder.feed { supply } 0 (tokenize text) = .ok (b, .error e) ∧ c = ⟨b, .error e⟩) ∨
      (∃ b fragments, Builder.feed { supply } 0 (tokenize text) = .ok (b, .ok ()) ∧
        b.finish = .ok (.error fragments) ∧ c = ⟨b, .error (.malformed fragments)⟩) ∨
      ∃ b n, Builder.feed { supply } 0 (tokenize text) = .ok (b, .ok ()) ∧
        b.finish = .ok (.ok n) ∧ c = ⟨b, .ok n⟩ := by
  rw [compile, Checked.bind_eq_ok] at h
  obtain ⟨⟨b, outcome⟩, hfeed, h⟩ := h
  cases outcome with
  | error e =>
    cases h
    exact .inl ⟨b, e, hfeed, rfl⟩
  | ok _ =>
    obtain ⟨ended, hfinish, h⟩ := Checked.bind_eq_ok.mp h
    cases ended with
    | error fragments =>
      cases h
      exact .inr (.inl ⟨b, fragments, hfeed, hfinish, rfl⟩)
    | ok n =>
      cases h
      exact .inr (.inr ⟨b, n, hfeed, hfinish, rfl⟩)

/-- If an automaton was compiled, no token was refused. -/
theorem feed_of_compile {c : Compilation} {n : Nfa} (h : compile text supply = .ok c)
    (hresult : c.result = .ok n) :
    Builder.feed { supply } 0 (tokenize text) = .ok (c.builder, .ok ()) := by
  rcases compile_cases h with ⟨_, _, _, rfl⟩ | ⟨_, _, _, _, rfl⟩ | ⟨_, _, hfeed, _, rfl⟩
  · cases hresult
  · cases hresult
  · exact hfeed

/-- The automaton that was compiled is the one that the builder yields. -/
theorem finish_of_compile {c : Compilation} {n : Nfa} (h : compile text supply = .ok c)
    (hresult : c.result = .ok n) : c.builder.finish = .ok (.ok n) := by
  rcases compile_cases h with ⟨_, _, _, rfl⟩ | ⟨_, _, _, _, rfl⟩ | ⟨_, _, _, hfinish, rfl⟩
  · cases hresult
  · cases hresult
  · cases hresult
    exact hfinish

end Outcome

/-- The automaton is that of a fragment that is related to the tree, and its alphabet has the
literals of the tree. -/
def Nfa.ComesFrom (R : Fragment → Expr → Prop) (n : Nfa) (e : Expr) : Prop :=
  (∀ c, c ∈ n.alphabet.toList ↔ c ∈ e.literals) ∧
    ∃ f, R f e ∧ f.Shape ∧ n.toAutomaton = ⟨f.start, f.states, n.alphabet⟩

/-- **How compiling can end.** The tokens are read onto trees as far as that goes, and the fragments
that the builder is left with are related to what was read. -/
inductive Compilation.Outcome (R : Fragment → Expr → Prop) (text : String) (supply : Supply) :
    Compilation → Prop where
  /-- One tree was read, and the automaton comes from it. -/
  | made {b : Builder} {n : Nfa} {e : Expr} : Expr.read [] (tokenize text) = some [e] →
      b.Carries R supply.next [e] → n.ComesFrom R e → Outcome R text supply ⟨b, .ok n⟩
  /-- Some other number of trees was read. -/
  | leftover {b : Builder} {trees : List Expr} : Expr.read [] (tokenize text) = some trees →
      trees.length ≠ 1 → b.Carries R supply.next trees →
      Outcome R text supply ⟨b, .error (.malformed trees.length)⟩
  /-- An operator lacked operands. -/
  | refused {b : Builder} {trees : List Expr} {before after : List Token} {op : Operator} :
      tokenize text = before ++ .operator op :: after → Expr.read [] before = some trees →
      trees.length < op.arity → b.Carries R supply.next trees →
      Outcome R text supply
        ⟨b, .error (.insufficientOperands op before.length op.arity trees.length)⟩

section Relation

variable {R : Fragment → Expr → Prop} {text : String} {supply : Supply}

/-- **Compiling always ends in one of these ways**, whatever the makers hand on. -/
theorem exists_compilation (hR : Fragment.Inherited R) (text : String) (supply : Supply) :
    ∃ compilation, compile text supply = .ok compilation ∧ compilation.Outcome R text supply := by
  rcases (Builder.carries_start R supply).feed hR 0 (tokenize text) with
    ⟨b, trees, hread, hfeed, h⟩ | ⟨b, trees, before, op, after, htokens, hbefore, hlt, hfeed, h⟩
  · by_cases hlen : trees.length = 1
    · obtain ⟨e, rfl⟩ := List.length_eq_one_iff.mp hlen
      obtain ⟨f, n, hfinish, hf, hshape, hn⟩ := h.finish
      have halphabet : n.alphabet = b.alphabet := by rw [hn]
      refine ⟨_, compile_of_finish hfeed hfinish, .made hread h ⟨fun c => ?_, f, hf, hshape, ?_⟩⟩
      · rw [halphabet, h.alphabet, List.flatMap_singleton]
      · rw [halphabet, hn]
    · have hfinish : b.finish = .ok (.error trees.length) := by
        rw [← h.height_eq] at hlen ⊢
        exact Builder.finish_of_height_ne hlen
      exact ⟨_, compile_of_leftover hfeed hfinish, .leftover hread hlen h⟩
  · rw [Nat.zero_add] at hfeed
    exact ⟨_, compile_of_refused hfeed, .refused htokens hbefore hlt h⟩

/-- If one tree was read, the text is its printed form; otherwise it is nobody's. -/
theorem Compilation.Outcome.comesFrom_or_error {compilation : Compilation}
    (h : compilation.Outcome R text supply) :
    (∃ e n, tokenize text = e.tokens ∧ compilation.result = .ok n ∧ n.ComesFrom R e) ∨
      ((∀ e : Expr, tokenize text ≠ e.tokens) ∧ ∃ error, compilation.result = .error error) := by
  cases h with
  | made hread _ hn => exact .inl ⟨_, _, Expr.read_eq_singleton_iff.mp hread, rfl, hn⟩
  | leftover hread hlen _ =>
    refine .inr ⟨fun e he => hlen ?_, _, rfl⟩
    rw [Expr.read_eq_singleton_iff.mpr he] at hread
    rw [← Option.some.inj hread, List.length_singleton]
  | refused htokens hbefore hlt _ =>
    refine .inr ⟨fun e he => ?_, _, rfl⟩
    have hread := Expr.read_eq_singleton_iff.mpr he
    rw [htokens, Expr.read_of_length_lt hbefore hlt] at hread
    cases hread

/-- An automaton that a compilation has made comes from the tree whose printed form was compiled. -/
theorem comesFrom_of_compile (hR : Fragment.Inherited R) {compilation : Compilation} {n : Nfa}
    (hcompile : compile text supply = .ok compilation) (hresult : compilation.result = .ok n) :
    ∃ e : Expr, tokenize text = e.tokens ∧ n.ComesFrom R e := by
  obtain ⟨_, hcompile', houtcome⟩ := exists_compilation hR text supply
  obtain rfl := Except.ok.inj (hcompile.symm.trans hcompile')
  rcases houtcome.comesFrom_or_error with ⟨e, n', htokens, hresult', hn⟩ | ⟨_, _, herror⟩
  · obtain rfl := Except.ok.inj (hresult.symm.trans hresult')
    exact ⟨e, htokens, hn⟩
  · cases hresult.symm.trans herror

end Relation

/-- **Compiling never fails to give an answer.** If the text is the printed form of a tree, the
answer is an automaton for the language of the tree, whose alphabet has the literals of the tree.
Otherwise it is an error. -/
theorem compile_outcome (text : String) (supply : Supply) :
    ∃ compilation, compile text supply = .ok compilation ∧
      ((∃ (e : Expr) (n : Nfa), tokenize text = e.tokens ∧ compilation.result = .ok n ∧
          n.states.isEmpty = false ∧ (∀ c, c ∈ n.alphabet.toList ↔ c ∈ e.literals) ∧
          ∀ w, n.accepts w = true ↔ w ∈ e.language) ∨
        ((∀ e : Expr, tokenize text ≠ e.tokens) ∧ ∃ error, compilation.result = .error error)) := by
  obtain ⟨compilation, hcompile, houtcome⟩ :=
    exists_compilation Fragment.inherited_language text supply
  refine ⟨compilation, hcompile, houtcome.comesFrom_or_error.imp_left ?_⟩
  rintro ⟨e, n, htokens, hresult, halphabet, f, hf, hshape, hn⟩
  refine ⟨e, n, htokens, hresult, ?_, halphabet, fun w => ?_⟩
  · rw [hn]
    exact hshape.isEmpty_eq_false
  · rw [hshape.accepts_iff hn, hf]

/-- A well-formed text compiles to an automaton, which has states. -/
theorem exists_nfa_of_plain {text : String} (h : ∃ e : Expr, e.Plain ∧ e.text = text)
    (supply : Supply) :
    ∃ c n, compile text supply = .ok c ∧ c.result = .ok n ∧ n.states.isEmpty = false := by
  obtain ⟨e, he⟩ := h
  obtain ⟨c, hcompile, houtcome⟩ := compile_outcome text supply
  rcases houtcome with ⟨_, n, _, hresult, hne, _⟩ | ⟨hnone, _⟩
  · exact ⟨c, n, hcompile, hresult, hne⟩
  · exact absurd (Expr.tokenize_eq_tokens_iff.mpr he) (hnone e)

/-- **The shape of what is built.** After every run all fragments on the stack have the shape of
`Fragment.Shape`. So the accepting states and the trap states are the same single state in every
automaton that a builder or the compiler yields. -/
theorem Builder.performAll_shape (supply : Supply) :
    (∀ calls, ∃ b, performAll { supply } calls = .ok b ∧ (∀ f ∈ b.stack, f.Shape) ∧
        ∀ n, b.finish = .ok (.ok n) → ∃ s, n.accepting = [s] ∧ n.traps = [s]) ∧
      ∀ text, ∃ compilation, compile text supply = .ok compilation ∧
        ∀ n, compilation.result = .ok n → ∃ s, n.accepting = [s] ∧ n.traps = [s] := by
  constructor
  · intro calls
    obtain ⟨b, hrun, h⟩ := performAll_sound supply calls
    refine ⟨b, hrun, h.shape, fun n hn => ?_⟩
    obtain ⟨f, _, hshape, heq⟩ := h.of_finish_ok hn
    exact hshape.accepting_eq_traps heq
  · intro text
    obtain ⟨compilation, hcompile, _⟩ := compile_outcome text supply
    refine ⟨compilation, hcompile, fun n hn => ?_⟩
    obtain ⟨_, _, _, f, _, hshape, heq⟩ :=
      comesFrom_of_compile Fragment.inherited_true hcompile hn
    exact hshape.accepting_eq_traps heq

end PostfixRegex
