import PostfixRegex.Proofs.Compilation
import PostfixRegex.Proofs.Determinization.Language
import PostfixRegex.Regex

/-!
# Matching is membership

From text to answer: an expression in postfix notation is compiled, determinized and run on a word,
and the answer says whether the word belongs to the language of the expression.

Three results meet here. Reading tokens inverts printing, so a text that is accepted has exactly one
tree. The automaton that is compiled from it has the language of the tree. Determinization keeps
that language as far as the alphabet goes, and here the alphabet goes far enough: it has the
literals of the tree, and no word of the language has any other character.

## Main results

* `Regex.ofPostfix_isMatch` — the texts that are accepted, and the words that match
-/

namespace PostfixRegex

namespace Regex

variable {δ : Type}

/-- The alphabet of a compiled expression has every character of its words, so determinization keeps
the whole language. -/
theorem accepts_numbered_of_accepts {e : Expr} {n : Nfa} (first : Nat)
    (halphabet : ∀ c, c ∈ n.alphabet.toList ↔ c ∈ e.literals)
    (haccepts : ∀ w, n.accepts w = true ↔ w ∈ e.language) (w : Word) :
    (n.numbered first).accepts w = true ↔ w ∈ e.language := by
  rw [Nfa.accepts_numbered_iff, haccepts]
  refine and_iff_right_of_imp fun hw c hc => ?_
  exact (halphabet c).mpr (Expr.mem_literals_of_mem_language hw hc)

/-- A text that compiles is accepted, with the deterministic automaton numbered behind the other. -/
theorem ofPostfix_of_ok {text : String} {compilation : Compilation} {n : Nfa}
    (hcompile : compile text {} = .ok compilation) (hresult : compilation.result = .ok n)
    (hne : n.states.isEmpty = false) (took : Durations δ) (j : Journal δ) :
    ∃ j', ofPostfix text took j = .ok (.ok ⟨n, n.numbered compilation.supply.next⟩, j') := by
  simp only [ofPostfix, hcompile, Checked.ok_bind, hresult, n.determinize_eq _ hne]
  exact ⟨_, rfl⟩

/-- An error of the compiler is passed on. -/
theorem ofPostfix_of_error {text : String} {compilation : Compilation} {error : CompileError}
    (hcompile : compile text {} = .ok compilation) (hresult : compilation.result = .error error)
    (took : Durations δ) (j : Journal δ) :
    ∃ j', ofPostfix text took j = .ok (.error error, j') := by
  simp only [ofPostfix, hcompile, Checked.ok_bind, hresult]
  exact ⟨_, rfl⟩

/-- **Matching is membership.** No text makes the construction fail. A text is accepted iff it is
the printed form of a tree without operator characters among its literals, and then a word matches
iff it belongs to the language of the tree. The word may hold any characters. -/
theorem ofPostfix_isMatch (text : String) (took : Durations δ) (j : Journal δ) :
    ∃ outcome j', ofPostfix text took j = .ok (outcome, j') ∧
      ((∃ r, outcome = .ok r) ↔ ∃ e : Expr, e.Plain ∧ e.text = text) ∧
      ∀ r (e : Expr), outcome = .ok r → e.Plain → e.text = text →
        ∀ w : String, r.isMatch w = true ↔ w.toList ∈ e.language := by
  obtain ⟨compilation, hcompile, houtcome⟩ := compile_outcome text {}
  rcases houtcome with ⟨e, n, htokens, hresult, hne, halphabet, haccepts⟩ | ⟨hnone, error, hresult⟩
  · obtain ⟨j', hok⟩ := ofPostfix_of_ok hcompile hresult hne took j
    refine ⟨_, j', hok, ?_, ?_⟩
    · exact iff_of_true ⟨_, rfl⟩ ⟨e, Expr.tokenize_eq_tokens_iff.mp htokens⟩
    · intro r e' hr hplain htext w
      obtain rfl := Except.ok.inj hr
      -- the text is the printed form of one tree only
      have htokens' := Expr.tokenize_eq_tokens_iff.mpr ⟨hplain, htext⟩
      rw [← Expr.tokens_injective (htokens.symm.trans htokens')]
      exact accepts_numbered_of_accepts _ halphabet haccepts _
  · obtain ⟨j', herror⟩ := ofPostfix_of_error hcompile hresult took j
    refine ⟨_, j', herror, ?_, ?_⟩
    · refine iff_of_false (fun ⟨_, h⟩ => by cases h) fun ⟨e, he⟩ => hnone e ?_
      exact Expr.tokenize_eq_tokens_iff.mpr he
    · intro r _ hr
      cases hr

end Regex

end PostfixRegex
