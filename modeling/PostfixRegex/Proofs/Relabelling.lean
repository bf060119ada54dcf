import PostfixRegex.Proofs.Compilation.Renaming
import PostfixRegex.Proofs.Determinization.Renaming
import PostfixRegex.Proofs.Regex

/-!
# No literal is special

Replace the literals of an expression by others, different ones by different ones, and do the same
to every word: nothing changes but the labels. There is no character that a label could be mistaken
for, in particular none that stands for the empty label, and no step of the way from text to answer
depends on the order of characters.

What is compiled has the same identifiers, so the sets of states are the same on both sides, not
only matched with each other. Hence the deterministic automata agree in their sets too, and a run on
the new word visits the same states as the run on the old one.

## Main definitions

* `Regex.relabel` — the two automata with other labels

## Main results

* `Nfa.determinize_relabel` — one determinization for both
* `Regex.ofPostfix_relabel` — from text to answer
-/

namespace PostfixRegex

theorem Signature.map_eq_self {r : Nat → Nat} (hr : ∀ x, r x = x) (s : Signature) :
    s.map r = s := by
  refine ext_mem fun x => ?_
  rw [mem_map]
  simp only [hr, exists_eq_right]

namespace Nfa

variable (σ : Char ↪ Char) (n : Nfa)

/-- Other labels leave the sets of states as they are. -/
theorem mirrors_relabel : (n.rename (.relabel σ)).Mirrors σ (fun s => s) n := by
  have hsame : Signature.map (Renaming.relabel σ).id = fun s => s :=
    funext (Signature.map_eq_self fun _ => rfl)
  exact hsame ▸ (renamedTo_rename (.relabel σ) n).mirrors

theorem numbered_relabel (first : Nat) :
    (n.rename (.relabel σ)).numbered first = (n.numbered first).rename (.relabel σ) := by
  have h := n.mirrors_relabel σ
  exact Dfa.ext (h.numbered_eq (ρ := .relabel σ) first) (h.subsets_eq.trans (List.map_id _))

/-- **One determinization for both.** The automaton with other labels has the same states, numbered
in the same way and standing for the same sets. -/
theorem determinize_relabel (supply : Supply) (h : n.states.isEmpty = false) :
    ∃ d after, n.determinize supply = some (d, after) ∧
      (n.rename (.relabel σ)).determinize supply = some (d.rename (.relabel σ), after) := by
  have h' : (n.rename (.relabel σ)).states.isEmpty = false :=
    (n.states.isEmpty_rename (.relabel σ)).trans h
  refine ⟨_, _, n.determinize_eq supply h, ?_⟩
  rw [determinize_eq _ supply h', numbered_relabel, (n.mirrors_relabel σ).subsets_eq,
    List.length_map]

end Nfa

/-- The compilation with other labels takes the same identifiers. -/
theorem compile_relabel {σ : Char ↪ Char} (hσ : FixesOperators σ) {text : String} {supply : Supply}
    {c : Compilation} (h : compile text supply = .ok c) :
    compile (text.map σ) supply = .ok (c.rename (.relabel σ)) :=
  compile_rename (.relabel σ) hσ h

namespace Regex

variable {σ : Char ↪ Char} {δ : Type}

/-- The expression with other labels. -/
def relabel (σ : Char ↪ Char) (r : Regex) : Regex :=
  ⟨r.nfa.rename (.relabel σ), r.dfa.rename (.relabel σ)⟩

/-- The words correspond like the labels. -/
theorem isMatch_relabel (σ : Char ↪ Char) (r : Regex) (w : String) :
    (r.relabel σ).isMatch (w.map σ) = r.isMatch w := by
  rw [isMatch, isMatch, String.toList_map]
  exact r.dfa.accepts_rename (.relabel σ) w.toList

/-- An expression with other literals, when the expression itself compiles. -/
theorem ofPostfix_map_of_ok {text : String} {c : Compilation} {n : Nfa} (hσ : FixesOperators σ)
    (hcompile : compile text {} = .ok c) (hresult : c.result = .ok n)
    (hne : n.states.isEmpty = false) (took : Durations δ) (j : Journal δ) :
    ∃ j', ofPostfix (text.map σ) took j =
      .ok (.ok (relabel σ ⟨n, n.numbered c.supply.next⟩), j') := by
  have hresult' : (c.rename (.relabel σ)).result = .ok (n.rename (.relabel σ)) := by
    rw [Compilation.rename, hresult]
    rfl
  have hne' := (n.states.isEmpty_rename (.relabel σ)).trans hne
  obtain ⟨j', h⟩ := ofPostfix_of_ok (compile_relabel hσ hcompile) hresult' hne' took j
  refine ⟨j', h.trans ?_⟩
  rw [Nfa.numbered_relabel]
  rfl

/-- An expression with other literals, when the expression itself does not compile. -/
theorem ofPostfix_map_of_error {text : String} {c : Compilation} {e : CompileError}
    (hσ : FixesOperators σ) (hcompile : compile text {} = .ok c) (hresult : c.result = .error e)
    (took : Durations δ) (j : Journal δ) :
    ∃ j', ofPostfix (text.map σ) took j = .ok (.error e, j') := by
  have hresult' : (c.rename (.relabel σ)).result = .error e := by
    rw [Compilation.rename, hresult]
    rfl
  exact ofPostfix_of_error (compile_relabel hσ hcompile) hresult' took j

/-- **No literal is special.** Let other characters take the place of the literals. Then the text
compiles to the same automaton with other labels, or to the same error, wherever the supply stands;
both automata determinize alike; and a word matches iff the word with other characters matches the
expression with other literals, however long any of this takes. -/
theorem ofPostfix_relabel (hσ : FixesOperators σ) (text : String) :
    (∀ supply, ∃ c, compile text supply = .ok c ∧
      compile (text.map σ) supply = .ok (c.rename (.relabel σ)) ∧
      ∀ n, c.result = .ok n → ∀ again : Supply, ∃ d after, n.determinize again = some (d, after) ∧
        (n.rename (.relabel σ)).determinize again = some (d.rename (.relabel σ), after)) ∧
    ∀ (took took' : Durations δ) (j : Journal δ), ∃ outcome j₁ j₂,
      ofPostfix text took j = .ok (outcome, j₁) ∧
      ofPostfix (text.map σ) took' j = .ok (outcome.map (relabel σ), j₂) ∧
      ∀ r, outcome = .ok r → ∀ w : String, (r.relabel σ).isMatch (w.map σ) = r.isMatch w := by
  constructor
  · intro supply
    obtain ⟨c, hc, houtcome⟩ := compile_outcome text supply
    refine ⟨c, hc, compile_relabel hσ hc, fun n hn again => ?_⟩
    rcases houtcome with ⟨_, n', _, hn', hne, _⟩ | ⟨_, e, herror⟩
    · obtain rfl := Except.ok.inj (hn.symm.trans hn')
      exact n.determinize_relabel σ again hne
    · cases hn.symm.trans herror
  · intro took took' j
    obtain ⟨c, hc, houtcome⟩ := compile_outcome text {}
    rcases houtcome with ⟨_, n, _, hn, hne, _⟩ | ⟨_, e, herror⟩
    · obtain ⟨j₁, h₁⟩ := ofPostfix_of_ok hc hn hne took j
      obtain ⟨j₂, h₂⟩ := ofPostfix_map_of_ok hσ hc hn hne took' j
      exact ⟨_, j₁, j₂, h₁, h₂, fun r _ w => r.isMatch_relabel σ w⟩
    · obtain ⟨j₁, h₁⟩ := ofPostfix_of_error hc herror took j
      obtain ⟨j₂, h₂⟩ := ofPostfix_map_of_error hσ hc herror took' j
      exact ⟨_, j₁, j₂, h₁, h₂, fun r _ w => r.isMatch_relabel σ w⟩

/-- The two characters that other notations use for the empty label, one in place of the other. -/
def swapZeroEpsilon : Char ↪ Char := (Equiv.swap '0' 'ε').toEmbedding

/-- Neither of them is the empty label here: `0ε&` reads both of them, as `ε0&` does. -/
theorem ofPostfix_relabel_zero_epsilon :
    FixesOperators swapZeroEpsilon ∧
      ∃ r j₁ j₂, ofPostfix "0ε&" ⟨3, 5⟩ {} = .ok (.ok r, j₁) ∧
        ofPostfix "ε0&" ⟨4, 1⟩ {} = .ok (.ok (r.relabel swapZeroEpsilon), j₂) ∧
        r.isMatch "0ε" = true ∧ (r.relabel swapZeroEpsilon).isMatch "ε0" = true := by
  have hfixes : FixesOperators swapZeroEpsilon := by
    intro op
    cases op <;> decide
  have htext : "0ε&".map swapZeroEpsilon = "ε0&" := by
    rw [← String.toList_inj, String.toList_map]
    decide
  have hword : "0ε".map swapZeroEpsilon = "ε0" := by
    rw [← String.toList_inj, String.toList_map]
    decide
  have hmatches : ((ofPostfix "0ε&" ⟨3, 5⟩ {}).toOption.bind fun x =>
      x.1.toOption.map fun r => r.isMatch "0ε") = some true := by cbv
  obtain ⟨outcome, j₁, j₂, h₁, h₂, hmatch⟩ := (ofPostfix_relabel hfixes "0ε&").2 ⟨3, 5⟩ ⟨4, 1⟩ {}
  rw [h₁] at hmatches
  rw [htext] at h₂
  cases outcome with
  | error e => cases hmatches
  | ok r =>
    have hr : r.isMatch "0ε" = true := Option.some.inj hmatches
    refine ⟨hfixes, r, j₁, j₂, h₁, h₂, hr, ?_⟩
    rw [← hword, hmatch r rfl, hr]

end Regex

end PostfixRegex
