import PostfixRegex.Proofs.Builder.Run
import PostfixRegex.Proofs.Fragment.Language

/-!
# What the fragments on the stack mean

At every point of a run the stack of fragments and the stack of trees beside it are equally high,
and each fragment reads the language of the tree at its place. So the automaton at the end decides
the language of the only tree.

That the makers act on languages as their names say is all there is to show; the rest is the
induction over runs (`Builder.Carries.performAllWith`).

## Main definitions

* `Builder.Represents` — the invariant that ties the two stacks together

## Main results

* `Fragment.inherited_language` — the makers hand on what a fragment reads
* `Builder.Represents.performAllWith` — every run keeps the invariant
* `Builder.performAllWith_language` — the languages of the fragments and of the automaton
-/

namespace PostfixRegex

/-- **The makers act on languages as their names say.** -/
theorem Fragment.inherited_language : Inherited fun f e => f.language = e.language where
  atom := language_atom
  concatenate hl hr hd h hel her := by
    rw [language_concatenate hl hr hd h, hel, her]
    rfl
  star hi hne hstart hlast h he := by
    rw [language_star hi hne hstart hlast h, he]
    rfl
  union hl hr hne hd hstart hlast h hel her := by
    rw [language_union hl hr hne hd hstart hlast h, hel, her]
    rfl

namespace Builder

/-! ### The invariant -/

/-- **The fragments read the languages of the trees**, place by place, and the alphabet holds the
literals of the trees. -/
structure Represents (first : Nat) (b : Builder) (trees : List Expr) : Prop
    extends Sound first b where
  languages : List.Forall₂ (fun f e => f.language = e.language) b.stack trees
  alphabet : ∀ c, c ∈ b.alphabet.toList ↔ c ∈ trees.flatMap Expr.literals

variable {b : Builder} {first : Nat} {trees : List Expr}

theorem represents_iff_carries :
    b.Represents first trees ↔ b.Carries (fun f e => f.language = e.language) first trees := by
  constructor
  · intro h
    exact ⟨h.toSound, h.languages, h.alphabet⟩
  · intro h
    exact ⟨h.toSound, h.related, h.alphabet⟩

theorem represents_start (supply : Supply) : Represents supply.next { supply } [] :=
  represents_iff_carries.mpr (carries_start _ supply)

theorem Represents.height_eq (h : b.Represents first trees) : b.height = trees.length :=
  h.languages.length_eq

/-- **Every run keeps the invariant**, and no run fails. -/
theorem Represents.performAllWith (h : b.Represents first trees) (calls : List Call) :
    ∃ b' trees', Builder.performAllWith (b, trees) calls = .ok (b', trees') ∧
      b.performAll calls = .ok b' ∧ b'.Represents first trees' := by
  obtain ⟨b', trees', hwith, hrun, h'⟩ :=
    (represents_iff_carries.mp h).performAllWith Fragment.inherited_language calls
  exact ⟨b', trees', hwith, hrun, represents_iff_carries.mpr h'⟩

/-! ### The end -/

/-- With one tree, the builder yields an automaton that decides the language of the tree. -/
theorem Represents.finish {e : Expr} (h : b.Represents first [e]) :
    ∃ n : Nfa, b.finish = .ok (.ok n) ∧ n.states.isEmpty = false ∧ n.alphabet = b.alphabet ∧
      ∀ w, n.accepts w = true ↔ w ∈ e.language := by
  obtain ⟨f, n, hok, hf, hshape, hn⟩ := (represents_iff_carries.mp h).finish
  refine ⟨n, hok, ?_, ?_, fun w => ?_⟩
  · rw [hn]
    exact hshape.isEmpty_eq_false
  · rw [hn]
  · rw [hshape.accepts_iff hn, hf]

/-- What the paths through the fragment at a place spell. -/
theorem Represents.path_iff (h : b.Represents first trees) {i : Nat} {f : Fragment} {e : Expr}
    (hf : b.stack[i]? = some f) (he : trees[i]? = some e) (w : Word) :
    f.states.Path f.start w f.last ↔ w ∈ e.language := by
  obtain ⟨hi, rfl⟩ := List.getElem?_eq_some_iff.mp hf
  obtain ⟨hi', rfl⟩ := List.getElem?_eq_some_iff.mp he
  have hlanguage : b.stack[i].language = trees[i].language := h.languages.get hi hi'
  rw [← Fragment.mem_language, hlanguage]

/-- **The stack semantics of a builder.** Whatever calls are made and whichever of them are refused,
fragment by fragment the stack reads the languages of the trees beside it. Since the calls are
arbitrary, this holds after every prefix of a run. The builder yields an automaton exactly when
there is one tree, and the automaton decides the language of that tree. -/
theorem performAllWith_language (supply : Supply) (calls : List Call) :
    ∃ b trees, performAllWith ({ supply }, []) calls = .ok (b, trees) ∧
      performAll { supply } calls = .ok b ∧ b.height = trees.length ∧
      (∀ (i : Nat) f e, b.stack[i]? = some f → trees[i]? = some e →
        ∀ w, f.states.Path f.start w f.last ↔ w ∈ e.language) ∧
      ((trees.length ≠ 1 ∧ b.finish = .ok (.error trees.length)) ∨
        ∃ e n, trees = [e] ∧ b.finish = .ok (.ok n) ∧
          ∀ w, n.accepts w = true ↔ w ∈ e.language) := by
  obtain ⟨b, trees, hwith, hrun, h⟩ := (represents_start supply).performAllWith calls
  refine ⟨b, trees, hwith, hrun, h.height_eq, fun i f e hf he w => h.path_iff hf he w, ?_⟩
  by_cases hlen : trees.length = 1
  · obtain ⟨e, rfl⟩ := List.length_eq_one_iff.mp hlen
    obtain ⟨n, hfinish, _, _, haccepts⟩ := h.finish
    exact .inr ⟨e, n, rfl, hfinish, haccepts⟩
  · refine .inl ⟨hlen, ?_⟩
    rw [← h.height_eq] at hlen ⊢
    exact finish_of_height_ne hlen

end Builder

end PostfixRegex
