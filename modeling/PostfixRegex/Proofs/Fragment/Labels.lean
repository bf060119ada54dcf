import PostfixRegex.Proofs.Builder.Run

/-!
# Counting states and labels

How many states a fragment has and which labels its transitions bear can be read off the tokens of
the tree it comes from. Nothing is shared or left out: a literal is one transition on its character,
and what an operator adds depends on the operator alone. The identifiers play no part.

Only one step needs the shape of a fragment. When the last state is left it gets moves on epsilon,
and since it is the only state under its identifier, the labels of the fragment change by these
moves and by nothing else (`Fragment.perm_labelsOf_leaving`).

## Main definitions

* `literalsOf`, `Tally`, `tally` — the literals among some tokens, and the number of each kind
* `Tally.states`, `Tally.epsilons` — what the makers of fragments spend on tokens
* `labelsOf` — the labels of all transitions of some states
* `Fragment.Counted` — states and labels are those that the tokens ask for

## Main results

* `Fragment.inherited_counted` — the makers hand this on
* `Expr.tally_tokens` — unions and concatenations against literals
-/

namespace PostfixRegex

open scoped List

/-! ### Kinds of tokens -/

/-- The character of a literal. -/
def Token.literal? : Token → Option Char
  | literal c => some c
  | operator _ => none

/-- The literals among the tokens, repetitions kept. -/
def literalsOf (tokens : List Token) : List Char :=
  tokens.filterMap Token.literal?

/-- The number of tokens of each kind. -/
structure Tally where
  literals : Nat
  stars : Nat
  unions : Nat
  concatenations : Nat

/-- Counts the tokens. -/
def tally (tokens : List Token) : Tally where
  literals := (literalsOf tokens).length
  stars := tokens.count (.operator .star)
  unions := tokens.count (.operator .union)
  concatenations := tokens.count (.operator .concatenate)

namespace Tally

/-- Concatenation is the only token that takes no fresh states. -/
def states (t : Tally) : Nat :=
  2 * (t.literals + t.stars + t.unions)

/-- The transitions on epsilon. -/
def epsilons (t : Tally) : Nat :=
  t.concatenations + 4 * t.stars + 4 * t.unions

end Tally

@[simp] theorem literalsOf_append (xs ys : List Token) :
    literalsOf (xs ++ ys) = literalsOf xs ++ literalsOf ys :=
  List.filterMap_append

@[simp] theorem literalsOf_operator (op : Operator) : literalsOf [.operator op] = [] := rfl

namespace Tally

instance : Add Tally where
  add s t := ⟨s.literals + t.literals, s.stars + t.stars, s.unions + t.unions,
    s.concatenations + t.concatenations⟩

theorem add_def (s t : Tally) : s + t = ⟨s.literals + t.literals, s.stars + t.stars,
    s.unions + t.unions, s.concatenations + t.concatenations⟩ := rfl

theorem states_add (s t : Tally) : (s + t).states = s.states + t.states := by
  simp only [add_def, states]
  omega

theorem epsilons_add (s t : Tally) : (s + t).epsilons = s.epsilons + t.epsilons := by
  simp only [add_def, epsilons]
  omega

end Tally

theorem tally_append (xs ys : List Token) : tally (xs ++ ys) = tally xs + tally ys := by
  simp only [tally, Tally.add_def, literalsOf_append, List.length_append, List.count_append]

theorem tally_union : tally [.operator .union] = ⟨0, 0, 1, 0⟩ := rfl

theorem tally_concatenate : tally [.operator .concatenate] = ⟨0, 0, 0, 1⟩ := rfl

theorem tally_star : tally [.operator .star] = ⟨0, 1, 0, 0⟩ := rfl

namespace Expr

/-- The literals of a tree are those of its tokens. -/
@[simp] theorem literalsOf_tokens (e : Expr) : literalsOf e.tokens = e.literals := by
  induction e with
  | literal c => rfl
  | union left right ihl ihr => simp [tokens, literals, ihl, ihr]
  | concatenate left right ihl ihr => simp [tokens, literals, ihl, ihr]
  | star inner ih => simp [tokens, literals, ih]

/-- Unions and concatenations make one tree out of as many as there are literals. -/
theorem tally_tokens (e : Expr) :
    (tally e.tokens).unions + (tally e.tokens).concatenations + 1 =
      (tally e.tokens).literals := by
  induction e with
  | literal c => rfl
  | union left right ihl ihr =>
    simp only [tokens, tally_append, tally_union, Tally.add_def]
    omega
  | concatenate left right ihl ihr =>
    simp only [tokens, tally_append, tally_concatenate, Tally.add_def]
    omega
  | star inner ih =>
    simp only [tokens, tally_append, tally_star, Tally.add_def]
    omega

end Expr

/-! ### Labels -/

/-- The labels of all transitions of the states, repetitions kept. -/
def labelsOf (states : List State) : List Symbol :=
  states.flatMap fun s => s.transitions.map Transition.symbol

@[simp] theorem labelsOf_cons (s : State) (states : List State) :
    labelsOf (s :: states) = s.transitions.map Transition.symbol ++ labelsOf states := rfl

@[simp] theorem labelsOf_append (xs ys : List State) :
    labelsOf (xs ++ ys) = labelsOf xs ++ labelsOf ys :=
  List.flatMap_append

theorem perm_labelsOf {xs ys : List State} (h : xs.Perm ys) : (labelsOf xs).Perm (labelsOf ys) :=
  h.flatMap_right _

/-- A character labels a transition if it is among the labels. -/
theorem mem_labelsOf {states : List State} {symbol : Symbol} :
    symbol ∈ labelsOf states ↔ ∃ s ∈ states, ∃ t ∈ s.transitions, t.symbol = symbol := by
  simp [labelsOf]

theorem Automaton.transitionCount_eq_labels (a : Automaton) :
    a.transitionCount = (labelsOf a.states.toList).length := by
  rw [transitionCount, labelsOf, ← List.map_flatMap, List.length_map]

/-- So many labels on epsilon, and one on each of the characters. -/
def labelsFor (epsilons : Nat) (cs : List Char) : List Symbol :=
  List.replicate epsilons .epsilon ++ cs.map .char

theorem replicate_append_labelsFor (k epsilons : Nat) (cs : List Char) :
    List.replicate k .epsilon ++ labelsFor epsilons cs = labelsFor (k + epsilons) cs := by
  rw [labelsFor, labelsFor, ← List.append_assoc, List.replicate_append_replicate]

theorem perm_labelsFor_append (m n : Nat) (cs ds : List Char) :
    (labelsFor m cs ++ labelsFor n ds).Perm (labelsFor (m + n) (cs ++ ds)) :=
  calc labelsFor m cs ++ labelsFor n ds
    _ = List.replicate m .epsilon ++
        ((cs.map .char ++ List.replicate n .epsilon) ++ ds.map .char) := by
      simp only [labelsFor, List.append_assoc]
    _ ~ List.replicate m .epsilon ++
        ((List.replicate n .epsilon ++ cs.map .char) ++ ds.map .char) :=
      (List.perm_append_comm.append_right _).append_left _
    _ = labelsFor (m + n) (cs ++ ds) := by
      simp only [labelsFor, List.append_assoc, List.map_append, ← List.replicate_append_replicate]

theorem count_char_labelsFor (epsilons : Nat) (cs : List Char) (c : Char) :
    (labelsFor epsilons cs).count (.char c) = cs.count c := by
  rw [labelsFor, List.count_append, List.count_replicate, if_neg (by simp), Nat.zero_add]
  exact List.count_map_of_injective cs Symbol.char (fun _ _ h => Symbol.char.inj h) c

namespace Fragment

variable {f left right inner : Fragment} {e el er : Expr} {start last m n : Nat} {cs ds : List Char}

/-! ### What the makers add -/

/-- The last state stands once in the table and has no transitions. -/
theorem Shape.exists_split (h : f.Shape) : ∃ xs s ys, f.states.toList = xs ++ s :: ys ∧
    s.id = f.last ∧ s.transitions = [] ∧ f.last ∉ xs.map State.id ∧ f.last ∉ ys.map State.id := by
  obtain ⟨s, hs, hid⟩ := List.mem_map.mp h.last_mem
  obtain ⟨xs, ys, hsplit⟩ := List.append_of_mem hs
  have hnodup := f.states.nodup_ids
  rw [Table.ids, hsplit, List.map_append, List.map_cons, hid] at hnodup
  have honce := (List.nodup_cons.mp (List.nodup_middle.mp hnodup)).1
  rw [List.mem_append, not_or] at honce
  exact ⟨xs, s, ys, hsplit, hid, (h.eq_last s hs hid).2, honce⟩

/-- Leaving a fragment adds a label for each way out. -/
theorem perm_labelsOf_leaving (h : f.Shape) (targets : List Nat)
    (hlabels : (labelsOf f.states.toList).Perm (labelsFor m cs)) :
    (labelsOf (f.states.toList.map (leaving f.last targets))).Perm
      (labelsFor (targets.length + m) cs) := by
  obtain ⟨xs, s, ys, hsplit, hid, hnil, hxs, hys⟩ := h.exists_split
  have hnew : (leaving f.last targets s).transitions.map Transition.symbol =
      List.replicate targets.length .epsilon := by
    rw [show leaving f.last targets s = s.leaveTo targets from if_pos hid, State.leaveTo, hnil,
      List.nil_append, List.map_map]
    exact List.map_const' (l := targets) ..
  have hold : labelsOf f.states.toList = labelsOf xs ++ labelsOf ys := by
    rw [hsplit, labelsOf_append, labelsOf_cons, hnil, List.map_nil, List.nil_append]
  calc labelsOf (f.states.toList.map (leaving f.last targets))
    _ = labelsOf xs ++ (List.replicate targets.length .epsilon ++ labelsOf ys) := by
      rw [hsplit, List.map_append, List.map_cons, map_leaving_of_notMem hxs,
        map_leaving_of_notMem hys, labelsOf_append, labelsOf_cons, hnew]
    _ ~ List.replicate targets.length .epsilon ++ (labelsOf xs ++ labelsOf ys) :=
      List.perm_append_comm_assoc ..
    _ ~ List.replicate targets.length .epsilon ++ labelsFor m cs := (hold ▸ hlabels).append_left _
    _ = labelsFor (targets.length + m) cs := replicate_append_labelsFor ..

/-- The new start around a body goes to two states on epsilon. -/
theorem perm_labelsOf_wrap (start last p q : Nat) {body : List State}
    (h : (labelsOf body).Perm (labelsFor m cs)) :
    (labelsOf (wrap start last p q body)).Perm (labelsFor (2 + m) cs) := by
  rw [← replicate_append_labelsFor]
  exact h.append_left [.epsilon, .epsilon]

/-- The fragment has as many states as its tree asks for, and the labels: each literal as often as
it stands in the tree, and epsilon as often as the operators need it. -/
structure Counted (f : Fragment) (e : Expr) : Prop where
  size : f.states.size = (tally e.tokens).states
  labels : (labelsOf f.states.toList).Perm (labelsFor (tally e.tokens).epsilons e.literals)

theorem Consists.size_eq {states : List State} (h : f.Consists start last states) :
    f.states.size = states.length :=
  h.perm.length_eq

/-- **The makers count as the tokens say.** -/
theorem inherited_counted : Inherited Counted where
  atom _ h := ⟨h.size_eq, perm_labelsOf h.perm⟩
  concatenate {f left right el er} hl _ _ h hel her := by
    have hleft := perm_labelsOf_leaving hl [right.start] hel.labels
    have hbody := (hleft.append her.labels).trans (perm_labelsFor_append ..)
    rw [← labelsOf_append] at hbody
    refine ⟨?_, ((perm_labelsOf h.perm).trans hbody).trans (.of_eq ?_)⟩
    · rw [h.size_eq, concatenateStates, List.length_append, List.length_map]
      simp only [Expr.tokens, tally_append, tally_concatenate, Tally.states_add, ← hel.size,
        ← her.size]
      rfl
    · simp only [Expr.tokens, tally_append, tally_concatenate, Tally.epsilons_add]
      rw [List.length_singleton, Nat.add_assoc, Nat.add_comm 1]
      rfl
  star {f inner e start last} hi _ _ _ h he := by
    have hinner := perm_labelsOf_leaving hi [last, inner.start] he.labels
    have hbody := perm_labelsOf_wrap start last last inner.start hinner
    refine ⟨?_, ((perm_labelsOf h.perm).trans hbody).trans (.of_eq ?_)⟩
    · rw [h.size_eq, starStates, wrap, List.length_cons, List.length_cons, List.length_map]
      simp only [Expr.tokens, tally_append, tally_star, Tally.states_add, ← he.size]
      rfl
    · simp only [Expr.tokens, tally_append, tally_star, Tally.epsilons_add]
      rw [← Nat.add_assoc, Nat.add_comm]
      rfl
  union {f left right el er start last} hl hr _ _ _ _ h hel her := by
    have hleft := perm_labelsOf_leaving hl [last] hel.labels
    have hright := perm_labelsOf_leaving hr [last] her.labels
    have hinner := (hleft.append hright).trans (perm_labelsFor_append ..)
    rw [← labelsOf_append] at hinner
    have hbody := perm_labelsOf_wrap start last left.start right.start hinner
    refine ⟨?_, ((perm_labelsOf h.perm).trans hbody).trans (.of_eq ?_)⟩
    · rw [h.size_eq, unionStates, wrap, List.length_cons, List.length_cons, List.length_append,
        List.length_map, List.length_map]
      simp only [Expr.tokens, tally_append, tally_union, Tally.states_add, ← hel.size, ← her.size]
      rfl
    · simp only [Expr.tokens, tally_append, tally_union, Tally.epsilons_add]
      rw [List.length_singleton, Nat.add_add_add_comm, ← Nat.add_assoc, Nat.add_comm]
      rfl

end Fragment

end PostfixRegex
