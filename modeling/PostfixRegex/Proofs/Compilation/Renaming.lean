import PostfixRegex.Proofs.Compilation
import PostfixRegex.Proofs.Renaming

/-!
# Compiling under other names

The construction never asks which identifier or which literal it has in hand. Identifiers are taken
from the supply, stored and compared with each other; literals are stored and looked up among the
literals seen before. So if the supply starts further up and the literals are other ones, every
intermediate result is the old one under other names, and a call that was refused is refused again.

Every lemma here has the same form: what succeeded with the old names succeeds with the new ones,
and the result is the renamed result. That an operation succeeds in the first place is known
already. Reserved characters denote operators, so a text only corresponds to another one if these
characters stay as they are (`FixesOperators`).

## Main definitions

* `Fragment.rename`, `Builder.rename`, `Compilation.rename`
* `FixesOperators` — reserved characters keep their meaning

## Main results

* `Builder.apply_rename`, `Builder.finish_rename` — the calls that a compilation makes
* `Builder.feed_rename` — all tokens
* `compile_rename` — a whole text
* `compile_skip` — a whole text, when the supply alone is another one
-/

namespace PostfixRegex

/-! ### Fragments -/

theorem State.leaveTo_rename (ρ : Renaming) (s : State) (targets : List Nat) :
    (s.rename ρ).leaveTo (targets.map (· + ρ.offset)) = (s.leaveTo targets).rename ρ := by
  simp only [leaveTo, rename, List.map_append, List.map_map]
  rfl

namespace Fragment

variable {f left right inner : Fragment} {start last : Nat}

def rename (ρ : Renaming) (f : Fragment) : Fragment :=
  ⟨f.states.rename ρ, f.start + ρ.offset, f.last + ρ.offset⟩

theorem checked_rename (ρ : Renaming) (h : left.checked = .ok f) :
    (left.rename ρ).checked = .ok (f.rename ρ) := by
  have haccepting : ((left.rename ρ).states.get? (left.rename ρ).last).any State.accepting =
      (left.states.get? left.last).any State.accepting := by
    change ((left.states.rename ρ).get? (left.last + ρ.offset)).any State.accepting = _
    rw [Table.get?_rename, Option.any_map]
    rfl
  rw [checked] at h
  split at h
  · next hlast =>
    cases h
    exact if_pos (haccepting.trans hlast)
  · cases h

theorem leaveLast_rename (ρ : Renaming) {targets : List Nat} (h : left.leaveLast targets = .ok f) :
    (left.rename ρ).leaveLast (targets.map (· + ρ.offset)) = .ok (f.rename ρ) := by
  rw [leaveLast] at h
  split at h
  · next hlast =>
    cases h
    refine (if_pos ((left.states.contains_rename ρ left.last).trans hlast)).trans ?_
    have hstates := left.states.modify_rename ρ left.last (fun s => s.id_leaveTo targets)
      (fun s => s.id_leaveTo _) fun s => s.leaveTo_rename ρ targets
    exact congrArg (fun states => Except.ok (mk states _ _)) hstates
  · cases h

theorem atom_rename (ρ : Renaming) {c : Char} (h : atom c start last = .ok f) :
    atom (ρ.char c) (start + ρ.offset) (last + ρ.offset) = .ok (f.rename ρ) := by
  rw [atom, Checked.bind_eq_ok] at h
  obtain ⟨states, hstates, h⟩ := h
  cases h
  rw [atom]
  exact Checked.bind_eq_ok.mpr ⟨_, Table.ofList_rename ρ hstates, rfl⟩

theorem concatenate_rename (ρ : Renaming) (h : left.concatenate right = .ok f) :
    (left.rename ρ).concatenate (right.rename ρ) = .ok (f.rename ρ) := by
  rw [concatenate, Checked.bind_eq_ok] at h
  obtain ⟨left', hleft, h⟩ := h
  obtain ⟨states, hstates, h⟩ := Checked.bind_eq_ok.mp h
  rw [concatenate]
  refine Checked.bind_eq_ok.mpr ⟨_, leaveLast_rename ρ hleft, ?_⟩
  refine Checked.bind_eq_ok.mpr ⟨_, Table.append_rename ρ hstates, ?_⟩
  exact checked_rename ρ h

/-- How `star` and `union` end: two more states are put around the others. -/
theorem enclosed_rename (ρ : Renaming) {t : Table} {first second : State}
    (h : (do
      let states ← t.insert first
      let states ← states.insert second
      checked { states, start, last }) = .ok f) :
    (do
      let states ← (t.rename ρ).insert (first.rename ρ)
      let states ← states.insert (second.rename ρ)
      checked { states, start := start + ρ.offset, last := last + ρ.offset }) =
        .ok (f.rename ρ) := by
  obtain ⟨states, hstates, h⟩ := Checked.bind_eq_ok.mp h
  obtain ⟨states', hstates', h⟩ := Checked.bind_eq_ok.mp h
  refine Checked.bind_eq_ok.mpr ⟨_, Table.insert_rename ρ hstates, ?_⟩
  refine Checked.bind_eq_ok.mpr ⟨_, Table.insert_rename ρ hstates', ?_⟩
  exact checked_rename ρ h

theorem star_rename (ρ : Renaming) (h : inner.star start last = .ok f) :
    (inner.rename ρ).star (start + ρ.offset) (last + ρ.offset) = .ok (f.rename ρ) := by
  rw [star, Checked.bind_eq_ok] at h
  obtain ⟨left, hleft, h⟩ := h
  rw [star]
  refine Checked.bind_eq_ok.mpr ⟨_, leaveLast_rename ρ hleft, ?_⟩
  exact enclosed_rename ρ h

theorem union_rename (ρ : Renaming) (h : left.union right start last = .ok f) :
    (left.rename ρ).union (right.rename ρ) (start + ρ.offset) (last + ρ.offset) =
      .ok (f.rename ρ) := by
  rw [union, Checked.bind_eq_ok] at h
  obtain ⟨left', hleft, h⟩ := h
  obtain ⟨right', hright, h⟩ := Checked.bind_eq_ok.mp h
  obtain ⟨states, hstates, h⟩ := Checked.bind_eq_ok.mp h
  rw [union]
  refine Checked.bind_eq_ok.mpr ⟨_, leaveLast_rename ρ hleft, ?_⟩
  refine Checked.bind_eq_ok.mpr ⟨_, leaveLast_rename ρ hright, ?_⟩
  refine Checked.bind_eq_ok.mpr ⟨_, Table.append_rename ρ hstates, ?_⟩
  exact enclosed_rename ρ h

end Fragment

/-! ### Builders -/

/-- Taking an identifier from a supply that stands further up. -/
theorem Supply.fresh_skip (supply : Supply) (n : Nat) :
    (supply.skip n).fresh = (supply.fresh.1 + n, supply.fresh.2.skip n) := by
  rw [fresh, fresh, skip, skip, Nat.add_right_comm]

namespace Builder

variable {b b' : Builder} {outcome : Except MissingOperands Builder}

def rename (ρ : Renaming) (b : Builder) : Builder :=
  ⟨b.supply.skip ρ.offset, b.stack.map (Fragment.rename ρ), b.alphabet.relabel ρ.char⟩

theorem atom_rename (ρ : Renaming) {c : Char} (h : b.atom c = .ok b') :
    (b.rename ρ).atom (ρ.char c) = .ok (b'.rename ρ) := by
  obtain ⟨f, hf, h⟩ := Checked.bind_eq_ok.mp h
  cases h
  simp only [atom, rename, Supply.fresh_skip, Alphabet.insert_relabel]
  exact Checked.bind_eq_ok.mpr ⟨_, Fragment.atom_rename ρ hf, rfl⟩

theorem concatenate_rename (ρ : Renaming) (h : b.concatenate = .ok outcome) :
    (b.rename ρ).concatenate = .ok (outcome.map (rename ρ)) := by
  obtain ⟨supply, stack, alphabet⟩ := b
  match stack, h with
  | [], h | [_], h =>
    cases h
    rfl
  | right :: left :: rest, h =>
    obtain ⟨f, hf, h⟩ := Checked.bind_eq_ok.mp h
    cases h
    exact Checked.bind_eq_ok.mpr ⟨_, Fragment.concatenate_rename ρ hf, rfl⟩

theorem star_rename (ρ : Renaming) (h : b.star = .ok outcome) :
    (b.rename ρ).star = .ok (outcome.map (rename ρ)) := by
  obtain ⟨supply, stack, alphabet⟩ := b
  match stack, h with
  | [], h =>
    cases h
    rfl
  | inner :: rest, h =>
    obtain ⟨f, hf, h⟩ := Checked.bind_eq_ok.mp h
    cases h
    simp only [star, rename, Supply.fresh_skip]
    exact Checked.bind_eq_ok.mpr ⟨_, Fragment.star_rename ρ hf, rfl⟩

theorem union_rename (ρ : Renaming) (h : b.union = .ok outcome) :
    (b.rename ρ).union = .ok (outcome.map (rename ρ)) := by
  obtain ⟨supply, stack, alphabet⟩ := b
  match stack, h with
  | [], h | [_], h =>
    cases h
    rfl
  | right :: left :: rest, h =>
    obtain ⟨f, hf, h⟩ := Checked.bind_eq_ok.mp h
    cases h
    simp only [union, rename, Supply.fresh_skip]
    exact Checked.bind_eq_ok.mpr ⟨_, Fragment.union_rename ρ hf, rfl⟩

theorem apply_rename (ρ : Renaming) (op : Operator) (h : b.apply op = .ok outcome) :
    (b.rename ρ).apply op = .ok (outcome.map (rename ρ)) := by
  cases op with
  | union =>
    rw [apply_union] at h ⊢
    exact union_rename ρ h
  | star =>
    rw [apply_star] at h ⊢
    exact star_rename ρ h
  | concatenate =>
    rw [apply_concatenate] at h ⊢
    exact concatenate_rename ρ h

theorem finish_rename (ρ : Renaming) {outcome : Except Nat Nfa} (h : b.finish = .ok outcome) :
    (b.rename ρ).finish = .ok (outcome.map (Nfa.rename ρ)) := by
  obtain ⟨supply, stack, alphabet⟩ := b
  match stack, h with
  | [], h =>
    cases h
    rfl
  | [f], h =>
    obtain ⟨n, hn, h⟩ := Checked.bind_eq_ok.mp h
    cases h
    exact Checked.bind_eq_ok.mpr ⟨_, Nfa.ofTable_rename ρ hn, rfl⟩
  | f :: g :: rest, h =>
    cases h
    have hlength : ((f :: g :: rest).map (Fragment.rename ρ)).length = (f :: g :: rest).length :=
      List.length_map _
    exact congrArg (fun k => Except.ok (Except.error k)) hlength

end Builder

/-! ### Tokens -/

/-- Replaces a literal. Operators stay. -/
def Token.relabel (σ : Char ↪ Char) : Token → Token
  | literal c => literal (σ c)
  | operator op => operator op

/-- Reserved characters keep their meaning. -/
def FixesOperators (σ : Char ↪ Char) : Prop :=
  ∀ op : Operator, σ op.char = op.char

theorem FixesOperators.ofChar_eq {σ : Char ↪ Char} (h : FixesOperators σ) (c : Char) :
    Token.ofChar (σ c) = (Token.ofChar c).relabel σ := by
  cases hc : Operator.ofChar? c with
  | some op =>
    obtain rfl := Operator.ofChar?_eq_some_iff.mp hc
    rw [h op, Token.ofChar_char_operator]
    rfl
  | none =>
    -- no other character takes the place of a reserved one
    have hne : Operator.ofChar? (σ c) = none := by
      rw [Option.eq_none_iff_forall_ne_some]
      intro op hop
      have heq : σ c = σ op.char := (Operator.ofChar?_eq_some_iff.mp hop).trans (h op).symm
      rw [σ.injective heq, Operator.ofChar?_char] at hc
      cases hc
    rw [Token.ofChar_eq_literal_iff.mpr ⟨rfl, hc⟩, Token.ofChar_eq_literal_iff.mpr ⟨rfl, hne⟩]
    rfl

theorem FixesOperators.tokenize_eq {σ : Char ↪ Char} (h : FixesOperators σ) (text : String) :
    tokenize (text.map σ) = (tokenize text).map (Token.relabel σ) := by
  rw [tokenize, tokenize, String.toList_map, List.map_map, List.map_map]
  exact List.map_congr_left fun c _ => h.ofChar_eq c

/-! ### Whole texts -/

/-- The same tokens with other literals. -/
theorem Builder.feed_rename (ρ : Renaming) {b b' : Builder} {position : Nat} {tokens : List Token}
    {outcome : Except CompileError Unit} (h : b.feed position tokens = .ok (b', outcome)) :
    (b.rename ρ).feed position (tokens.map (Token.relabel ρ.char)) =
      .ok (b'.rename ρ, outcome) := by
  induction tokens generalizing b position with
  | nil =>
    cases h
    rfl
  | cons t tokens ih =>
    cases t with
    | literal c =>
      rw [feed, Checked.bind_eq_ok] at h
      obtain ⟨b₁, hb₁, h⟩ := h
      exact (feed_literal position _ (atom_rename ρ hb₁)).trans (ih h)
    | operator op =>
      rw [feed, Checked.bind_eq_ok] at h
      obtain ⟨answer, hanswer, h⟩ := h
      have hanswer' := apply_rename ρ op hanswer
      cases answer with
      | ok b₁ => exact (feed_operator position _ hanswer').trans (ih h)
      | error m =>
        cases h
        rw [List.map_cons, Token.relabel, feed]
        exact Checked.bind_eq_ok.mpr ⟨_, hanswer', rfl⟩

/-- The compilation of a text under other names. Errors name no identifier and no literal. -/
def Compilation.rename (ρ : Renaming) (c : Compilation) : Compilation :=
  ⟨c.builder.rename ρ, c.result.map (Nfa.rename ρ)⟩

theorem compile_rename (ρ : Renaming) (hρ : FixesOperators ρ.char) {text : String} {supply : Supply}
    {c : Compilation} (h : compile text supply = .ok c) :
    compile (text.map ρ.char) (supply.skip ρ.offset) = .ok (c.rename ρ) := by
  have hfeed : ∀ {b outcome}, Builder.feed { supply } 0 (tokenize text) = .ok (b, outcome) →
      Builder.feed { supply := supply.skip ρ.offset } 0 (tokenize (text.map ρ.char)) =
        .ok (b.rename ρ, outcome) := by
    intro b outcome hb
    rw [hρ.tokenize_eq]
    exact Builder.feed_rename ρ hb
  rcases compile_cases h with ⟨b, e, hb, rfl⟩ | ⟨b, k, hb, hfinish, rfl⟩ | ⟨b, n, hb, hfinish, rfl⟩
  · exact compile_of_refused (hfeed hb)
  · exact compile_of_leftover (hfeed hb) (Builder.finish_rename ρ hfinish)
  · exact compile_of_finish (hfeed hb) (Builder.finish_rename ρ hfinish)

/-! ### Another place in the supply -/

/-- The state with the identifier and all targets moved up by `k`. Labels, their order and the
accepting flag stay. -/
def State.shifted (k : Nat) (s : State) : State :=
  ⟨s.id + k, s.accepting, s.transitions.map fun t => ⟨t.symbol, t.target + k⟩⟩

theorem State.rename_shift (k : Nat) (s : State) : s.rename (.shift k) = s.shifted k := by
  simp only [rename, shifted, funext (Transition.rename_shift k)]
  rfl

theorem Nfa.toList_states_rename_shift (k : Nat) (n : Nfa) :
    (n.rename (.shift k)).states.toList = n.states.toList.map (State.shifted k) := by
  change n.states.toList.map (State.rename (.shift k)) = _
  exact List.map_congr_left fun s _ => s.rename_shift k

/-- The text is the same one when no character is replaced. -/
theorem compile_shift (k : Nat) {text : String} {supply : Supply} {c : Compilation}
    (h : compile text supply = .ok c) :
    compile text (supply.skip k) = .ok (c.rename (.shift k)) := by
  have htext : text.map (Function.Embedding.refl Char) = text := by
    rw [← String.toList_inj, String.toList_map]
    exact List.map_id _
  have hrename := compile_rename (.shift k) (fun _ => rfl) h
  rwa [show (Renaming.shift k).char = .refl Char from rfl, htext] at hrename

/-- **Relocation.** Where the supply stands when a text is compiled decides about nothing but the
numbers in the automaton. With a supply that is `k` further on, the error is the same one, or the
automaton has every identifier and every target moved by `k` and is otherwise the same. The supply
is `k` further on afterwards too. -/
theorem compile_skip (text : String) (supply : Supply) (k : Nat) :
    ∃ c c', compile text supply = .ok c ∧ compile text (supply.skip k) = .ok c' ∧
      c'.supply.next = c.supply.next + k ∧
      ((∃ e, c.result = .error e ∧ c'.result = .error e) ∨
        ∃ n n', c.result = .ok n ∧ c'.result = .ok n' ∧ n'.start = n.start + k ∧
          n'.alphabet = n.alphabet ∧
          n'.states.toList = n.states.toList.map (State.shifted k)) := by
  obtain ⟨c, hcompile, _⟩ := exists_compilation Fragment.inherited_true text supply
  refine ⟨c, c.rename (.shift k), hcompile, compile_shift k hcompile, rfl, ?_⟩
  obtain ⟨b, result⟩ := c
  cases result with
  | error e => exact .inl ⟨e, rfl, rfl⟩
  | ok n =>
    refine .inr ⟨n, n.rename (.shift k), rfl, rfl, rfl, ?_, n.toList_states_rename_shift k⟩
    exact n.alphabet.relabel_refl

end PostfixRegex
