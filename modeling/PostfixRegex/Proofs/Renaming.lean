import Mathlib.Data.List.Nodup
import Mathlib.Logic.Embedding.Basic
import PostfixRegex.Dfa
import PostfixRegex.Proofs.Table

/-!
# Renaming

The names in an automaton are of two kinds: identifiers and characters. A `Renaming` moves all
identifiers up by the same distance and replaces characters along an injection. This module says
what that does to states, tables and automata, and that the operations on tables do not notice.

Moving by a distance keeps identifiers in order, so a renamed table lists the renamed states at
their old places. That would be lost if identifiers were renamed along any injection, and there is
no need for it here: what an arbitrary renaming of identifiers does to a determinization is said by
a relation between two automata, since only the sets of states matter there.

## Scope

A renamed table is compared with tables that were built in the same way, so the operations are only
shown to succeed again where they succeeded before. What they report otherwise would name a renamed
identifier, and nobody asks for it.

## Main definitions

* `Renaming`, with `Renaming.shift` and `Renaming.relabel` for one kind of names at a time
* `State.rename`, `Table.rename`, `Automaton.rename`, `Nfa.rename`, `Dfa.rename`

## Main results

* `Table.insert_rename`, `Table.append_rename`, `Table.modify_rename` — tables are built alike
* `Dfa.accepts_rename` — renamed words are accepted like the words
-/

namespace PostfixRegex

/-- New names: identifiers move up by `offset`, and `char` replaces the characters. -/
structure Renaming where
  offset : Nat
  char : Char ↪ Char

namespace Renaming

/-- Moves the identifiers and keeps the characters. -/
def shift (offset : Nat) : Renaming := ⟨offset, .refl Char⟩

/-- Replaces the characters and keeps the identifiers. -/
def relabel (σ : Char ↪ Char) : Renaming := ⟨0, σ⟩

/-- The new names of identifiers. -/
def id (ρ : Renaming) : Nat ↪ Nat := ⟨(· + ρ.offset), fun _ _ h => Nat.add_right_cancel h⟩

end Renaming

/-- Replaces the character of a label. The empty label is none, so it stays. -/
def Symbol.relabel (σ : Char ↪ Char) : Symbol → Symbol
  | epsilon => epsilon
  | char c => char (σ c)

theorem Symbol.relabel_injective (σ : Char ↪ Char) : Function.Injective (relabel σ)
  | epsilon, epsilon, _ => rfl
  | char _, char _, h => congrArg char (σ.injective (Symbol.char.inj h))

@[simp] theorem Symbol.relabel_refl (symbol : Symbol) : symbol.relabel (.refl Char) = symbol := by
  cases symbol <;> rfl

def Transition.rename (ρ : Renaming) (t : Transition) : Transition :=
  ⟨t.symbol.relabel ρ.char, t.target + ρ.offset⟩

theorem Transition.rename_shift (k : Nat) (t : Transition) :
    t.rename (.shift k) = ⟨t.symbol, t.target + k⟩ := by
  change Transition.mk (t.symbol.relabel (.refl Char)) (t.target + k) = _
  rw [Symbol.relabel_refl]

def State.rename (ρ : Renaming) (s : State) : State :=
  ⟨s.id + ρ.offset, s.accepting, s.transitions.map (Transition.rename ρ)⟩

def Alphabet.relabel (σ : Char ↪ Char) (a : Alphabet) : Alphabet :=
  ⟨a.toList.map σ, List.Nodup.map σ.injective a.nodup⟩

@[simp] theorem Alphabet.relabel_refl (a : Alphabet) : a.relabel (.refl Char) = a :=
  Alphabet.ext (List.map_id _)

theorem Alphabet.insert_relabel (σ : Char ↪ Char) (a : Alphabet) (c : Char) :
    (a.relabel σ).insert (σ c) = (a.insert c).relabel σ := by
  have hmem : σ c ∈ a.toList.map σ ↔ c ∈ a.toList := List.mem_map_of_injective σ.injective
  refine Alphabet.ext ?_
  change ((a.relabel σ).insert (σ c)).toList = (a.insert c).toList.map σ
  rw [toList_insert, toList_insert]
  change (if σ c ∈ a.toList.map σ then a.toList.map σ else a.toList.map σ ++ [σ c]) = _
  simp only [hmem]
  split
  · rfl
  · rw [List.map_append, List.map_singleton]

/-! ### Tables -/

namespace Table

variable {ρ : Renaming} {t t' : Table} {s : State} {id : Nat}

/-- The renamed states, in the same order. -/
def rename (ρ : Renaming) (t : Table) : Table :=
  ⟨t.toList.map (State.rename ρ), t.sorted.map _ fun _ _ h => Nat.add_lt_add_right h ρ.offset⟩

@[simp] theorem toList_rename (ρ : Renaming) (t : Table) :
    (t.rename ρ).toList = t.toList.map (State.rename ρ) := rfl

theorem ids_rename (ρ : Renaming) (t : Table) : (t.rename ρ).ids = t.ids.map (· + ρ.offset) := by
  simp only [ids, toList_rename, List.map_map]
  rfl

theorem isEmpty_rename (ρ : Renaming) (t : Table) : (t.rename ρ).isEmpty = t.isEmpty :=
  List.isEmpty_map

theorem contains_rename (ρ : Renaming) (t : Table) (id : Nat) :
    (t.rename ρ).contains (id + ρ.offset) = t.contains id := by
  rw [Bool.eq_iff_iff, contains_iff, contains_iff, ids_rename]
  exact List.mem_map_of_injective ρ.id.injective

theorem get?_rename (ρ : Renaming) (t : Table) (id : Nat) :
    (t.rename ρ).get? (id + ρ.offset) = (t.get? id).map (State.rename ρ) := by
  have hsame : ∀ s : State, decide ((s.rename ρ).id = id + ρ.offset) = decide (s.id = id) := by
    intro s
    exact decide_eq_decide.mpr Nat.add_right_cancel_iff
  rw [get?, toList_rename, List.find?_map, get?]
  simp only [Function.comp_def, hsame]

theorem place_rename (ρ : Renaming) (s : State) : ∀ xs : List State,
    place (s.rename ρ) (xs.map (State.rename ρ)) = (place s xs).map (State.rename ρ)
  | [] => rfl
  | x :: xs => by
    have hlt : (s.rename ρ).id < (x.rename ρ).id ↔ s.id < x.id := Nat.add_lt_add_iff_right
    rw [List.map_cons, place, place]
    simp only [hlt]
    split
    · rfl
    · rw [List.map_cons, place_rename ρ s xs]

theorem insert_rename (ρ : Renaming) (h : t.insert s = .ok t') :
    (t.rename ρ).insert (s.rename ρ) = .ok (t'.rename ρ) := by
  rw [insert] at h
  split at h
  · cases h
  · next hfree =>
    cases h
    have hfree' : ¬ (t.rename ρ).contains (s.rename ρ).id = true := by
      rwa [show (s.rename ρ).id = s.id + ρ.offset from rfl, contains_rename]
    rw [insert, dif_neg hfree']
    exact congrArg Except.ok (Table.ext (place_rename ρ s t.toList))

/-- Collecting renamed states, from any table on. -/
theorem foldlM_insert_rename (ρ : Renaming) {states : List State}
    (h : states.foldlM insert t = .ok t') :
    (states.map (State.rename ρ)).foldlM insert (t.rename ρ) = .ok (t'.rename ρ) := by
  induction states generalizing t with
  | nil =>
    cases h
    rfl
  | cons s states ih =>
    rw [List.foldlM_cons, Checked.bind_eq_ok] at h
    obtain ⟨t₁, ht₁, h⟩ := h
    rw [List.map_cons, List.foldlM_cons, insert_rename ρ ht₁, Checked.ok_bind]
    exact ih h

theorem ofList_rename (ρ : Renaming) {states : List State} (h : ofList states = .ok t) :
    ofList (states.map (State.rename ρ)) = .ok (t.rename ρ) :=
  foldlM_insert_rename ρ h

theorem append_rename (ρ : Renaming) {a b : Table} (h : a.append b = .ok t) :
    (a.rename ρ).append (b.rename ρ) = .ok (t.rename ρ) := by
  rw [append] at h
  split at h
  · cases h
  · next hnone =>
    cases h
    have hnone' : (a.rename ρ).firstCommon? (b.rename ρ) = none := by
      rw [firstCommon?, List.find?_eq_none, ids_rename, List.forall_mem_map]
      intro id hid
      rw [contains_rename]
      exact List.find?_eq_none.mp hnone id hid
    have hmerge : mergeById (a.rename ρ).toList (b.rename ρ).toList =
        (mergeById a.toList b.toList).map (State.rename ρ) :=
      (List.map_merge fun x _ y _ => decide_eq_decide.mpr Nat.add_le_add_iff_right.symm).symm
    rw [append]
    split
    · next id hsome =>
      rw [hnone'] at hsome
      cases hsome
    · exact congrArg Except.ok (Table.ext hmerge)

theorem modify_rename (ρ : Renaming) (t : Table) (id : Nat) {f f' : State → State}
    (hf : ∀ s, (f s).id = s.id) (hf' : ∀ s, (f' s).id = s.id)
    (h : ∀ s, f' (s.rename ρ) = (f s).rename ρ) :
    (t.rename ρ).modify (id + ρ.offset) f' hf' = (t.modify id f hf).rename ρ := by
  refine Table.ext ?_
  simp only [modify, toList_rename, List.map_map]
  refine List.map_congr_left fun s _ => ?_
  have hid : (s.rename ρ).id = id + ρ.offset ↔ s.id = id := Nat.add_right_cancel_iff
  simp only [Function.comp_apply, hid]
  split
  · exact h s
  · rfl

end Table

/-! ### Automata -/

theorem Automaton.ext {a b : Automaton} (hstart : a.start = b.start) (hstates : a.states = b.states)
    (halphabet : a.alphabet = b.alphabet) : a = b := by
  cases a; cases b; cases hstart; cases hstates; cases halphabet; rfl

theorem Dfa.ext {a b : Dfa} (hautomaton : a.toAutomaton = b.toAutomaton)
    (hsubsets : a.subsets = b.subsets) : a = b := by
  cases a; cases b; cases hautomaton; cases hsubsets; rfl

/-- The automaton under other names. -/
def Automaton.rename (ρ : Renaming) (a : Automaton) : Automaton :=
  ⟨a.start + ρ.offset, a.states.rename ρ, a.alphabet.relabel ρ.char⟩

/-- Moved by nothing, an automaton is the same. -/
theorem Automaton.rename_shift_zero (a : Automaton) : a.rename (.shift 0) = a := by
  have htransition : Transition.rename (.shift 0) = id := funext fun t => t.rename_shift 0
  have hstate : State.rename (.shift 0) = id := by
    funext s
    simp only [State.rename, htransition, List.map_id]
    rfl
  refine Automaton.ext rfl (Table.ext ?_) a.alphabet.relabel_refl
  change a.states.toList.map (State.rename (.shift 0)) = a.states.toList
  rw [hstate, List.map_id]

def Nfa.rename (ρ : Renaming) (n : Nfa) : Nfa where
  toAutomaton := n.toAutomaton.rename ρ
  start_mem := by
    change (n.states.rename ρ).isEmpty = true ∨
      (n.states.rename ρ).contains (n.start + ρ.offset) = true
    rw [Table.isEmpty_rename, Table.contains_rename]
    exact n.start_mem

theorem Nfa.ofTable_rename (ρ : Renaming) {start : Nat} {states : Table} {alphabet : Alphabet}
    {n : Nfa} (h : ofTable start states alphabet = .ok n) :
    ofTable (start + ρ.offset) (states.rename ρ) (alphabet.relabel ρ.char) = .ok (n.rename ρ) := by
  rw [ofTable] at h
  split at h
  · next hstart =>
    cases h
    exact dif_pos (Nfa.rename ρ ⟨⟨start, states, alphabet⟩, hstart⟩).start_mem
  · cases h

/-- The deterministic automaton under other names. The sets that its states stand for belong to
another automaton and stay as they are. -/
def Dfa.rename (ρ : Renaming) (d : Dfa) : Dfa :=
  { toAutomaton := d.toAutomaton.rename ρ, subsets := d.subsets }

/-! ### Runs under other names -/

theorem State.targets_rename (ρ : Renaming) (s : State) (symbol : Symbol) :
    (s.rename ρ).targets (symbol.relabel ρ.char) = (s.targets symbol).map (· + ρ.offset) := by
  have hsymbol : ∀ t : Transition, decide ((t.rename ρ).symbol = symbol.relabel ρ.char) =
      decide (t.symbol = symbol) := by
    intro t
    exact decide_eq_decide.mpr (Symbol.relabel_injective ρ.char).eq_iff
  rw [targets, targets, rename, List.filter_map, List.map_map, List.map_map]
  simp only [Function.comp_def, hsymbol]
  rfl

namespace Dfa

theorem next?_rename (ρ : Renaming) (d : Dfa) (id : Nat) (c : Char) :
    (d.rename ρ).next? (id + ρ.offset) (ρ.char c) = (d.next? id c).map (· + ρ.offset) := by
  change ((d.states.rename ρ).get? (id + ρ.offset)).bind _ = ((d.states.get? id).bind _).map _
  rw [Table.get?_rename]
  cases d.states.get? id with
  | none => rfl
  | some s =>
    change ((s.rename ρ).targets ((Symbol.char c).relabel ρ.char)).head? = (s.targets _).head?.map _
    rw [State.targets_rename, List.head?_map]

theorem run?_rename (ρ : Renaming) (d : Dfa) (id : Nat) (w : Word) :
    (d.rename ρ).run? (id + ρ.offset) (w.map ρ.char) = (d.run? id w).map (· + ρ.offset) := by
  induction w generalizing id with
  | nil => rfl
  | cons c w ih =>
    rw [List.map_cons, run?, run?, next?_rename]
    cases d.next? id c with
    | none => rfl
    | some target => exact ih target

/-- A renamed word is accepted like the word. -/
theorem accepts_rename (ρ : Renaming) (d : Dfa) (w : Word) :
    (d.rename ρ).accepts (w.map ρ.char) = d.accepts w := by
  rw [accepts, accepts]
  change (((d.rename ρ).run? (d.start + ρ.offset) _).bind (d.states.rename ρ).get?).any _ =
    ((d.run? d.start w).bind d.states.get?).any _
  rw [run?_rename]
  cases d.run? d.start w with
  | none => rfl
  | some id =>
    change ((d.states.rename ρ).get? (id + ρ.offset)).any _ = (d.states.get? id).any _
    rw [Table.get?_rename, Option.any_map]
    rfl

end Dfa

end PostfixRegex
