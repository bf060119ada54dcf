import Mathlib.Data.List.Shortlex
import PostfixRegex.Proofs.Determinization.Language
import PostfixRegex.Proofs.Search.Queue

/-!
# Least words

Many words lead to a state of the deterministic automaton, and one of them is the least: the first
one when words are listed by length and words of the same length by the order of the alphabet. The
states are numbered in the order of their least words. So the numbering says something about the
automaton and nothing about how it was computed, and two determinizations that agree on the sets
cannot disagree on the numbers.

What has to be shown is that the sets are discovered in this order, and for that it is enough to
find a smaller word for every set that is discovered earlier (`Nfa.exists_precedes`). The induction
is on the word that leads to the later set. Its last character is a step from one set to another,
and by the order of the queue an earlier set was reached by a step from an earlier set, or from the
same set by an earlier character.

## Main definitions

* `Alphabet.Precedes` — words by length, and by the order of the alphabet
* `Dfa.LeastWord` — the least word that leads to a state

## Main results

* `Nfa.exists_precedes` — sets that are discovered earlier have smaller words
* `Nfa.determinize_canonical` — the states are numbered in the order of their least words
-/

namespace PostfixRegex

/-! ### The order of words -/

namespace Alphabet

/-- Where the characters of a word stand in the alphabet. -/
def positions (a : Alphabet) (w : Word) : List Nat :=
  w.map a.toList.idxOf

/-- `u` comes before `v`: it is shorter, or it has the same length and its character stands earlier
in the alphabet where the two differ for the first time. -/
def Precedes (a : Alphabet) (u v : Word) : Prop :=
  List.Shortlex (· < ·) (a.positions u) (a.positions v)

instance (a : Alphabet) (u v : Word) : Decidable (a.Precedes u v) :=
  decidable_of_iff _ List.shortlex_def.symm

-- the order of the alphabet counts and not that of the characters
example : (Alphabet.ofList ['b', 'a']).Precedes ['b'] ['a'] ∧
    (Alphabet.ofList ['b', 'a']).Precedes ['a'] ['b', 'b'] := by decide

variable {a : Alphabet} {u v w : Word} {c d : Char}

theorem wellFounded_precedes (a : Alphabet) : WellFounded a.Precedes :=
  InvImage.wf a.positions (List.Shortlex.wf wellFounded_lt)

theorem Precedes.asymm (h : a.Precedes u v) : ¬ a.Precedes v u :=
  a.wellFounded_precedes.asymmetric _ _ h

theorem Precedes.trans (h : a.Precedes u v) (h' : a.Precedes v w) : a.Precedes u w := by
  rw [Precedes, List.shortlex_def] at h h' ⊢
  rcases h with hshort | ⟨hlength, hlex⟩
  · rcases h' with hshort' | ⟨hlength', _⟩
    · exact .inl (hshort.trans hshort')
    · exact .inl (hlength' ▸ hshort)
  · rcases h' with hshort' | ⟨hlength', hlex'⟩
    · exact .inl (hlength ▸ hshort')
    · exact .inr ⟨hlength.trans hlength', lt_trans (α := List Nat) hlex hlex'⟩

/-- The positions determine a word over the alphabet. -/
theorem Covers.eq_of_positions_eq (hu : a.Covers u) (hv : a.Covers v)
    (h : a.positions u = a.positions v) : u = v := by
  have hback : ∀ {w : Word}, a.Covers w →
      (a.positions w).map (fun i => a.toList[i]?) = w.map some := by
    intro w hw
    rw [positions, List.map_map]
    exact List.map_congr_left fun c hc => List.getElem?_idxOf (hw c hc)
  have hsome : u.map some = v.map some := by rw [← hback hu, h, hback hv]
  exact List.map_injective_iff.mpr (Option.some_injective Char) hsome

theorem Covers.eq_or_precedes (hu : a.Covers u) (hv : a.Covers v) (h : ¬ a.Precedes u v) :
    u = v ∨ a.Precedes v u := by
  by_cases hvu : a.Precedes v u
  · exact .inr hvu
  · exact .inl (hu.eq_of_positions_eq hv (Std.Trichotomous.trichotomous _ _ h hvu))

/-- One character more on both sides keeps the order. -/
theorem Precedes.concat (h : a.Precedes u v) (c d : Char) : a.Precedes (u ++ [c]) (v ++ [d]) := by
  have hlex : ∀ {xs ys : List Nat}, xs.length = ys.length → List.Lex (· < ·) xs ys →
      List.Lex (· < ·) (xs ++ a.positions [c]) (ys ++ a.positions [d]) := by
    intro xs ys hlength hlt
    induction hlt with
    | nil => cases hlength
    | cons _ ih => exact .cons (ih (Nat.succ.inj hlength))
    | rel hr => exact .rel hr
  rw [Precedes, List.shortlex_def] at h ⊢
  simp only [positions, List.map_append, List.length_append] at h ⊢
  rcases h with hshort | ⟨hlength, hlt⟩
  · exact .inl (Nat.add_lt_add_right hshort _)
  · exact .inr ⟨congrArg (· + 1) hlength, hlex hlength hlt⟩

/-- Among the words with one more character the order of the alphabet decides. -/
theorem precedes_concat (u : Word) (h : a.toList.idxOf c < a.toList.idxOf d) :
    a.Precedes (u ++ [c]) (u ++ [d]) := by
  rw [Precedes, positions, positions, List.map_append, List.map_append]
  exact List.Shortlex.append_left ((List.shortlex_singleton_iff _ _).mpr h) _

theorem nil_precedes_concat (a : Alphabet) (u : Word) (c : Char) : a.Precedes [] (u ++ [c]) := by
  refine List.Shortlex.of_length_lt ?_
  simp [positions]

/-- Among some words over the alphabet one is the least. -/
theorem exists_least {P : Word → Prop} (hcovers : ∀ w, P w → a.Covers w) (h : ∃ w, P w) :
    ∃ w, P w ∧ ∀ v, P v → v = w ∨ a.Precedes w v := by
  obtain ⟨w, hw, hmin⟩ := a.wellFounded_precedes.has_min {w | P w} h
  exact ⟨w, hw, fun v hv => (hcovers v hv).eq_or_precedes (hcovers w hw) (hmin v hv)⟩

end Alphabet

/-! ### The word of a state -/

/-- Of the words that lead from the start to the state `id`, this is the least one. -/
structure Dfa.LeastWord (d : Dfa) (id : Nat) (w : Word) : Prop where
  run_eq : d.run? d.start w = some id
  least : ∀ v, d.run? d.start v = some id → v = w ∨ d.alphabet.Precedes w v

theorem Dfa.LeastWord.unique {d : Dfa} {id : Nat} {u w : Word} (hu : d.LeastWord id u)
    (hw : d.LeastWord id w) : u = w := by
  rcases hw.least u hu.run_eq with h | h
  · exact h
  · rcases hu.least w hw.run_eq with h' | h'
    · exact h'.symm
    · exact absurd h' h.asymm

namespace Nfa

variable {n : Nfa} {first : Nat} {s t : Signature} {u v w : Word}

/-- A word leads to the state of the set it leads to. -/
theorem run?_numbered_eq_some_iff (hs : s ∈ n.subsets) :
    (n.numbered first).run? (n.numbered first).start w = some (n.number first s) ↔
      n.alphabet.Covers w ∧ n.subsetAfter w = s := by
  rw [run?_numbered]
  by_cases hw : n.alphabet.Covers w
  · rw [if_pos hw, Option.some_inj, and_iff_right hw]
    exact ⟨fun h => (number_injOn hs h.symm).symm, fun h => h ▸ rfl⟩
  · rw [if_neg hw]
    exact iff_of_false nofun fun h => hw h.1

/-- Every state has a least word. -/
theorem exists_leastWord (hs : s ∈ n.subsets) :
    ∃ w, (n.numbered first).LeastWord (n.number first s) w := by
  have hcovers : ∀ w, (n.numbered first).run? (n.numbered first).start w =
      some (n.number first s) → n.alphabet.Covers w :=
    fun w hw => ((run?_numbered_eq_some_iff hs).mp hw).1
  obtain ⟨w, hw, hleast⟩ := Alphabet.exists_least hcovers <| by
    obtain ⟨w, hw⟩ := mem_subsets.mp hs
    exact ⟨w, (run?_numbered_eq_some_iff hs).mpr hw⟩
  exact ⟨w, hw, hleast⟩

/-- The sets that a set leads to, with the set of one character singled out. -/
theorem successors_subsetAfter {before after : List Char} {c : Char}
    (h : n.alphabet.toList = before ++ c :: after) :
    n.subsetGraph.successors (n.subsetAfter v) =
      before.map (n.nextSubset (n.subsetAfter v)) ++
        n.subsetAfter (v ++ [c]) :: after.map (n.nextSubset (n.subsetAfter v)) := by
  show n.alphabet.toList.map _ = _
  rw [h, List.map_append, List.map_cons, subsetAfter_concat]

theorem covers_concat_iff {c : Char} :
    n.alphabet.Covers (v ++ [c]) ↔ n.alphabet.Covers v ∧ c ∈ n.alphabet.toList := by
  simp only [Alphabet.Covers, List.forall_mem_append, List.forall_mem_singleton]

/-- **Sets that are discovered earlier have smaller words.** -/
theorem exists_precedes (hv : n.alphabet.Covers v)
    (h : n.subsets.idxOf s < n.subsets.idxOf (n.subsetAfter v)) :
    ∃ u, n.alphabet.Covers u ∧ n.subsetAfter u = s ∧ n.alphabet.Precedes u v := by
  induction v using List.reverseRecOn generalizing s with
  | nil =>
    have hzero : n.subsets.idxOf (n.subsetAfter []) = 0 := n.idxOf_initialSubset
    omega
  | append_singleton v c ih =>
    obtain ⟨hv, hc⟩ := covers_concat_iff.mp hv
    -- where the last step starts, and which characters the alphabet lists before the last one
    have hmem : n.subsetAfter v ∈ n.subsets := mem_subsets.mpr ⟨v, hv, rfl⟩
    obtain ⟨earlier, later, hsplit⟩ := List.append_of_mem hmem
    obtain ⟨before, after, hletters⟩ := List.append_of_mem hc
    rcases Graph.mem_of_idxOf_found_lt hsplit (successors_subsetAfter hletters) h with
      hseed | ⟨b, hb, hs⟩ | hs
    · refine ⟨[], by simp [Alphabet.Covers], (List.mem_singleton.mp hseed).symm, ?_⟩
      exact n.alphabet.nil_precedes_concat v c
    · -- a step from an earlier set: its word is smaller, whatever the last characters are
      obtain ⟨d, hd, rfl⟩ := List.mem_map.mp hs
      have hlt : n.subsets.idxOf b < n.subsets.idxOf (n.subsetAfter v) := by
        have hnodup := n.nodup_subsets
        rw [hsplit] at hnodup ⊢
        exact idxOf_lt_idxOf_of_nodup hnodup hb
      obtain ⟨u, hu, rfl, hprecedes⟩ := ih hv hlt
      exact ⟨u ++ [d], covers_concat_iff.mpr ⟨hu, hd⟩, subsetAfter_concat n u d,
        hprecedes.concat d c⟩
    · -- a step from the same set by an earlier character
      obtain ⟨d, hd, rfl⟩ := List.mem_map.mp hs
      have hlt : n.alphabet.toList.idxOf d < n.alphabet.toList.idxOf c := by
        have hnodup := n.alphabet.nodup
        rw [hletters] at hnodup ⊢
        exact idxOf_lt_idxOf_of_nodup hnodup hd
      have hd' : d ∈ n.alphabet.toList := hletters ▸ List.mem_append_left _ hd
      exact ⟨v ++ [d], covers_concat_iff.mpr ⟨hv, hd'⟩, subsetAfter_concat n v d,
        Alphabet.precedes_concat v hlt⟩

/-- The numbers follow the least words. -/
theorem precedes_of_number_lt (hs : s ∈ n.subsets) (ht : t ∈ n.subsets)
    (hu : (n.numbered first).LeastWord (n.number first s) u)
    (hv : (n.numbered first).LeastWord (n.number first t) v)
    (h : n.number first s < n.number first t) : n.alphabet.Precedes u v := by
  obtain ⟨hcovers, rfl⟩ := (run?_numbered_eq_some_iff ht).mp hv.run_eq
  obtain ⟨w, hw, hws, hprecedes⟩ := exists_precedes hcovers (Nat.lt_of_add_lt_add_left h)
  rcases hu.least w ((run?_numbered_eq_some_iff hs).mpr ⟨hw, hws⟩) with rfl | hleast
  · exact hprecedes
  · exact hleast.trans hprecedes

theorem number_lt_iff (hs : s ∈ n.subsets) (ht : t ∈ n.subsets)
    (hu : (n.numbered first).LeastWord (n.number first s) u)
    (hv : (n.numbered first).LeastWord (n.number first t) v) :
    n.number first s < n.number first t ↔ n.alphabet.Precedes u v := by
  refine ⟨precedes_of_number_lt hs ht hu hv, fun h => ?_⟩
  rcases Nat.lt_trichotomy (n.number first s) (n.number first t) with hlt | heq | hgt
  · exact hlt
  · rw [heq] at hu
    rw [hu.unique hv] at h
    exact absurd h h.asymm
  · exact absurd (precedes_of_number_lt ht hs hv hu hgt) h.asymm

/-- **The numbering is canonical.** Whatever the automaton looks like and wherever the supply
stands, the states of the deterministic automaton have consecutive numbers from there on, the start
state has the first one, each state has one least word, and the numbers are in the order of the
least words. -/
theorem determinize_canonical (n : Nfa) (supply : Supply) (h : n.states.isEmpty = false) :
    ∃ d supply', n.determinize supply = some (d, supply') ∧ d.alphabet = n.alphabet ∧
      d.start = supply.next ∧ d.states.ids = List.range' supply.next d.states.size ∧
      (∀ q ∈ d.states.toList, ∃! w, d.LeastWord q.id w) ∧
      ∀ q ∈ d.states.toList, ∀ r ∈ d.states.toList, ∀ u v,
        d.LeastWord q.id u → d.LeastWord r.id v → (q.id < r.id ↔ n.alphabet.Precedes u v) := by
  refine ⟨_, _, n.determinize_eq supply h, rfl, rfl, ?_, fun q hq => ?_,
    fun q hq r hr u v hu hv => ?_⟩
  · rw [ids_numbered, size_numbered]
  · obtain ⟨s, hs, rfl⟩ := mem_states_numbered.mp hq
    obtain ⟨w, hw⟩ := exists_leastWord hs
    exact ⟨w, hw, fun v hv => hv.unique hw⟩
  · obtain ⟨s, hs, rfl⟩ := mem_states_numbered.mp hq
    obtain ⟨t, ht, rfl⟩ := mem_states_numbered.mp hr
    exact number_lt_iff hs ht hu hv

/-- Of the two sets other than the first one, that of the character `'a'` has the smaller word and
the smaller number. -/
theorem determinize_canonical_tangled :
    tangled.states.isEmpty = false ∧
      ∃ d supply', tangled.determinize ⟨1⟩ = some (d, supply') ∧ d.start = 1 ∧
        d.states.ids = [1, 2, 3] ∧
        ∃ u v, d.LeastWord 2 u ∧ d.LeastWord 3 v ∧ tangled.alphabet.Precedes u v := by
  obtain ⟨d, supply', hd, _, hstart, hids, hleast, horder⟩ :=
    determinize_canonical tangled ⟨1⟩ rfl
  have hsize : (tangled.determinize ⟨1⟩).map (fun x => x.1.states.size) = some 3 := by cbv
  rw [hd, Option.map_some] at hsize
  rw [Option.some.inj hsize] at hids
  have hstate : ∀ id ∈ [1, 2, 3], ∃ q ∈ d.states.toList, q.id = id := fun id hid =>
    List.mem_map.mp (hids ▸ hid : id ∈ d.states.ids)
  obtain ⟨q, hq, hqid⟩ := hstate 2 (by decide)
  obtain ⟨r, hr, hrid⟩ := hstate 3 (by decide)
  obtain ⟨u, hu, _⟩ := hleast q hq
  obtain ⟨v, hv, _⟩ := hleast r hr
  have hlt : q.id < r.id := by rw [hqid, hrid]; decide
  exact ⟨rfl, d, supply', hd, hstart, hids, u, v, hqid ▸ hu, hrid ▸ hv,
    (horder q hq r hr u v hu hv).mp hlt⟩

end Nfa

end PostfixRegex
