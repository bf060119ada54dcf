import Mathlib.Computability.Language
import PostfixRegex.Proofs.Fragment.Shape
import PostfixRegex.Proofs.Path

/-!
# The language of a fragment

The language of a fragment consists of the words on the paths from its start to its last state. The
makers act on languages as their names say: a single character, the product, the star and the sum.

An operand is changed at its last state only (`Fragment.LeftTo`), so the argument is the same for
all operators. A path that enters an operand spells a word of the operand up to the point where it
reaches the old last state, and what it spells from there on belongs to some language `K`. For a
product `K` is the language of the right operand, for a sum it holds the empty word only, and for a
star it is the star itself, because the way back to the old start comes before the next word.

## Main definitions

* `Fragment.language` — the words from the start to the last state
* `Fragment.LeftTo` — a fragment inside the table of a result

## Main results

* `Fragment.LeftTo.path_split` — a path through an operand
* `Fragment.language_atom`, `Fragment.language_concatenate`, `Fragment.language_star`,
  `Fragment.language_union`
-/

namespace PostfixRegex

open Computability

namespace Fragment

/-- The words on the paths from the start to the last state. -/
def language (f : Fragment) : Language Char := {w | f.states.Path f.start w f.last}

theorem mem_language {f : Fragment} {w : Word} :
    w ∈ f.language ↔ f.states.Path f.start w f.last := Iff.rfl

variable {f left right inner : Fragment} {start last p q x y : Nat} {symbol : Symbol} {w : Word}

/-! ### Moves -/

theorem Shape.not_move_last (h : f.Shape) : ¬ f.states.Move symbol f.last q := by
  rintro ⟨s, hs, hid, ht⟩
  rw [(h.eq_last s hs hid).2] at ht
  exact List.not_mem_nil ht

theorem Shape.target_mem_ids (h : f.Shape) (hm : f.states.Move symbol p q) : q ∈ f.states.ids := by
  obtain ⟨s, hs, _, ht⟩ := hm
  exact (h.target_mem s hs _ ht).1

theorem Consists.move_iff {states : List State} (h : f.Consists start last states) :
    f.states.Move symbol p q ↔ HasMove states symbol p q :=
  exists_congr fun _ => and_congr_left' h.perm.mem_iff

/-- Leaving a fragment adds moves from its last state. -/
theorem hasMove_leaving {targets : List Nat} (h : f.Shape) :
    HasMove (f.states.toList.map (leaving f.last targets)) symbol p q ↔
      f.states.Move symbol p q ∨ (symbol = .epsilon ∧ p = f.last ∧ q ∈ targets) := by
  have hsingle : ∀ s : State, ⟨symbol, q⟩ ∈ (leaving f.last targets s).transitions ↔
      ⟨symbol, q⟩ ∈ s.transitions ∨ (s.id = f.last ∧ symbol = .epsilon ∧ q ∈ targets) := by
    intro s
    by_cases hid : s.id = f.last
    · simp [leaving, hid, State.leaveTo, and_comm, eq_comm]
    · simp [leaving, hid]
  constructor
  · rintro ⟨_, hmem, rfl, ht⟩
    obtain ⟨s, hs, rfl⟩ := List.mem_map.mp hmem
    rw [id_leaving]
    rcases (hsingle s).mp ht with ht | ⟨hid, hsymbol, hq⟩
    · exact .inl ⟨s, hs, rfl, ht⟩
    · exact .inr ⟨hsymbol, hid, hq⟩
  · rintro (⟨s, hs, rfl, ht⟩ | ⟨rfl, rfl, hq⟩)
    · exact ⟨_, List.mem_map_of_mem hs, id_leaving .., (hsingle s).mpr (.inl ht)⟩
    · obtain ⟨s, hs, hid⟩ := List.mem_map.mp h.last_mem
      exact ⟨_, List.mem_map_of_mem hs, (id_leaving ..).trans hid,
        (hsingle s).mpr (.inr ⟨hid, rfl, hq⟩)⟩

theorem hasMove_wrap {body : List State} :
    HasMove (wrap start last x y body) symbol p q ↔
      HasMove body symbol p q ∨ (symbol = .epsilon ∧ p = start ∧ (q = x ∨ q = y)) := by
  rw [wrap, hasMove_cons, hasMove_cons]
  simp only [List.mem_cons, List.not_mem_nil, or_false, and_false, false_or, Transition.mk.injEq]
  rw [or_comm]
  refine or_congr_right ⟨?_, ?_⟩
  · rintro ⟨rfl, ⟨hs, hq⟩ | ⟨hs, hq⟩⟩
    · exact ⟨hs, rfl, .inl hq⟩
    · exact ⟨hs, rfl, .inr hq⟩
  · rintro ⟨hs, rfl, hq | hq⟩
    · exact ⟨rfl, .inl ⟨hs, hq⟩⟩
    · exact ⟨rfl, .inr ⟨hs, hq⟩⟩

/-! ### Operands -/

/-- In the table `t` the states of `f` have their own moves, and its last state has moves on epsilon
to `targets`. -/
def LeftTo (f : Fragment) (targets : List Nat) (t : Table) : Prop :=
  ∀ ⦃symbol p q⦄, p ∈ f.states.ids →
    (t.Move symbol p q ↔
      f.states.Move symbol p q ∨ (symbol = .epsilon ∧ p = f.last ∧ q ∈ targets))

/-- An operand is part of a result that lists its states after leaving it. -/
theorem Consists.leftTo {states others : List State} {targets : List Nat}
    (h : f.Consists start last states) (hi : inner.Shape)
    (hp : states.Perm (inner.states.toList.map (leaving inner.last targets) ++ others))
    (hd : ∀ id ∈ inner.states.ids, id ∉ others.map State.id) :
    inner.LeftTo targets f.states := by
  intro symbol p q hmem
  have hothers : ¬ HasMove others symbol p q := fun hm => hd _ hmem hm.mem_map_id
  rw [Table.Move, HasMove, exists_congr fun _ => and_congr_left' (h.perm.trans hp).mem_iff]
  rw [← HasMove, hasMove_append, or_iff_left hothers, hasMove_leaving hi]

theorem Consists.leftTo_wrap {body : List State} {targets : List Nat}
    (h : f.Consists start last (wrap start last x y body)) (others : List State) (hi : inner.Shape)
    (hp : body.Perm (inner.states.toList.map (leaving inner.last targets) ++ others))
    (hd : ∀ id ∈ inner.states.ids, id ∉ others.map State.id)
    (hstart : start ∉ inner.states.ids) (hlast : last ∉ inner.states.ids) :
    inner.LeftTo targets f.states := by
  refine h.leftTo hi ((hp.append_left [_, _]).trans (List.perm_append_comm_assoc _ _ _)) ?_
  intro id hid hmem
  rw [List.map_append] at hmem
  rcases List.mem_append.mp hmem with hmem | hmem
  · rcases List.mem_pair.mp hmem with rfl | rfl
    · exact hlast hid
    · exact hstart hid
  · exact hd id hid hmem

/-- **Passing through.** A path from inside an operand to a state outside reaches its last state
first, and spells a word of `K` from there on. A way back to the start is allowed if it keeps to
`K`. -/
theorem LeftTo.path_split {targets : List Nat} {t : Table} {K : Language Char}
    (h : f.LeftTo targets t) (hf : f.Shape)
    (hout : ∀ q ∈ targets, (q = f.start ∧ ∀ w ∈ f.language * K, w ∈ K) ∨
      (q ∉ f.states.ids ∧ ∀ w, t.Path q w y → w ∈ K))
    (hy : y ∉ f.states.ids) (hp : t.Path x w y) (hx : x ∈ f.states.ids) :
    ∃ u v, u ++ v = w ∧ f.states.Path x u f.last ∧ v ∈ K := by
  induction hp with
  | nil => exact absurd hx hy
  | @epsilon p q r w hm hpath ih =>
    rcases (h hx).mp hm with hm | ⟨_, rfl, hq⟩
    · obtain ⟨u, v, huv, hu, hv⟩ := ih hout hy (hf.target_mem_ids hm)
      exact ⟨u, v, huv, .epsilon hm hu, hv⟩
    · refine ⟨[], w, rfl, .nil _, ?_⟩
      rcases hout q hq with ⟨rfl, hK⟩ | ⟨_, hK⟩
      · obtain ⟨u, v, rfl, hu, hv⟩ := ih hout hy hf.start_mem
        exact hK _ (Language.append_mem_mul hu hv)
      · exact hK w hpath
  | @char p q r c w hm hpath ih =>
    rcases (h hx).mp hm with hm | ⟨hsymbol, _⟩
    · obtain ⟨u, v, rfl, hu, hv⟩ := ih hout hy (hf.target_mem_ids hm)
      exact ⟨c :: u, v, rfl, .char hm hu, hv⟩
    · cases hsymbol

theorem LeftTo.mem_mul {targets : List Nat} {t : Table} {K : Language Char}
    (h : f.LeftTo targets t) (hf : f.Shape)
    (hout : ∀ q ∈ targets, (q = f.start ∧ ∀ w ∈ f.language * K, w ∈ K) ∨
      (q ∉ f.states.ids ∧ ∀ w, t.Path q w y → w ∈ K))
    (hy : y ∉ f.states.ids) (hp : t.Path f.start w y) : w ∈ f.language * K := by
  obtain ⟨u, v, rfl, hu, hv⟩ := h.path_split hf hout hy hp hf.start_mem
  exact Language.append_mem_mul hu hv

/-- The paths of an operand are paths of the result. -/
theorem LeftTo.path_mono {targets : List Nat} {t : Table} (h : f.LeftTo targets t)
    (hp : f.states.Path x w y) : t.Path x w y :=
  Table.Path.mono (fun _ _ _ hm => (h hm.mem_ids).mpr (.inl hm)) hp

/-- The way out: a path to the last state of an operand goes on to every target it is left to. -/
theorem LeftTo.path_to {targets : List Nat} {t : Table} (h : f.LeftTo targets t) (hf : f.Shape)
    (hq : q ∈ targets) (hp : f.states.Path x w f.last) : t.Path x w q := by
  have hlast : t.Path f.last [] q :=
    .epsilon ((h hf.last_mem).mpr (.inr ⟨rfl, rfl, hq⟩)) (.nil q)
  have := (h.path_mono hp).trans hlast
  rwa [List.append_nil] at this

/-- A word of the operand leads to every target it is left to. -/
theorem LeftTo.path {targets : List Nat} {t : Table} (h : f.LeftTo targets t) (hf : f.Shape)
    (hq : q ∈ targets) (hw : w ∈ f.language) : t.Path f.start w q :=
  h.path_to hf hq hw

/-- An operand that is left to its own start and to `y` reads any number of its words on the way
to `y`, but at least one: after each word but the last one, back to the start. -/
theorem LeftTo.path_flatten {targets : List Nat} {t : Table} (h : f.LeftTo targets t) (hf : f.Shape)
    (hback : f.start ∈ targets) (hy : y ∈ targets) {us : List Word}
    (hus : ∀ u ∈ us, u ∈ f.language) {u : Word} (hu : u ∈ f.language) :
    t.Path f.start (u ++ us.flatten) y := by
  induction us generalizing u with
  | nil =>
    rw [List.flatten_nil, List.append_nil]
    exact h.path hf hy hu
  | cons v us ih =>
    rw [List.forall_mem_cons] at hus
    exact (h.path hf hback hu).trans (ih hus.2 hus.1)

/-- An operand that is not left keeps its language. -/
theorem LeftTo.path_last_iff {t : Table} (h : f.LeftTo [] t) (hf : f.Shape) :
    t.Path f.start w f.last ↔ w ∈ f.language := by
  have hmove : ∀ {symbol p q}, p ∈ f.states.ids →
      (t.Move symbol p q ↔ f.states.Move symbol p q) := by
    intro symbol p q hp
    rw [h hp, or_iff_left fun hnot => List.not_mem_nil hnot.2.2]
  constructor
  · intro hp
    refine hp.confined (fun symbol p q hp hm => ?_) hf.start_mem
    have hm' := (hmove hp).mp hm
    exact ⟨hm', hf.target_mem_ids hm'⟩
  · exact h.path_mono

/-- If no path goes on from the only target, exactly the words of the operand lead there. -/
theorem LeftTo.path_iff {t : Table} (h : f.LeftTo [q] t) (hf : f.Shape)
    (hend : ∀ w, t.Path q w q → w = []) (hq : q ∉ f.states.ids) :
    t.Path f.start w q ↔ w ∈ f.language := by
  constructor
  · intro hp
    have hmul : w ∈ f.language * 1 := by
      refine h.mem_mul hf (fun q' hq' => .inr ?_) hq hp
      rw [List.mem_singleton.mp hq']
      exact ⟨hq, hend⟩
    rwa [mul_one] at hmul
  · exact h.path hf List.mem_cons_self

/-! ### The operands of each operator -/

theorem Consists.leftTo_concatenate (hl : left.Shape)
    (hd : ∀ id ∈ left.states.ids, id ∉ right.states.ids)
    (h : f.Consists left.start right.last (concatenateStates left right)) :
    left.LeftTo [right.start] f.states ∧ right.LeftTo [] f.states := by
  refine ⟨h.leftTo hl (.refl _) hd, fun symbol p q hp => ?_⟩
  have hnot : ¬ HasMove (left.states.toList.map (leaving left.last [right.start])) symbol p q := by
    intro hm
    have hmem := hm.mem_map_id
    rw [map_id_leaving] at hmem
    exact hd _ hmem hp
  rw [h.move_iff, concatenateStates, hasMove_append, or_iff_right hnot]
  exact (or_iff_left fun hq => List.not_mem_nil hq.2.2).symm

theorem Consists.leftTo_star (hi : inner.Shape) (hstart : start ∉ inner.states.ids)
    (hlast : last ∉ inner.states.ids) (h : f.Consists start last (starStates inner start last)) :
    inner.LeftTo [last, inner.start] f.states :=
  h.leftTo_wrap [] hi (by rw [List.append_nil]) (fun _ _ => List.not_mem_nil) hstart hlast

theorem Consists.leftTo_union (hl : left.Shape) (hr : right.Shape)
    (hd : ∀ id ∈ left.states.ids, id ∉ right.states.ids)
    (hstart : start ∉ left.states.ids ++ right.states.ids)
    (hlast : last ∉ left.states.ids ++ right.states.ids)
    (h : f.Consists start last (unionStates left right start last)) :
    left.LeftTo [last] f.states ∧ right.LeftTo [last] f.states := by
  rw [List.mem_append, not_or] at hstart hlast
  constructor
  · refine h.leftTo_wrap _ hl (.refl _) ?_ hstart.1 hlast.1
    rwa [map_id_leaving]
  · refine h.leftTo_wrap _ hr List.perm_append_comm ?_ hstart.2 hlast.2
    rw [map_id_leaving]
    exact fun id hid hmem => hd id hmem hid

/-! ### The ends of a result -/

/-- No path leaves the last state. -/
theorem Shape.path_last_iff (h : f.Shape) : f.states.Path f.last w f.last ↔ w = [] := by
  constructor
  · intro hp
    exact (hp.eq_nil_of_not_move fun _ _ => h.not_move_last).1
  · rintro rfl
    exact .nil _

/-- From the start of a wrapped body a path goes on to one of two states. -/
theorem Consists.path_wrap_iff {body : List State}
    (h : f.Consists start last (wrap start last x y body)) (hne : start ≠ last)
    (hstart : start ∉ body.map State.id) :
    f.states.Path start w last ↔ f.states.Path x w last ∨ f.states.Path y w last := by
  have hmove : ∀ {symbol q},
      f.states.Move symbol start q ↔ symbol = .epsilon ∧ (q = x ∨ q = y) := by
    intro symbol q
    have hbody : ¬ HasMove body symbol start q := fun hm => hstart hm.mem_map_id
    rw [h.move_iff, hasMove_wrap, or_iff_right hbody, eq_self, true_and]
  constructor
  · intro hp
    cases hp with
    | nil => exact absurd rfl hne
    | epsilon hm hp =>
      rcases (hmove.mp hm).2 with rfl | rfl
      · exact .inl hp
      · exact .inr hp
    | char hm hp => cases (hmove.mp hm).1
  · rintro (hp | hp)
    · exact .epsilon (hmove.mpr ⟨rfl, .inl rfl⟩) hp
    · exact .epsilon (hmove.mpr ⟨rfl, .inr rfl⟩) hp

theorem Consists.path_star_iff (hne : start ≠ last) (hstart : start ∉ inner.states.ids)
    (h : f.Consists start last (starStates inner start last)) :
    f.states.Path start w last ↔ f.states.Path last w last ∨ f.states.Path inner.start w last :=
  h.path_wrap_iff hne (by rwa [map_id_leaving])

theorem Consists.path_union_iff (hne : start ≠ last)
    (hstart : start ∉ left.states.ids ++ right.states.ids)
    (h : f.Consists start last (unionStates left right start last)) :
    f.states.Path start w last ↔
      f.states.Path left.start w last ∨ f.states.Path right.start w last := by
  refine h.path_wrap_iff hne ?_
  rw [List.map_append, map_id_leaving, map_id_leaving]
  exact hstart

/-! ### The four languages -/

/-- The fragment of a character reads just that character. -/
theorem language_atom {c : Char} (hne : start ≠ last)
    (h : f.Consists start last (atomStates c start last)) : f.language = {[c]} := by
  have hmove : ∀ {symbol p q},
      f.states.Move symbol p q ↔ symbol = .char c ∧ p = start ∧ q = last := by
    intro symbol p q
    rw [h.move_iff, atomStates, hasMove_cons, hasMove_cons]
    simp [HasMove, and_left_comm, eq_comm]
  ext w
  rw [mem_language, h.start_eq, h.last_eq]
  constructor
  · intro hp
    cases hp with
    | nil => exact absurd rfl hne
    | epsilon hm _ => cases (hmove.mp hm).1
    | char hm hp =>
      obtain ⟨hc, _, rfl⟩ := hmove.mp hm
      obtain ⟨rfl, _⟩ := hp.eq_nil_of_not_move fun _ _ hm' => hne (hmove.mp hm').2.1.symm
      rw [Symbol.char.inj hc]
      rfl
  · rintro rfl
    exact .char (hmove.mpr ⟨rfl, rfl, rfl⟩) (.nil _)

/-- One fragment after the other reads the product. -/
theorem language_concatenate (hl : left.Shape) (hr : right.Shape)
    (hd : ∀ id ∈ left.states.ids, id ∉ right.states.ids)
    (h : f.Consists left.start right.last (concatenateStates left right)) :
    f.language = left.language * right.language := by
  obtain ⟨hleft, hright⟩ := h.leftTo_concatenate hl hd
  ext w
  rw [mem_language, h.start_eq, h.last_eq]
  constructor
  · intro hp
    refine hleft.mem_mul hl (fun q hq => .inr ?_) (fun hmem => hd _ hmem hr.last_mem) hp
    rw [List.mem_singleton.mp hq]
    exact ⟨fun hmem => hd _ hmem hr.start_mem, fun v hv => (hright.path_last_iff hr).mp hv⟩
  · intro hw
    obtain ⟨u, hu, v, hv, rfl⟩ := Language.mem_mul.mp hw
    exact (hleft.path hl List.mem_cons_self hu).trans ((hright.path_last_iff hr).mpr hv)

/-- Going back to the old start reads the star. -/
theorem language_star (hi : inner.Shape) (hne : start ≠ last) (hstart : start ∉ inner.states.ids)
    (hlast : last ∉ inner.states.ids)
    (h : f.Consists start last (starStates inner start last)) :
    f.language = inner.language∗ := by
  have hinner := h.leftTo_star hi hstart hlast
  have hend : ∀ w, f.states.Path last w last ↔ w = [] := by
    have := fun w => (h.shape (shapeOf_starStates hi hne hstart hlast)).path_last_iff (w := w)
    rwa [h.last_eq] at this
  ext w
  rw [mem_language, h.start_eq, h.last_eq, h.path_star_iff hne hstart, hend]
  have hkstar : inner.language * inner.language∗ ≤ inner.language∗ := mul_kstar_le_kstar
  constructor
  · rintro (rfl | hp)
    · exact Language.nil_mem_kstar _
    · have hmul : w ∈ inner.language * inner.language∗ := by
        refine hinner.mem_mul hi (fun q hq => ?_) hlast hp
        rcases List.mem_pair.mp hq with rfl | rfl
        · refine .inr ⟨hlast, fun v hv => ?_⟩
          rw [(hend v).mp hv]
          exact Language.nil_mem_kstar _
        · exact .inl ⟨rfl, fun v hv => hkstar hv⟩
      exact hkstar hmul
  · intro hw
    obtain ⟨us, rfl, hus⟩ := Language.mem_kstar.mp hw
    cases us with
    | nil => exact .inl rfl
    | cons u us =>
      rw [List.forall_mem_cons] at hus
      refine .inr (hinner.path_flatten hi ?_ List.mem_cons_self hus.2 hus.1)
      exact List.mem_cons_of_mem _ List.mem_cons_self

/-- Either of two fragments reads the sum. -/
theorem language_union (hl : left.Shape) (hr : right.Shape) (hne : start ≠ last)
    (hd : ∀ id ∈ left.states.ids, id ∉ right.states.ids)
    (hstart : start ∉ left.states.ids ++ right.states.ids)
    (hlast : last ∉ left.states.ids ++ right.states.ids)
    (h : f.Consists start last (unionStates left right start last)) :
    f.language = left.language + right.language := by
  have hend : ∀ w, f.states.Path last w last → w = [] := by
    have hshape := h.shape (shapeOf_unionStates hl hr hne hd hstart hlast)
    intro w hp
    rw [← h.last_eq] at hp
    exact hshape.path_last_iff.mp hp
  obtain ⟨hleft, hright⟩ := h.leftTo_union hl hr hd hstart hlast
  rw [List.mem_append, not_or] at hlast
  ext w
  rw [mem_language, h.start_eq, h.last_eq, h.path_union_iff hne hstart,
    hleft.path_iff hl hend hlast.1, hright.path_iff hr hend hlast.2]
  rfl

/-! ### As an automaton -/

/-- The automaton of a fragment accepts the language of the fragment. -/
theorem Shape.accepts_iff (h : f.Shape) {n : Nfa} {alphabet : Alphabet}
    (hn : n.toAutomaton = ⟨f.start, f.states, alphabet⟩) :
    n.accepts w = true ↔ w ∈ f.language := by
  rw [Nfa.accepts_iff, hn, mem_language]
  constructor
  · rintro ⟨s, hs, hacc, hp⟩
    by_cases hid : s.id = f.last
    · rwa [hid] at hp
    · rw [(h.inner s hs hid).1] at hacc
      cases hacc
  · intro hp
    obtain ⟨s, hs, hid⟩ := List.mem_map.mp h.last_mem
    exact ⟨s, hs, (h.eq_last s hs hid).1, hid ▸ hp⟩

end Fragment

end PostfixRegex
