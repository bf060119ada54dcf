import PostfixRegex.Proofs.Fragment.Language

/-!
# Every state leads to the last one

A fragment has no dead ends: from each of its states some path leads to the last state. A single
dead state would be enough to spoil what a reader of prefixes relies on, namely that a set of
possible states is empty as soon as the input can no longer be matched.

Leaving an operand removes no transition, so a path to its old last state is still there, and the
new transitions carry it on. What is to be shown for each maker is therefore only where the old last
states and the new states go.

## Main definitions

* `Fragment.Coaccessible` — every state leads to the last one

## Main results

* `Fragment.coaccessible_atom`, `Fragment.coaccessible_concatenate`, `Fragment.coaccessible_star`,
  `Fragment.coaccessible_union` — the makers keep it so
-/

namespace PostfixRegex

namespace Fragment

/-- Every state leads to the last one. -/
def Coaccessible (f : Fragment) : Prop :=
  ∀ x ∈ f.states.ids, ∃ w, f.states.Path x w f.last

variable {f left right inner : Fragment} {start last q x : Nat}

/-- From every state of an operand there is a path to each target the operand is left to. -/
theorem LeftTo.exists_path {targets : List Nat} {t : Table} (h : f.LeftTo targets t)
    (hf : f.Shape) (hco : f.Coaccessible) (hq : q ∈ targets) (hx : x ∈ f.states.ids) :
    ∃ w, t.Path x w q := by
  obtain ⟨w, hw⟩ := hco x hx
  exact ⟨w, h.path_to hf hq hw⟩

theorem coaccessible_atom {c : Char} (hne : start ≠ last)
    (h : f.Consists start last (atomStates c start last)) : f.Coaccessible := by
  intro x hx
  have hids : x = last ∨ x = start := by simpa [atomStates] using h.mem_ids.mp hx
  rcases hids with rfl | rfl
  · rw [h.last_eq]
    exact ⟨[], .nil _⟩
  · have hc : [c] ∈ f.language := by
      rw [language_atom hne h]
      rfl
    rw [mem_language, h.start_eq] at hc
    exact ⟨[c], hc⟩

theorem coaccessible_concatenate (hl : left.Shape) (hr : right.Shape)
    (hd : ∀ id ∈ left.states.ids, id ∉ right.states.ids)
    (h : f.Consists left.start right.last (concatenateStates left right))
    (hleft : left.Coaccessible) (hright : right.Coaccessible) : f.Coaccessible := by
  obtain ⟨htoright, hinside⟩ := h.leftTo_concatenate hl hd
  have hsecond : ∀ x ∈ right.states.ids, ∃ w, f.states.Path x w right.last := by
    intro x hx
    obtain ⟨w, hw⟩ := hright x hx
    exact ⟨w, hinside.path_mono hw⟩
  intro x hx
  rw [h.last_eq]
  rw [h.mem_ids, map_id_concatenateStates] at hx
  rcases List.mem_append.mp hx with hx | hx
  · obtain ⟨u, hu⟩ := htoright.exists_path hl hleft List.mem_cons_self hx
    obtain ⟨v, hv⟩ := hsecond right.start hr.start_mem
    exact ⟨u ++ v, hu.trans hv⟩
  · exact hsecond x hx

theorem coaccessible_star (hi : inner.Shape) (hne : start ≠ last)
    (hstart : start ∉ inner.states.ids) (hlast : last ∉ inner.states.ids)
    (h : f.Consists start last (starStates inner start last)) (hinner : inner.Coaccessible) :
    f.Coaccessible := by
  have hout := h.leftTo_star hi hstart hlast
  intro x hx
  rw [h.last_eq]
  rw [h.mem_ids, map_id_starStates, List.mem_cons, List.mem_cons] at hx
  rcases hx with rfl | rfl | hx
  · exact ⟨[], .nil _⟩
  · exact ⟨[], (h.path_star_iff hne hstart).mpr (.inl (.nil _))⟩
  · exact hout.exists_path hi hinner List.mem_cons_self hx

theorem coaccessible_union (hl : left.Shape) (hr : right.Shape) (hne : start ≠ last)
    (hd : ∀ id ∈ left.states.ids, id ∉ right.states.ids)
    (hstart : start ∉ left.states.ids ++ right.states.ids)
    (hlast : last ∉ left.states.ids ++ right.states.ids)
    (h : f.Consists start last (unionStates left right start last))
    (hleft : left.Coaccessible) (hright : right.Coaccessible) : f.Coaccessible := by
  obtain ⟨houtl, houtr⟩ := h.leftTo_union hl hr hd hstart hlast
  have hbody : ∀ x ∈ left.states.ids ++ right.states.ids, ∃ w, f.states.Path x w last := by
    intro x hx
    rcases List.mem_append.mp hx with hx | hx
    · exact houtl.exists_path hl hleft List.mem_cons_self hx
    · exact houtr.exists_path hr hright List.mem_cons_self hx
  intro x hx
  rw [h.last_eq]
  rw [h.mem_ids, map_id_unionStates, List.mem_cons, List.mem_cons] at hx
  rcases hx with rfl | rfl | hx
  · exact ⟨[], .nil _⟩
  · obtain ⟨w, hw⟩ := hbody left.start (List.mem_append_left _ hl.start_mem)
    exact ⟨w, (h.path_union_iff hne hstart).mpr (.inl hw)⟩
  · exact hbody x hx

end Fragment

end PostfixRegex
