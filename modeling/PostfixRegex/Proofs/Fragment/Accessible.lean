import PostfixRegex.Proofs.Builder.Run
import PostfixRegex.Proofs.Fragment.Language

/-!
# Every state is led to by the start

A fragment has no superfluous states: some path leads from the start to each of them. This is the
other direction of what `Coaccessible` says about the last state, but the two proofs are not mirror
images. An operand keeps its start, and its last state is left to states outside. So an operand is
entered by its start and passed through to its last state, from where the rest of the result is
reached.

## Main definitions

* `Fragment.Accessible` — the start leads to every state

## Main results

* `Fragment.accessible_atom`, `Fragment.accessible_concatenate`, `Fragment.accessible_star`,
  `Fragment.accessible_union` — the makers keep it so
* `Fragment.inherited_accessible` — so every fragment that is built is accessible
-/

namespace PostfixRegex

namespace Fragment

/-- The start leads to every state. -/
def Accessible (f : Fragment) : Prop :=
  ∀ x ∈ f.states.ids, ∃ w, f.states.Path f.start w x

variable {f left right inner : Fragment} {start last p q x y : Nat} {t : Table}
  {targets : List Nat}

/-- Wherever an operand can be entered by its start, all of its states can be reached. -/
theorem Accessible.exists_path (ha : f.Accessible) (h : f.LeftTo targets t)
    (hp : ∃ w, t.Path p w f.start) (hx : x ∈ f.states.ids) : ∃ w, t.Path p w x := by
  obtain ⟨u, hu⟩ := hp
  obtain ⟨v, hv⟩ := ha x hx
  exact ⟨u ++ v, hu.trans (h.path_mono hv)⟩

/-- And so can every target that the operand is left to. -/
theorem Accessible.exists_path_target (ha : f.Accessible) (hf : f.Shape) (h : f.LeftTo targets t)
    (hp : ∃ w, t.Path p w f.start) (hq : q ∈ targets) : ∃ w, t.Path p w q := by
  obtain ⟨u, hu⟩ := hp
  obtain ⟨v, hv⟩ := ha f.last hf.last_mem
  exact ⟨u ++ v, hu.trans (h.path_to hf hq hv)⟩

/-- A wrapped body is entered at two places. -/
theorem Consists.path_wrap {body : List State}
    (h : f.Consists start last (wrap start last x y body)) :
    f.states.Path start [] x ∧ f.states.Path start [] y := by
  have hmove : ∀ q, q = x ∨ q = y → f.states.Move .epsilon start q := fun q hq =>
    h.move_iff.mpr (hasMove_wrap.mpr (.inr ⟨rfl, rfl, hq⟩))
  exact ⟨.epsilon (hmove x (.inl rfl)) (.nil x), .epsilon (hmove y (.inr rfl)) (.nil y)⟩

/-! ### The makers -/

theorem accessible_atom {c : Char} (hne : start ≠ last)
    (h : f.Consists start last (atomStates c start last)) : f.Accessible := by
  intro x hx
  have hids : x = last ∨ x = start := by simpa [atomStates] using h.mem_ids.mp hx
  rw [h.start_eq]
  rcases hids with rfl | rfl
  · have hc : [c] ∈ f.language := by
      rw [language_atom hne h]
      rfl
    rw [mem_language, h.start_eq, h.last_eq] at hc
    exact ⟨[c], hc⟩
  · exact ⟨[], .nil _⟩

theorem accessible_concatenate (hl : left.Shape)
    (hd : ∀ id ∈ left.states.ids, id ∉ right.states.ids)
    (h : f.Consists left.start right.last (concatenateStates left right))
    (hleft : left.Accessible) (hright : right.Accessible) : f.Accessible := by
  obtain ⟨htoright, hinside⟩ := h.leftTo_concatenate hl hd
  have hstart : ∃ w, f.states.Path left.start w left.start := ⟨[], .nil _⟩
  intro x hx
  rw [h.start_eq]
  rw [h.mem_ids, map_id_concatenateStates] at hx
  rcases List.mem_append.mp hx with hx | hx
  · exact hleft.exists_path htoright hstart hx
  · have hover := hleft.exists_path_target hl htoright hstart List.mem_cons_self
    exact hright.exists_path hinside hover hx

theorem accessible_star (hi : inner.Shape) (hstart : start ∉ inner.states.ids)
    (hlast : last ∉ inner.states.ids)
    (h : f.Consists start last (starStates inner start last)) (hinner : inner.Accessible) :
    f.Accessible := by
  obtain ⟨hend, hin⟩ := h.path_wrap
  intro x hx
  rw [h.start_eq]
  rw [h.mem_ids, map_id_starStates, List.mem_cons, List.mem_cons] at hx
  rcases hx with rfl | rfl | hx
  · exact ⟨[], hend⟩
  · exact ⟨[], .nil _⟩
  · exact hinner.exists_path (h.leftTo_star hi hstart hlast) ⟨[], hin⟩ hx

theorem accessible_union (hl : left.Shape) (hr : right.Shape)
    (hd : ∀ id ∈ left.states.ids, id ∉ right.states.ids)
    (hstart : start ∉ left.states.ids ++ right.states.ids)
    (hlast : last ∉ left.states.ids ++ right.states.ids)
    (h : f.Consists start last (unionStates left right start last))
    (hleft : left.Accessible) (hright : right.Accessible) : f.Accessible := by
  obtain ⟨houtl, houtr⟩ := h.leftTo_union hl hr hd hstart hlast
  obtain ⟨hinl, hinr⟩ := h.path_wrap
  intro x hx
  rw [h.start_eq]
  rw [h.mem_ids, map_id_unionStates, List.mem_cons, List.mem_cons, List.mem_append] at hx
  rcases hx with rfl | rfl | hx | hx
  · exact hleft.exists_path_target hl houtl ⟨[], hinl⟩ List.mem_cons_self
  · exact ⟨[], .nil _⟩
  · exact hleft.exists_path houtl ⟨[], hinl⟩ hx
  · exact hright.exists_path houtr ⟨[], hinr⟩ hx

/-- **No fragment has superfluous states.** -/
theorem inherited_accessible : Inherited fun f _ => f.Accessible where
  atom := accessible_atom
  concatenate hl _ hd h hleft hright := accessible_concatenate hl hd h hleft hright
  star hi _ hstart hlast h hinner := accessible_star hi hstart hlast h hinner
  union hl hr _ hd hstart hlast h hleft hright :=
    accessible_union hl hr hd hstart hlast h hleft hright

end Fragment

end PostfixRegex
