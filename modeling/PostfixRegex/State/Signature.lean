import PostfixRegex.State

/-!
# Signatures

The signature of a set of states is the strictly increasing array of its identifiers. Sorting and
dropping repetitions makes it a normal form: two signatures are equal exactly when they have the
same members (`Signature.ext_mem`). The identifiers stay separate numbers. Written one after the
other as digits, `{1, 234}` and `{12, 34}` would be the same text.

Because the identifiers increase, membership is decided by bisection (`Signature.contains_iff`).
-/

namespace PostfixRegex

/-- A set of identifiers in its canonical form. -/
structure Signature where
  ids : Array Nat
  sorted : ids.toList.Pairwise (· < ·)

namespace Signature

/-- The identifiers in increasing order. -/
def toList (s : Signature) : List Nat :=
  s.ids.toList

theorem ext {a b : Signature} (h : a.ids = b.ids) : a = b := by
  cases a; cases b; cases h; rfl

instance : DecidableEq Signature := fun a b =>
  decidable_of_iff (a.ids = b.ids) ⟨ext, fun h => h ▸ rfl⟩

theorem toList_sorted (s : Signature) : s.toList.Pairwise (· < ·) :=
  s.sorted

theorem toList_injective {a b : Signature} (h : a.toList = b.toList) : a = b :=
  ext (Array.toList_inj.mp h)

/-- The number of identifiers. -/
def size (s : Signature) : Nat :=
  s.ids.size

def isEmpty (s : Signature) : Bool :=
  s.ids.isEmpty

/-! ### The signature of a list -/

/-- Puts an identifier into an increasing list, unless it is already there. -/
def place (id : Nat) : List Nat → List Nat
  | [] => [id]
  | x :: xs =>
    if id < x then id :: x :: xs
    else if id = x then x :: xs
    else x :: place id xs

theorem mem_place {id x : Nat} : ∀ {xs : List Nat}, x ∈ place id xs ↔ x = id ∨ x ∈ xs
  | [] => by simp [place]
  | y :: ys => by
      rw [place]
      split
      · exact List.mem_cons
      · split
        · next h => simp [h]
        · rw [List.mem_cons, mem_place, List.mem_cons]
          exact or_left_comm

theorem sorted_place {id : Nat} : ∀ {xs : List Nat}, xs.Pairwise (· < ·) →
    (place id xs).Pairwise (· < ·)
  | [], _ => List.pairwise_singleton _ _
  | y :: ys, hs => by
      rw [place]
      split
      · next h =>
        refine List.pairwise_cons.mpr ⟨fun x hx => ?_, hs⟩
        rcases List.mem_cons.mp hx with rfl | hx
        · exact h
        · exact Nat.lt_trans h ((List.pairwise_cons.mp hs).1 x hx)
      · split
        · exact hs
        · rw [List.pairwise_cons] at hs
          refine List.pairwise_cons.mpr ⟨fun x hx => ?_, sorted_place hs.2⟩
          rcases mem_place.mp hx with rfl | hx
          · omega
          · exact hs.1 x hx

/-- The given identifiers in increasing order, each once. -/
def sortDistinct (ids : List Nat) : List Nat :=
  ids.foldr place []

theorem mem_sortDistinct {x : Nat} {ids : List Nat} : x ∈ sortDistinct ids ↔ x ∈ ids := by
  induction ids with
  | nil => simp [sortDistinct]
  | cons id ids ih =>
    rw [sortDistinct, List.foldr_cons, mem_place, List.mem_cons]
    exact or_congr_right ih

theorem sorted_sortDistinct (ids : List Nat) : (sortDistinct ids).Pairwise (· < ·) := by
  induction ids with
  | nil => exact .nil
  | cons id ids ih => exact sorted_place ih

/-- The signature of the given identifiers, in any order and with repetitions. -/
def ofList (ids : List Nat) : Signature :=
  ⟨(sortDistinct ids).toArray, sorted_sortDistinct ids⟩

@[simp] theorem mem_toList_ofList {x : Nat} {ids : List Nat} :
    x ∈ (ofList ids).toList ↔ x ∈ ids := by
  simp [toList, ofList, mem_sortDistinct]

/-- Two increasing lists with the same members are equal. -/
theorem eq_of_sorted_of_mem_iff : ∀ {xs ys : List Nat}, xs.Pairwise (· < ·) →
    ys.Pairwise (· < ·) → (∀ x, x ∈ xs ↔ x ∈ ys) → xs = ys
  | [], [], _, _, _ => rfl
  | [], y :: _, _, _, h => absurd ((h y).mpr List.mem_cons_self) List.not_mem_nil
  | x :: _, [], _, _, h => absurd ((h x).mp List.mem_cons_self) List.not_mem_nil
  | x :: xs, y :: ys, hx, hy, h => by
      rw [List.pairwise_cons] at hx hy
      have hxy : x = y := by
        have h₁ := (h x).mp List.mem_cons_self
        have h₂ := (h y).mpr List.mem_cons_self
        rcases List.mem_cons.mp h₁ with h₁ | h₁
        · exact h₁
        · rcases List.mem_cons.mp h₂ with h₂ | h₂
          · exact h₂.symm
          · exact absurd (Nat.lt_trans (hx.1 y h₂) (hy.1 x h₁)) (Nat.lt_irrefl x)
      subst hxy
      congr 1
      refine eq_of_sorted_of_mem_iff hx.2 hy.2 fun z => ⟨fun hz => ?_, fun hz => ?_⟩
      · rcases List.mem_cons.mp ((h z).mp (List.mem_cons_of_mem _ hz)) with rfl | hz'
        · exact absurd (hx.1 _ hz) (Nat.lt_irrefl _)
        · exact hz'
      · rcases List.mem_cons.mp ((h z).mpr (List.mem_cons_of_mem _ hz)) with rfl | hz'
        · exact absurd (hy.1 _ hz) (Nat.lt_irrefl _)
        · exact hz'

/-- Signatures with the same members are equal. -/
theorem ext_mem {a b : Signature} (h : ∀ x, x ∈ a.toList ↔ x ∈ b.toList) : a = b :=
  toList_injective (eq_of_sorted_of_mem_iff a.sorted b.sorted h)

/-! ### Membership by bisection -/

/-- Looks for an identifier among the positions from `lo` up to but not including `hi`. -/
def bisect (ids : Array Nat) (id lo hi : Nat) : Bool :=
  if h : lo < hi ∧ hi ≤ ids.size then
    have : (lo + hi) / 2 < ids.size := by omega
    if ids[(lo + hi) / 2] = id then true
    else if ids[(lo + hi) / 2] < id then bisect ids id ((lo + hi) / 2 + 1) hi
    else bisect ids id lo ((lo + hi) / 2)
  else false
termination_by hi - lo

/-- Bisection of an increasing array finds exactly what stands between the two bounds. -/
theorem bisect_iff {ids : Array Nat} (hs : ids.toList.Pairwise (· < ·)) {id lo hi : Nat}
    (hhi : hi ≤ ids.size) :
    bisect ids id lo hi = true ↔ ∃ i, ∃ _ : i < ids.size, lo ≤ i ∧ i < hi ∧ ids[i] = id := by
  have hlt : ∀ {i j : Nat} (hi : i < ids.size) (hj : j < ids.size), i < j → ids[i] < ids[j] :=
    fun hi hj hij => List.pairwise_iff_getElem.mp hs _ _ hi hj hij
  fun_induction bisect ids id lo hi with
  | case1 lo hi h hmid he =>
    exact iff_of_true rfl ⟨(lo + hi) / 2, hmid, by omega, by omega, he⟩
  | case2 lo hi h hmid hne hsmall ih =>
    refine (ih hhi).trans ?_
    constructor
    · rintro ⟨i, hi, hlo, hup, he⟩
      exact ⟨i, hi, by omega, hup, he⟩
    · rintro ⟨i, hi, hlo, hup, he⟩
      refine ⟨i, hi, Decidable.byContradiction fun hlow => ?_, hup, he⟩
      rcases Nat.lt_or_ge i ((lo + _) / 2) with hi' | hi'
      · have := hlt hi hmid hi'
        omega
      · have : i = (lo + _) / 2 := Nat.le_antisymm (by omega) hi'
        subst this
        omega
  | case3 lo hi h hmid hne hsmall ih =>
    refine (ih (by omega)).trans ?_
    constructor
    · rintro ⟨i, hi, hlo, hup, he⟩
      exact ⟨i, hi, hlo, by omega, he⟩
    · rintro ⟨i, hi, hlo, hup, he⟩
      refine ⟨i, hi, hlo, Decidable.byContradiction fun hlow => ?_, he⟩
      rcases Nat.lt_or_ge ((lo + _) / 2) i with hi' | hi'
      · have := hlt hmid hi hi'
        omega
      · have : i = (lo + _) / 2 := Nat.le_antisymm hi' (by omega)
        subst this
        omega
  | case4 lo hi h =>
    refine iff_of_false (by simp) ?_
    rintro ⟨i, hi, hlo, hup, _⟩
    exact h ⟨by omega, hhi⟩

/-- Whether the identifier is a member. -/
def contains (s : Signature) (id : Nat) : Bool :=
  bisect s.ids id 0 s.ids.size

@[simp] theorem contains_iff {s : Signature} {id : Nat} :
    s.contains id = true ↔ id ∈ s.toList := by
  rw [contains, bisect_iff s.sorted (Nat.le_refl _), toList, Array.mem_toList_iff,
    Array.mem_iff_getElem]
  constructor
  · rintro ⟨i, h, _, _, he⟩
    exact ⟨i, h, he⟩
  · rintro ⟨i, h, he⟩
    exact ⟨i, h, Nat.zero_le i, h, he⟩

/-! ### Order and text -/

/-- Signatures are ordered lexicographically by their identifiers, so a proper prefix comes
first. -/
def le (a b : Signature) : Bool :=
  (compare a.toList b.toList).isLE

/-- The given signatures in increasing order, repetitions kept. -/
def sort (signatures : List Signature) : List Signature :=
  signatures.mergeSort le

/-- The identifiers in decimal, separated by commas and enclosed in braces. -/
def text (s : Signature) : String :=
  "\x7b" ++ ", ".intercalate (s.toList.map Nat.repr) ++ "\x7d"

/-- The text with a leading word that says what it is. -/
def labelledText (s : Signature) : String :=
  "Signature" ++ s.text

end Signature

end PostfixRegex
