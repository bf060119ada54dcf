import PostfixRegex.Determinization.Worklist
import PostfixRegex.Proofs.Determinization.Size
import PostfixRegex.Proofs.Table

/-!
# The loop of the subset construction ends

The sets that were discovered form a list, and everything else in the loop is read off this list and
the number of rounds: the identifiers are consecutive, the queue holds what is behind the sets that
were taken up, and the table has one row for each set, complete for the sets that were taken up and
without transitions for the others (`Worklist.Reached`). A round appends sets to the list and
completes one row. Rows that are complete do not change any more, although they point to positions
in a list that grows, because it grows at its end.

The search that `Nfa.determinize` is defined by goes through the same lists of found nodes. So the
loop discovers the same sets in the same order, it takes one round for each of them, and the table
at the end is the one of the deterministic automaton. None of the checks on the way fails.

## Main definitions

* `Worklist.Lists` — table, queue and supply belong to a list of sets
* `Worklist.Reached` — the loop after some rounds, beside the search
* `Worklist.Orderly` — what can be seen of it from outside

## Main results

* `Worklist.Lists.discover`, `Worklist.Lists.follow` — one set and one transition
* `Worklist.Reached.round` — one round
* `Worklist.exists_reached` — every number of rounds
* `Nfa.determinize_afterRounds` — the loop ends, and the deterministic automaton is what it leaves
-/

namespace PostfixRegex

/-! ### Growing lists -/

section Unseen

variable {α : Type} [DecidableEq α]

theorem unseen_congr {known known' : List α} (h : ∀ x, x ∈ known ↔ x ∈ known') (xs : List α) :
    unseen known xs = unseen known' xs := by
  rw [unseen_eq_eraseDups, unseen_eq_eraseDups]
  simp only [h]

/-- What is new in a list can be found entry by entry. -/
theorem unseen_cons_eq (known : List α) (x : α) (xs : List α) :
    unseen known (x :: xs) = unseen known [x] ++ unseen (known ++ unseen known [x]) xs := by
  by_cases hx : x ∈ known
  · have hnil : unseen known [x] = [] := by rw [unseen, if_pos hx, unseen]
    rw [unseen, if_pos hx, hnil, List.append_nil, List.nil_append]
  · have hone : unseen known [x] = [x] := by rw [unseen, if_neg hx, unseen]
    have hsame : ∀ y, y ∈ x :: known ↔ y ∈ known ++ [x] := by
      intro y
      rw [List.mem_cons, List.mem_append, List.mem_singleton, or_comm]
    rw [unseen, if_neg hx, hone, List.singleton_append, unseen_congr hsame]

theorem lookup_zipIdx (x : α) (xs : List α) (first : Nat) :
    (xs.zipIdx first).lookup x = if x ∈ xs then some (first + xs.idxOf x) else none := by
  induction xs generalizing first with
  | nil => rfl
  | cons y ys ih =>
    rw [List.zipIdx_cons, List.lookup_cons]
    by_cases hxy : x = y
    · rw [hxy, beq_self_eq_true, if_pos List.mem_cons_self, List.idxOf_cons_self]
      rfl
    · rw [beq_eq_false_iff_ne.mpr hxy, List.idxOf_cons_ne _ (Ne.symm hxy)]
      simp only [ih, List.mem_cons, hxy, false_or, Nat.succ_eq_add_one, Nat.add_assoc,
        Nat.add_comm 1]

end Unseen

/-! ### Rows -/

namespace Table

theorem place_number (r : Row) (first : Nat) (rows : List Row) :
    place ⟨first + rows.length, r.accepting, r.transitions⟩ (number first rows) =
      number first (rows ++ [r]) := by
  induction rows generalizing first with
  | nil => rfl
  | cons r' rows ih =>
    have hlt : ¬ first + (rows.length + 1) < first := by omega
    rw [number, List.length_cons, place, if_neg hlt, List.cons_append, number, ← ih, Nat.add_assoc,
      Nat.add_comm 1]

/-- The next identifier is free, and its state becomes the last row. -/
theorem insert_ofRows (r : Row) (first : Nat) (rows : List Row) :
    (ofRows first rows).insert ⟨first + rows.length, r.accepting, r.transitions⟩ =
      .ok (ofRows first (rows ++ [r])) := by
  have hfree : ¬ (ofRows first rows).contains (first + rows.length) = true := by
    rw [contains_iff, ids_ofRows, List.mem_range'_1]
    omega
  rw [insert, dif_neg hfree]
  exact congrArg Except.ok (Table.ext (place_number r first rows))

theorem contains_ofRows (first : Nat) (before : List Row) (r : Row) (after : List Row) :
    (ofRows first (before ++ r :: after)).contains (first + before.length) = true := by
  rw [contains_iff, ids_ofRows, List.mem_range'_1, List.length_append, List.length_cons]
  omega

/-- A transition that is added to a state changes its row and no other. -/
theorem addTransition_ofRows (first : Nat) (before : List Row) (r : Row) (after : List Row)
    (symbol : Symbol) (target : Nat) :
    (ofRows first (before ++ r :: after)).addTransition (first + before.length) symbol target =
      ofRows first (before ++ ⟨r.accepting, r.transitions ++ [⟨symbol, target⟩]⟩ :: after) := by
  refine Table.ext ?_
  show (number first (before ++ r :: after)).map _ = number first (before ++ _ :: after)
  induction before generalizing first with
  | nil =>
    have hafter : ∀ s ∈ number (first + 1) after,
        (if s.id = first then s.addTransition symbol target else s) = s := by
      intro s hs
      have hle := le_id_of_mem_number hs
      exact if_neg (by omega)
    rw [List.nil_append, number, List.map_cons, List.length_nil, Nat.add_zero, if_pos rfl,
      List.map_congr_left hafter, List.map_id']
    rfl
  | cons r' before ih =>
    have hne : ¬ first = first + (before.length + 1) := by omega
    rw [List.cons_append, number, List.map_cons, List.length_cons, if_neg hne, List.cons_append,
      number, ← ih (first + 1), Nat.add_assoc, Nat.add_comm 1]

end Table

/-! ### One transition -/

/-- A set that waits has a state without transitions. -/
def Nfa.bareRow (n : Nfa) (s : Signature) : Table.Row where
  accepting := n.anyAccepting s.toList
  transitions := []

theorem Automaton.anyAccepting_signature (a : Automaton) (set : StateSet) :
    a.anyAccepting set.signature.toList = a.anyAccepting set.order := by
  rw [Bool.eq_iff_iff, anyAccepting_iff, anyAccepting_iff]
  simp only [StateSet.mem_signature]

/-- A step depends on the members of a set and not on their order. -/
theorem Nfa.signature_step (n : Nfa) (c : Char) (set : StateSet) :
    (n.step c set).signature = n.nextSubset set.signature c := by
  refine Signature.ext_mem fun x => ?_
  rw [StateSet.mem_signature, Automaton.mem_step, mem_nextSubset]
  simp only [StateSet.mem_signature]

namespace Worklist

/-- The sets `found` were discovered, and the first `taken` of them have left the queue. Identifiers
start at `first`, and the table has the given rows. -/
structure Lists (first taken : Nat) (found : List Signature) (rows : List Table.Row)
    (w : Worklist) : Prop where
  nodup : found.Nodup
  taken_le : taken ≤ found.length
  known_eq : w.known = found.zipIdx first
  next_eq : w.supply.next = first + found.length
  queue_eq : w.queue.map (fun e => (e.2.signature, e.1)) = w.known.drop taken
  states_eq : w.states = .ofRows first rows
  length_eq : rows.length = found.length

variable {n : Nfa} {first taken id : Nat} {found : List Signature} {w : Worklist}
  {rows before after : List Table.Row} {r : Table.Row}

/-- A set that is in the list has its identifier already. -/
theorem Lists.discover_of_mem (h : w.Lists first taken found rows) (n : Nfa) {set : StateSet}
    (hset : set.signature ∈ found) :
    w.discover n set = .ok (first + found.idxOf set.signature, w) := by
  rw [Worklist.discover, h.known_eq, lookup_zipIdx, if_pos hset]
  rfl

/-- Any other set is put at its end. -/
theorem Lists.discover_of_notMem (h : w.Lists first taken found rows) (n : Nfa) {set : StateSet}
    (hset : set.signature ∉ found) :
    ∃ w', w.discover n set = .ok (first + found.length, w') ∧
      w'.Lists first taken (found ++ [set.signature]) (rows ++ [n.bareRow set.signature]) := by
  have hlookup : w.known.lookup set.signature = none := by
    rw [h.known_eq, lookup_zipIdx, if_neg hset]
  have hinsert : w.states.insert { id := w.supply.next, accepting := n.anyAccepting set.order } =
      .ok (.ofRows first (rows ++ [n.bareRow set.signature])) := by
    rw [h.states_eq, h.next_eq, ← h.length_eq, ← n.anyAccepting_signature]
    exact Table.insert_ofRows (n.bareRow set.signature) first rows
  have hlength : w.known.length = found.length := by rw [h.known_eq, List.length_zipIdx]
  rw [← h.next_eq]
  refine ⟨{ supply := w.supply.skip 1
            states := .ofRows first (rows ++ [n.bareRow set.signature])
            known := w.known ++ [(set.signature, w.supply.next)]
            queue := w.queue ++ [(w.supply.next, set)] }, ?_, ?_⟩
  · rw [Worklist.discover, hlookup]
    simp only [Supply.fresh, hinsert, Checked.ok_bind, Checked.pure_eq]
    rfl
  · refine ⟨?_, ?_, ?_, ?_, ?_, rfl, ?_⟩
    · refine List.nodup_append.mpr ⟨h.nodup, List.nodup_singleton _, fun x hx y hy hxy => hset ?_⟩
      rw [← List.mem_singleton.mp hy, ← hxy]
      exact hx
    · rw [List.length_append]
      exact Nat.le_add_right_of_le h.taken_le
    · rw [List.zipIdx_append, ← h.known_eq, ← h.next_eq]
      rfl
    · rw [List.length_append, ← Nat.add_assoc, ← h.next_eq]
      rfl
    · rw [List.map_append, h.queue_eq, List.drop_append_of_le_length (hlength ▸ h.taken_le)]
      rfl
    · rw [List.length_append, List.length_append, h.length_eq]
      rfl

/-- **One set.** It is found in the list or put at its end. -/
theorem Lists.discover (h : w.Lists first taken found rows) (n : Nfa) (set : StateSet)
    {new : List Signature} (hnew : new = unseen found [set.signature]) :
    ∃ w', w.discover n set = .ok (first + (found ++ new).idxOf set.signature, w') ∧
      w'.Lists first taken (found ++ new) (rows ++ new.map n.bareRow) := by
  by_cases hset : set.signature ∈ found
  · obtain rfl : new = [] := by rw [hnew, unseen, if_pos hset, unseen]
    rw [List.append_nil, List.map_nil, List.append_nil]
    exact ⟨w, h.discover_of_mem n hset, h⟩
  · obtain rfl : new = [set.signature] := by rw [hnew, unseen, if_neg hset, unseen]
    obtain ⟨w', hdiscover, hw'⟩ := h.discover_of_notMem n hset
    refine ⟨w', ?_, hw'⟩
    rw [hdiscover, List.idxOf_append_of_notMem hset, List.idxOf_cons_self, Nat.add_zero]

/-- **One transition** of the state that has the row `r`. -/
theorem Lists.follow (h : w.Lists first taken found (before ++ r :: after)) (n : Nfa)
    (set : StateSet) (c : Char) {new : List Signature}
    (hnew : new = unseen found [n.nextSubset set.signature c]) :
    ∃ w', Worklist.follow n (first + before.length) set w c = .ok w' ∧
      w'.Lists first taken (found ++ new) (before ++ ⟨r.accepting, r.transitions ++
        [⟨.char c, first + (found ++ new).idxOf (n.nextSubset set.signature c)⟩]⟩ ::
          (after ++ new.map n.bareRow)) := by
  rw [← n.signature_step] at hnew ⊢
  obtain ⟨w', hdiscover, hw'⟩ := h.discover n (n.step c set) hnew
  rw [List.append_assoc, List.cons_append] at hw'
  have hcontains : w'.states.contains (first + before.length) = true := by
    rw [hw'.states_eq]
    exact Table.contains_ofRows ..
  refine ⟨{ w' with
    states := w'.states.addTransition (first + before.length) (.char c)
      (first + (found ++ new).idxOf (n.step c set).signature) }, ?_,
    { hw' with states_eq := ?_, length_eq := ?_ }⟩
  · rw [Worklist.follow, hdiscover, Checked.ok_bind]
    exact if_pos hcontains
  · rw [hw'.states_eq]
    exact Table.addTransition_ofRows ..
  · rw [← hw'.length_eq, List.length_append, List.length_append]
    rfl

/-! ### One round -/

/-- **The transitions of one state.** Each new set gets a row at the end, and the targets are
positions in the list that has grown by all of them. -/
theorem Lists.foldlM_follow (h : w.Lists first taken found (before ++ r :: after)) (n : Nfa)
    (set : StateSet) (cs : List Char) {new : List Signature}
    (hnew : new = unseen found (cs.map (n.nextSubset set.signature))) :
    ∃ w', cs.foldlM (Worklist.follow n (first + before.length) set) w = .ok w' ∧
      w'.Lists first taken (found ++ new) (before ++ ⟨r.accepting, r.transitions ++
        cs.map fun c => ⟨.char c, first + (found ++ new).idxOf (n.nextSubset set.signature c)⟩⟩ ::
          (after ++ new.map n.bareRow)) := by
  induction cs generalizing w found r after new with
  | nil =>
    obtain rfl : new = [] := hnew
    rw [List.map_nil, List.map_nil, List.append_nil, List.append_nil, List.append_nil]
    exact ⟨w, rfl, h⟩
  | cons c cs ih =>
    obtain ⟨w₁, hfollow, h₁⟩ := h.follow n set c rfl
    obtain ⟨w₂, hfold, h₂⟩ := ih h₁ rfl
    let next := n.nextSubset set.signature c
    let others := unseen (found ++ unseen found [next]) (cs.map (n.nextSubset set.signature))
    obtain rfl : new = unseen found [next] ++ others := hnew.trans (unseen_cons_eq ..)
    -- the target of the first transition does not move when the list grows by the others
    have hstays : (found ++ (unseen found [next] ++ others)).idxOf next =
        (found ++ unseen found [next]).idxOf next := by
      rw [← List.append_assoc,
        List.idxOf_append_of_mem (mem_append_unseen (List.mem_singleton_self next))]
    refine ⟨w₂, ?_, ?_⟩
    · rw [List.foldlM_cons, hfollow, Checked.ok_bind]
      exact hfold
    · rw [List.map_cons, hstays, List.map_append]
      simp only [List.append_assoc, List.singleton_append] at h₂ ⊢
      exact h₂

/-- As long as a set waits, the queue can be popped. -/
theorem Lists.exists_queue (h : w.Lists first taken found rows) (hlt : taken < found.length) :
    ∃ set rest, w.queue = (first + taken, set) :: rest ∧ set.signature = found[taken] ∧
      Lists first (taken + 1) found rows { w with queue := rest } := by
  have hlength : taken < w.known.length := by
    rw [h.known_eq, List.length_zipIdx]
    exact hlt
  have hqueue := h.queue_eq
  rw [List.drop_eq_getElem_cons hlength] at hqueue
  obtain ⟨⟨id, set⟩, rest, hw, hset, hrest⟩ := List.map_eq_cons_iff.mp hqueue
  simp only [h.known_eq, List.getElem_zipIdx, Prod.mk.injEq] at hset
  obtain ⟨hsignature, rfl⟩ := hset
  exact ⟨set, rest, hw, hsignature, { h with taken_le := hlt, queue_eq := hrest }⟩

/-- The rows of the sets: complete for those that were taken up, bare for those that wait. -/
def rowsAfter (n : Nfa) (first taken : Nat) (found : List Signature) : List Table.Row :=
  (found.take taken).map (n.subsetRow first found) ++ (found.drop taken).map n.bareRow

theorem rowsAfter_of_lt (hlt : taken < found.length) :
    rowsAfter n first taken found = (found.take taken).map (n.subsetRow first found) ++
      n.bareRow found[taken] :: (found.drop (taken + 1)).map n.bareRow := by
  rw [rowsAfter, List.drop_eq_getElem_cons hlt, List.map_cons]

/-- A complete row does not change when the list grows. -/
theorem subsetRow_append {s : Signature} (new : List Signature)
    (h : ∀ c ∈ n.alphabet.toList, n.nextSubset s c ∈ found) :
    n.subsetRow first (found ++ new) s = n.subsetRow first found s := by
  have htransitions : ∀ c ∈ n.alphabet.toList,
      (⟨.char c, first + (found ++ new).idxOf (n.nextSubset s c)⟩ : Transition) =
        ⟨.char c, first + found.idxOf (n.nextSubset s c)⟩ := by
    intro c hc
    rw [List.idxOf_append_of_mem (h c hc)]
  rw [Nfa.subsetRow, Nfa.subsetRow, List.map_congr_left htransitions]

theorem take_succ_append (new : List Signature) (hlt : taken < found.length) :
    (found ++ new).take (taken + 1) = found.take taken ++ [found[taken]] := by
  rw [List.take_append_of_le_length hlt, List.take_succ_eq_append_getElem hlt]

/-- The rows after a round: the old ones that are complete, one more, the other old ones and those
of the new sets. -/
theorem rowsAfter_append (new : List Signature) (hlt : taken < found.length)
    (hclosed : ∀ s ∈ found.take taken, ∀ c ∈ n.alphabet.toList, n.nextSubset s c ∈ found) :
    rowsAfter n first (taken + 1) (found ++ new) =
      (found.take taken).map (n.subsetRow first found) ++
        n.subsetRow first (found ++ new) found[taken] ::
          ((found.drop (taken + 1)).map n.bareRow ++ new.map n.bareRow) := by
  have hold : (found.take taken).map (n.subsetRow first (found ++ new)) =
      (found.take taken).map (n.subsetRow first found) :=
    List.map_congr_left fun s hs => subsetRow_append new (hclosed s hs)
  rw [rowsAfter, take_succ_append new hlt, List.drop_append_of_le_length hlt, List.map_append,
    List.map_append, hold, List.append_assoc]
  rfl

/-- **The loop beside the search.** The search that has found the same sets and taken up as many of
them comes to the same end. -/
structure Reached (n : Nfa) (first taken : Nat) (found : List Signature) (w : Worklist) : Prop
    extends w.Lists first taken found (rowsAfter n first taken found) where
  /-- What a set leads to is discovered when the set is taken up. -/
  closed : ∀ s ∈ found.take taken, ∀ c ∈ n.alphabet.toList, n.nextSubset s c ∈ found
  search_eq : n.subsetGraph.explore .queue found (found.take taken) (found.drop taken) =
    n.subsetGraph.search .queue [n.initialSubset]

/-- **One round** takes up the next set of the list. -/
theorem Reached.round (h : w.Reached n first taken found) (hlt : taken < found.length) :
    ∃ new w', w.round n = .ok w' ∧ w'.Reached n first (taken + 1) (found ++ new) := by
  obtain ⟨set, rest, hqueue, hset, hpopped⟩ := h.exists_queue hlt
  rw [rowsAfter_of_lt hlt] at hpopped
  let new := unseen found (n.subsetGraph.successors found[taken])
  have hnew : new = unseen found (n.alphabet.toList.map (n.nextSubset set.signature)) := by
    rw [hset]
    rfl
  obtain ⟨w', hfold, hw'⟩ := hpopped.foldlM_follow n set n.alphabet.toList hnew
  have hposition : ((found.take taken).map (n.subsetRow first found)).length = taken := by
    rw [List.length_map, List.length_take, Nat.min_eq_left h.taken_le]
  rw [hposition] at hfold
  refine ⟨new, w', ?_, ?_, fun s hs c hc => ?_, ?_⟩
  · rw [Worklist.round, hqueue]
    exact hfold
  · rw [rowsAfter_append new hlt h.closed]
    rw [hset] at hw'
    exact hw'
  · rw [take_succ_append new hlt] at hs
    rcases List.mem_append.mp hs with hs | hs
    · exact List.mem_append_left _ (h.closed s hs c hc)
    · rw [List.mem_singleton.mp hs]
      exact mem_append_unseen (List.mem_map_of_mem hc)
  · rw [take_succ_append new hlt, List.drop_append_of_le_length hlt, ← h.search_eq,
      List.drop_eq_getElem_cons hlt, Graph.explore]
    rfl

/-! ### All rounds -/

theorem exists_start (n : Nfa) (supply : Supply) :
    ∃ w, start n supply = .ok w ∧ w.Reached n supply.next 0 [n.initialSubset] := by
  have hempty : Lists supply.next 0 [] [] { supply } :=
    ⟨List.nodup_nil, Nat.le_refl 0, rfl, rfl, rfl, rfl, rfl⟩
  have hnew : (n.closure [n.start]).signature ∉ ([] : List Signature) := List.not_mem_nil
  obtain ⟨w, hdiscover, hw⟩ := hempty.discover_of_notMem n hnew
  refine ⟨w, ?_, hw, fun s hs => absurd hs List.not_mem_nil, ?_⟩
  · rw [start, hdiscover]
    rfl
  · rw [Graph.search]
    rfl

/-- The list is a beginning of the sets that are discovered in the end. -/
theorem Reached.prefix_subsets (h : w.Reached n first taken found) : found <+: n.subsets := by
  rw [Nfa.subsets, ← h.search_eq]
  exact Graph.prefix_found_explore

/-- If no set waits, all of them are discovered. -/
theorem Reached.found_eq (h : w.Reached n first taken found) (hend : found.length ≤ taken) :
    found = n.subsets := by
  rw [Nfa.subsets, ← h.search_eq, List.drop_eq_nil_of_le hend, Graph.explore]

/-- Before the last round some set waits. -/
theorem Reached.taken_lt (h : w.Reached n first taken found) (hlt : taken < n.subsets.length) :
    taken < found.length := by
  by_contra hend
  have hall := h.found_eq (Nat.not_lt.mp hend)
  rw [hall] at hend
  exact hend hlt

/-- **Every number of rounds** up to the number of sets. No check fails. -/
theorem exists_reached (n : Nfa) (supply : Supply) {rounds : Nat} (h : rounds ≤ n.subsets.length) :
    ∃ w found, afterRounds n supply rounds = .ok w ∧
      w.Reached n supply.next rounds found := by
  induction rounds with
  | zero =>
    obtain ⟨w, hstart, hw⟩ := exists_start n supply
    exact ⟨w, _, hstart, hw⟩
  | succ rounds ih =>
    obtain ⟨w, found, hrounds, hw⟩ := ih (Nat.le_of_succ_le h)
    obtain ⟨new, w', hround, hw'⟩ := hw.round (hw.taken_lt h)
    refine ⟨w', found ++ new, ?_, hw'⟩
    rw [afterRounds, hrounds, Checked.ok_bind, hround]

/-- What can be seen of the loop after `taken` rounds, when identifiers start at `first`. -/
structure Orderly (first taken : Nat) (w : Worklist) : Prop where
  /-- No set is discovered twice. -/
  nodup : (w.known.map Prod.fst).Nodup
  /-- A set takes the next identifier when it is discovered, and nothing else takes one, -/
  ids_eq : w.known.map Prod.snd = List.range' first w.known.length
  next_eq : w.supply.next = first + w.known.length
  /-- it gets a state, -/
  states_eq : w.states.ids = w.known.map Prod.snd
  /-- and it waits until those before it have been taken up, one in each round. -/
  queue_eq : w.queue.map (fun e => (e.2.signature, e.1)) = w.known.drop taken

theorem Lists.orderly (h : w.Lists first taken found rows) : w.Orderly first taken where
  nodup := by
    rw [h.known_eq, List.zipIdx_map_fst]
    exact h.nodup
  ids_eq := by
    rw [h.known_eq, List.zipIdx_map_snd, List.length_zipIdx]
  next_eq := by
    rw [h.known_eq, List.length_zipIdx, h.next_eq]
  states_eq := by
    rw [h.states_eq, Table.ids_ofRows, h.length_eq, h.known_eq, List.zipIdx_map_snd]
  queue_eq := h.queue_eq

/-- As long as a set waits, the next round takes up the set whose number is the number of the
round. -/
theorem exists_taken (n : Nfa) (supply : Supply) {rounds : Nat} (h : rounds < n.subsets.length) :
    ∃ w set rest, afterRounds n supply rounds = .ok w ∧ w.Orderly supply.next rounds ∧
      w.known <+: n.subsets.zipIdx supply.next ∧
      w.queue = (supply.next + rounds, set) :: rest ∧
      (n.numbered supply.next).subset? (supply.next + rounds) = some set.signature := by
  obtain ⟨w, found, hrounds, hw⟩ := exists_reached n supply (Nat.le_of_lt h)
  have hlt := hw.taken_lt h
  obtain ⟨set, rest, hqueue, hset, _⟩ := hw.exists_queue hlt
  have hknown : w.known <+: n.subsets.zipIdx supply.next := by
    obtain ⟨others, hothers⟩ := hw.prefix_subsets
    rw [hw.known_eq, ← hothers, List.zipIdx_append]
    exact List.prefix_append _ _
  refine ⟨w, set, rest, hrounds, hw.orderly, hknown, hqueue, ?_⟩
  have hget : n.subsets[rounds]? = some set.signature := by
    rw [hset, List.getElem?_eq_getElem h, hw.prefix_subsets.getElem hlt]
  rw [Nfa.subset?_numbered_iff, Nfa.number, Nfa.idxOf_eq_of_getElem? hget]
  exact ⟨List.mem_of_getElem? hget, rfl⟩

/-- After as many rounds as there are sets no set waits, and the table is complete. -/
theorem afterRounds_length_subsets (n : Nfa) (supply : Supply) :
    afterRounds n supply n.subsets.length = .ok ⟨supply.skip n.subsets.length,
      (n.numbered supply.next).states, n.subsets.zipIdx supply.next, []⟩ := by
  obtain ⟨w, found, hrounds, hw⟩ := exists_reached n supply (Nat.le_refl _)
  have hall : found = n.subsets := hw.found_eq hw.prefix_subsets.length_le
  subst hall
  have hsupply : w.supply = supply.skip n.subsets.length := by
    rw [Supply.skip, ← hw.next_eq]
  have hrows : rowsAfter n supply.next n.subsets.length n.subsets =
      n.subsets.map (n.subsetRow supply.next n.subsets) := by
    rw [rowsAfter, List.take_length, List.drop_length, List.map_nil, List.append_nil]
  have hstates : w.states = (n.numbered supply.next).states := by
    rw [hw.states_eq, hrows]
    rfl
  have hqueue : w.queue = [] := by
    refine List.map_eq_nil_iff.mp (hw.queue_eq.trans (List.drop_eq_nil_of_le ?_))
    rw [hw.known_eq, List.length_zipIdx]
  rw [hrounds, ← hsupply, ← hstates, ← hw.known_eq, ← hqueue]

end Worklist

/-- **The loop ends.** Nothing is made of an automaton without states. For any other one, and
wherever the supply stands, each round takes up one set, in the order of their numbers and each set
once, until after as many rounds as there are states none waits. The deterministic automaton and the
supply are what the loop leaves. So there are as many rounds as states and as identifiers taken, and
no more than there are sets of identifiers among the start state and the targets of all
transitions. -/
theorem Nfa.determinize_afterRounds (n : Nfa) (supply : Supply) :
    match n.determinize supply with
    | none => n.states.isEmpty = true
    | some (d, supply') => n.states.isEmpty = false ∧
        (∀ rounds < d.states.size, ∃ w set rest,
          Worklist.afterRounds n supply rounds = .ok w ∧ w.Orderly supply.next rounds ∧
          w.known <+: d.subsets.zipIdx supply.next ∧
          w.queue = (supply.next + rounds, set) :: rest ∧
          d.subset? (supply.next + rounds) = some set.signature) ∧
        Worklist.afterRounds n supply d.states.size =
          .ok ⟨supply', d.states, d.subsets.zipIdx supply.next, []⟩ ∧
        d.subsets.Nodup ∧
        supply'.next = supply.next + d.states.size ∧
        d.states.size ≤ 2 ^ (n.start :: n.allTargets).eraseDups.length := by
  cases hempty : n.states.isEmpty with
  | true =>
    rw [determinize, if_pos hempty]
  | false =>
    rw [n.determinize_eq supply hempty]
    show false = false ∧ _
    rw [n.size_numbered]
    exact ⟨rfl, fun _ h => Worklist.exists_taken n supply h,
      Worklist.afterRounds_length_subsets n supply, n.nodup_subsets, rfl, n.length_subsets_le_pow⟩

-- three sets are taken up, and the supply that stood at 1 has handed out three identifiers
example : (Worklist.afterRounds Nfa.tangled ⟨1⟩ 3).toOption.map (fun w =>
    (w.queue.length, w.supply.next)) = some (0, 4) := by cbv

end PostfixRegex
