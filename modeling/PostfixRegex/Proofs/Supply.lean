import PostfixRegex.Proofs.Compilation
import PostfixRegex.Proofs.Determinization.Numbering

/-!
# One supply for everything

A supply goes from one piece of work to the next: single identifiers are taken from it, expressions
are compiled, fragments are built by hand and automata are determinized. Whatever comes out owns
exactly the identifiers that the supply handed out meanwhile. Nothing is handed out on the side and
nothing is handed out twice, so what comes out of one piece of work shares no identifier with what
comes out of another, and work that fails in between does no harm.

A receipt records what the supply was before and after. That each receipt is exact is shown for one
job at a time; that receipts do not overlap follows from the order in which they are written.

## Main definitions

* `Job`, `Product` — what takes identifiers, and what comes out
* `Supply.carryOut`, `Supply.carryOutAll` — one job, and one job after the other
* `Receipt.Exact` — the product has the identifiers that were handed out

## Main results

* `Supply.carryOut_exact` — the receipt of any job
* `Supply.carryOutAll_disjoint` — the receipts of any jobs
-/

namespace PostfixRegex

/-! ### Jobs -/

/-- A piece of work that takes identifiers from a supply. -/
inductive Job where
  | identifier
  | state
  | compile (text : String)
  /-- Calls on a builder, which is finished in the end or given up. -/
  | build (calls : List Builder.Call) (finished : Bool)
  | determinize (n : Nfa)

/-- What comes out of a job. -/
inductive Product where
  | identifier (id : Nat)
  | state (s : State)
  | nfa (n : Nfa)
  | dfa (d : Dfa)

/-- The identifiers that the product owns. -/
def Product.ids : Product → List Nat
  | identifier id => [id]
  | state s => [s.id]
  | nfa n => n.states.ids
  | dfa d => d.states.ids

/-- The record of a job. -/
structure Receipt where
  job : Job
  before : Supply
  /-- Nothing comes out of a job that fails or is given up. -/
  product : Option Product
  after : Supply

/-- The identifiers of what came out, if anything did. -/
def Receipt.ids (r : Receipt) : List Nat :=
  r.product.elim [] Product.ids

namespace Supply

/-- Does a job, and tells what came out and what is left of the supply. -/
def carryOut (supply : Supply) : Job → Checked (Option Product × Supply)
  | .identifier => return (some (.identifier supply.fresh.1), supply.fresh.2)
  | .state => return (some (.state { id := supply.fresh.1 }), supply.fresh.2)
  | .compile text => do
    let c ← PostfixRegex.compile text supply
    return (c.result.toOption.map .nfa, c.supply)
  | .build calls finished => do
    let b ← Builder.performAll { supply } calls
    if finished then
      let outcome ← b.finish
      return (outcome.toOption.map .nfa, b.supply)
    else return (none, b.supply)
  | .determinize n =>
    match n.determinize supply with
    | some (d, after) => return (some (.dfa d), after)
    | none => return (none, supply)

/-- Does jobs one after the other. -/
def carryOutAll (supply : Supply) : List Job → Checked (List Receipt × Supply)
  | [] => return ([], supply)
  | job :: jobs => do
    let (product, after) ← supply.carryOut job
    let (receipts, last) ← after.carryOutAll jobs
    return (⟨job, supply, product, after⟩ :: receipts, last)

end Supply

/-! ### Exact receipts -/

/-- The product owns the identifiers that were handed out, neither more nor fewer. -/
structure Receipt.Exact (r : Receipt) : Prop where
  /-- Nothing is handed back. -/
  before_le : r.before.next ≤ r.after.next
  ids_eq : ∀ p, r.product = some p →
    p.ids = List.range' r.before.next (r.after.next - r.before.next)
  /-- Nothing is made of an automaton without states, and nothing is taken for it. Something is made
  of every other one. -/
  of_determinize : ∀ n, r.job = .determinize n →
    if n.states.isEmpty then r.product = none ∧ r.after = r.before else r.product.isSome = true

theorem Receipt.Exact.mem_ids {r : Receipt} (h : r.Exact) {id : Nat} (hid : id ∈ r.ids) :
    r.before.next ≤ id ∧ id < r.after.next := by
  have hle := h.before_le
  cases hproduct : r.product with
  | none =>
    rw [ids, hproduct] at hid
    exact absurd hid List.not_mem_nil
  | some p =>
    rw [ids, hproduct, Option.elim_some, h.ids_eq p hproduct, List.mem_range'_1] at hid
    omega

/-- The automaton that a builder yields has all identifiers that the builder took. -/
theorem Builder.Sound.ids_of_finish {first : Nat} {b : Builder} (h : b.Sound first) {n : Nfa}
    (hfinish : b.finish = .ok (.ok n)) :
    n.states.ids = List.range' first (b.supply.next - first) := by
  obtain ⟨f, hstack, _, hn⟩ := h.of_finish_ok hfinish
  have howned := h.owned
  rw [hstack, idsOf_cons, show idsOf [] = [] from rfl, List.append_nil] at howned
  rw [hn]
  refine howned.eq_of_pairwise ?_ f.states.ids_sorted List.pairwise_lt_range'
  intro x y _ _ hxy hyx
  exact absurd (Nat.lt_trans hxy hyx) (Nat.lt_irrefl x)

/-- What comes out of finishing a builder, if it is an automaton. -/
theorem Builder.Sound.ids_of_product {ε : Type} {first : Nat} {b : Builder} (h : b.Sound first)
    {outcome : Except ε Nfa} (hfinish : ∀ n, outcome = .ok n → b.finish = .ok (.ok n))
    {p : Product} (hp : outcome.toOption.map .nfa = some p) :
    p.ids = List.range' first (b.supply.next - first) := by
  cases outcome with
  | error e => cases hp
  | ok n =>
    cases hp
    exact h.ids_of_finish (hfinish n rfl)

theorem Compilation.Outcome.sound {R : Fragment → Expr → Prop} {text : String} {supply : Supply}
    {c : Compilation} (h : c.Outcome R text supply) : c.builder.Sound supply.next := by
  cases h with
  | made _ hb _ => exact hb.toSound
  | leftover _ _ hb => exact hb.toSound
  | refused _ _ _ hb => exact hb.toSound

namespace Supply

variable (supply : Supply)

theorem fresh_ids_eq : [supply.fresh.1] =
    List.range' supply.next (supply.fresh.2.next - supply.next) := by
  rw [fresh, Nat.add_sub_cancel_left]
  rfl

/-- The receipt of a compilation. -/
theorem carryOut_compile (text : String) :
    ∃ product after, supply.carryOut (.compile text) = .ok (product, after) ∧
      Receipt.Exact ⟨.compile text, supply, product, after⟩ := by
  obtain ⟨c, hcompile, houtcome⟩ := exists_compilation Fragment.inherited_true text supply
  have hsound := houtcome.sound
  refine ⟨c.result.toOption.map .nfa, c.supply, ?_, hsound.first_le, fun p hp => ?_, nofun⟩
  · rw [carryOut, hcompile, Checked.ok_bind]
    rfl
  · exact hsound.ids_of_product (fun n hn => finish_of_compile hcompile hn) hp

/-- The receipt of a builder. -/
theorem carryOut_build (calls : List Builder.Call) (finished : Bool) :
    ∃ product after, supply.carryOut (.build calls finished) = .ok (product, after) ∧
      Receipt.Exact ⟨.build calls finished, supply, product, after⟩ := by
  obtain ⟨b, hrun, hsound⟩ := Builder.performAll_sound supply calls
  cases finished with
  | false =>
    refine ⟨none, b.supply, ?_, hsound.first_le, nofun, nofun⟩
    rw [carryOut, hrun, Checked.ok_bind]
    rfl
  | true =>
    obtain ⟨outcome, hfinish⟩ := hsound.exists_finish
    refine ⟨outcome.toOption.map .nfa, b.supply, ?_, hsound.first_le, fun p hp => ?_, nofun⟩
    · rw [carryOut, hrun, Checked.ok_bind, if_pos rfl, hfinish, Checked.ok_bind]
      rfl
    · exact hsound.ids_of_product (fun n hn => hn ▸ hfinish) hp

/-- The receipt of a determinization. -/
theorem carryOut_determinize (n : Nfa) :
    ∃ product after, supply.carryOut (.determinize n) = .ok (product, after) ∧
      Receipt.Exact ⟨.determinize n, supply, product, after⟩ := by
  cases hempty : n.states.isEmpty with
  | true =>
    refine ⟨none, supply, ?_, Nat.le_refl _, nofun, fun m hjob => ?_⟩
    · rw [carryOut, Nfa.determinize, if_pos hempty]
      rfl
    · cases hjob
      exact (if_pos hempty).mpr ⟨rfl, rfl⟩
  | false =>
    refine ⟨some (.dfa (n.numbered supply.next)), supply.skip n.subsets.length, ?_,
      Nat.le_add_right _ _, fun p hp => ?_, fun m hjob => ?_⟩
    · rw [carryOut, n.determinize_eq supply hempty]
      rfl
    · cases hp
      refine (n.ids_numbered supply.next).trans ?_
      rw [skip, Nat.add_sub_cancel_left]
    · cases hjob
      rw [hempty]
      rfl

/-- **One job.** It finds no rule broken, and its receipt is exact. -/
theorem carryOut_exact (job : Job) :
    ∃ product after, supply.carryOut job = .ok (product, after) ∧
      Receipt.Exact ⟨job, supply, product, after⟩ := by
  cases job with
  | identifier =>
    refine ⟨_, _, rfl, Nat.le_succ _, fun p hp => ?_, nofun⟩
    cases hp
    exact supply.fresh_ids_eq
  | state =>
    refine ⟨_, _, rfl, Nat.le_succ _, fun p hp => ?_, nofun⟩
    cases hp
    exact supply.fresh_ids_eq
  | compile text => exact supply.carryOut_compile text
  | build calls finished => exact supply.carryOut_build calls finished
  | determinize n => exact supply.carryOut_determinize n

/-- **Any jobs, one after the other.** Every receipt tells what the job does at its place and is
exact, and no two of them have an identifier in common, however many jobs failed in between. -/
theorem carryOutAll_disjoint (jobs : List Job) :
    ∃ receipts last, supply.carryOutAll jobs = .ok (receipts, last) ∧
      receipts.map Receipt.job = jobs ∧ supply.next ≤ last.next ∧
      (∀ r ∈ receipts, r.before.carryOut r.job = .ok (r.product, r.after) ∧ r.Exact ∧
        supply.next ≤ r.before.next) ∧
      receipts.Pairwise fun r r' => r.ids.Disjoint r'.ids := by
  induction jobs generalizing supply with
  | nil => exact ⟨[], supply, rfl, rfl, Nat.le_refl _, by simp, .nil⟩
  | cons job jobs ih =>
    obtain ⟨product, after, hok, hexact⟩ := supply.carryOut_exact job
    obtain ⟨receipts, last, hrest, hjobs, hle, hreceipts, hdisjoint⟩ := ih after
    have hbefore : supply.next ≤ after.next := hexact.before_le
    refine ⟨⟨job, supply, product, after⟩ :: receipts, last, ?_, ?_, hbefore.trans hle, ?_,
      List.pairwise_cons.mpr ⟨fun r hr id hid hid' => ?_, hdisjoint⟩⟩
    · rw [carryOutAll, hok, Checked.ok_bind]
      simp only [hrest, Checked.ok_bind, Checked.pure_eq]
    · rw [List.map_cons, hjobs]
    · refine List.forall_mem_cons.mpr ⟨⟨hok, hexact, Nat.le_refl _⟩, fun r hr => ?_⟩
      obtain ⟨hok', hexact', hle'⟩ := hreceipts r hr
      exact ⟨hok', hexact', hbefore.trans hle'⟩
    · -- a later receipt starts where this one ends, or behind
      obtain ⟨_, hexact', hle'⟩ := hreceipts r hr
      have hlt := (hexact.mem_ids hid).2
      have hge := (hexact'.mem_ids hid').1
      exact absurd (hle'.trans hge) (Nat.not_le_of_lt hlt)

end Supply

end PostfixRegex
