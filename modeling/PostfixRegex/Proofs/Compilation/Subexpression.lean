import Mathlib.Data.List.Sort
import PostfixRegex.Proofs.Builder.Absorption
import PostfixRegex.Proofs.Supply

/-!
# Parts of an expression

A well-formed part of an expression is compiled as if it stood alone. The states that are made while
it is read are those of its own automaton, made with identifiers from where the supply stands, and
nothing that is read afterwards changes them, with one exception: an operator that encloses the part
leaves its last state to other states. That happens at most once.

The first half is that a run does not depend on what lies below on the stack. For the second half,
the part is followed through the rest of the text. It is on the stack as a fragment of its own, then
inside of a larger fragment whose last state it has, and from the moment when that state is left it
is inside of a fragment whose last state is another one. In the last phase nothing can happen to it,
because operators leave last states only.

## Scope

Nothing is assumed about what is read before the part and after it, except that the whole text
compiles; neither of the two has to be well formed. The part may be the whole text, and then its
last state is not left at all.

## Main definitions

* `Table.within`, `Builder.within` — the states with certain identifiers
* `Builder.Keeps` — something holds all the time while tokens are read
* `Builder.LeftAtMostOnce` — what happens to the states of a part

## Main results

* `Builder.Sound.within_eq` — the states of a part, seen from outside
* `Builder.Sound.keeps` — after its last state was left a part is not changed
* `Builder.Sound.leftAtMostOnce` — and before that nothing else is
* `exists_compilation_of_feed` — a part on top of the stack
* `compile_subexpression` — parts of texts
-/

namespace PostfixRegex

/-! ### The states with certain identifiers -/

/-- The states with identifiers from `lo` up to but not including `hi`. -/
def Table.within (t : Table) (lo hi : Nat) : List State :=
  t.toList.filter fun s => lo ≤ s.id ∧ s.id < hi

theorem Table.mem_within {t : Table} {lo hi : Nat} {s : State} :
    s ∈ t.within lo hi ↔ s ∈ t.toList ∧ lo ≤ s.id ∧ s.id < hi := by
  rw [within, List.mem_filter, decide_eq_true_iff]

section Within

variable {states : List State} {lo hi : Nat}

/-- States that have all of the identifiers. -/
theorem mem_map_id_iff (hids : states.map State.id = List.range' lo (hi - lo)) {id : Nat} :
    id ∈ states.map State.id ↔ lo ≤ id ∧ id < hi := by
  rw [hids, List.mem_range'_1]
  omega

/-- If a table has certain states and these have all of the identifiers, it has no other states with
these identifiers. -/
theorem Table.within_eq {t : Table} (hids : states.map State.id = List.range' lo (hi - lo))
    (hsub : states ⊆ t.toList) : t.within lo hi = states := by
  have hsorted : states.Pairwise (·.id < ·.id) := by
    rw [← List.pairwise_map, hids]
    exact List.pairwise_lt_range'
  have : Std.Irrefl fun a b : State => a.id < b.id := ⟨fun a => Nat.lt_irrefl a.id⟩
  have : Std.Antisymm fun a b : State => a.id < b.id :=
    ⟨fun a b hab hba => absurd (Nat.lt_trans hab hba) (Nat.lt_irrefl _)⟩
  refine (t.sorted.filter _).eq_of_mem_iff hsorted fun s => mem_within.trans ?_
  rw [← mem_map_id_iff hids]
  constructor
  · rintro ⟨hs, hid⟩
    obtain ⟨s', hs', heq⟩ := List.mem_map.mp hid
    rwa [← eq_of_id_eq (hsub hs') hs heq]
  · intro hs
    exact ⟨hsub hs, List.mem_map_of_mem hs⟩

namespace Builder

variable {b b' : Builder} {first position : Nat} {tokens : List Token} {g : Fragment}

/-- The states with identifiers from `lo` up to but not including `hi`, of all fragments. -/
def within (b : Builder) (lo hi : Nat) : List State :=
  b.stack.flatMap fun f => f.states.within lo hi

/-- **A part seen from outside.** If one fragment has the states, no other one has states with their
identifiers. -/
theorem Sound.within_eq (h : b.Sound first)
    (hids : states.map State.id = List.range' lo (hi - lo)) (hg : g ∈ b.stack)
    (hsub : states ⊆ g.states.toList) : b.within lo hi = states := by
  obtain ⟨above, below, hstack⟩ := List.append_of_mem hg
  have hdisjoint := h.pairwise_disjoint
  rw [hstack, List.pairwise_append, List.pairwise_cons] at hdisjoint
  have hnone : ∀ f : Fragment, f.states.ids.Disjoint g.states.ids → f.states.within lo hi = [] := by
    intro f hf
    refine List.eq_nil_iff_forall_not_mem.mpr fun s hs => ?_
    obtain ⟨hs, hid⟩ := Table.mem_within.mp hs
    have hmem := List.map_subset State.id hsub ((mem_map_id_iff hids).mpr hid)
    exact hf (List.mem_map_of_mem hs) hmem
  have habove : ∀ f ∈ above, f.states.within lo hi = [] := fun f hf =>
    hnone f (hdisjoint.2.2 f hf g List.mem_cons_self)
  have hbelow : ∀ f ∈ below, f.states.within lo hi = [] := fun f hf =>
    hnone f (hdisjoint.2.1.1 f hf).symm
  rw [within, hstack, List.flatMap_append, List.flatMap_cons, Table.within_eq hids hsub,
    List.flatMap_eq_nil_iff.mpr habove, List.flatMap_eq_nil_iff.mpr hbelow, List.nil_append,
    List.append_nil]

/-! ### While tokens are read -/

/-- The tokens are read, none of them is refused, and `P` holds all the time: before the first
token, between any two and after the last one. -/
inductive Keeps (P : Builder → Prop) : Builder → List Token → Builder → Prop where
  | nil {b : Builder} : P b → Keeps P b [] b
  | cons {b b₁ b' : Builder} {t : Token} {tokens : List Token} :
      P b → b.Step t b₁ → Keeps P b₁ tokens b' → Keeps P b (t :: tokens) b'

theorem Keeps.holds {P : Builder → Prop} (h : b.Keeps P tokens b') : P b' := by
  induction h with
  | nil hP => exact hP
  | cons _ _ _ ih => exact ih

/-- **What happens to the states of a part** while the tokens are read. The states with identifiers
from `lo` up to `hi` are `states` at first, and in the end they are those of the last argument. -/
inductive LeftAtMostOnce (lo hi last : Nat) (states : List State) (b : Builder)
    (tokens : List Token) (b' : Builder) : List State → Prop where
  /-- They are the same all the time. -/
  | never : b.Keeps (fun b => b.within lo hi = states) tokens b' →
      LeftAtMostOnce lo hi last states b tokens b' states
  /-- One operator leaves the state `last` to one or two others. Before that they are the same all
  the time, and after that too. -/
  | once {before after : List Token} {op : Operator} {b₁ b₂ : Builder} {targets : List Nat} :
      tokens = before ++ .operator op :: after →
      b.Keeps (fun b => b.within lo hi = states) before b₁ →
      b₁.apply op = .ok (.ok b₂) → Fragment.Exits targets →
      b₂.Keeps (fun b => b.within lo hi = states.map (Fragment.leaving last targets)) after b' →
      LeftAtMostOnce lo hi last states b tokens b' (states.map (Fragment.leaving last targets))

theorem LeftAtMostOnce.cons {b₁ : Builder} {t : Token} {last : Nat} {states' : List State}
    (hnow : b.within lo hi = states) (hstep : b.Step t b₁)
    (h : b₁.LeftAtMostOnce lo hi last states tokens b' states') :
    b.LeftAtMostOnce lo hi last states (t :: tokens) b' states' := by
  cases h with
  | never hkeeps => exact .never (.cons hnow hstep hkeeps)
  | @once before _ _ _ _ _ htokens hbefore happly hexits hafter =>
    exact .once (congrArg (t :: ·) htokens) (.cons hnow hstep hbefore) happly hexits hafter

theorem LeftAtMostOnce.within_eq {last : Nat} {states' : List State}
    (h : b.LeftAtMostOnce lo hi last states tokens b' states') : b'.within lo hi = states' := by
  cases h with
  | never hkeeps => exact hkeeps.holds
  | once _ _ _ _ hafter => exact hafter.holds

/-- **The last phase.** Inside of a fragment whose last state is another one, states are not changed
any more. -/
theorem Sound.keeps (h : b.Sound first) (hids : states.map State.id = List.range' lo (hi - lo))
    (hg : g ∈ b.stack) (hsub : states ⊆ g.states.toList)
    (hlast : g.last ∉ states.map State.id)
    (hfeed : b.feed position tokens = .ok (b', .ok ())) :
    b.Keeps (fun b => b.within lo hi = states) tokens b' := by
  -- on the tokens: the states stay in one fragment, and its last state stays another one
  induction tokens generalizing b g position with
  | nil =>
    cases hfeed
    exact .nil (h.within_eq hids hg hsub)
  | cons t tokens ih =>
    obtain ⟨b₁, hstep, htail⟩ := feed_cons_iff.mp hfeed
    obtain ⟨h₁, hstack⟩ := h.of_step hstep
    refine .cons (h.within_eq hids hg hsub) hstep ?_
    rcases hstack g hg with hg₁ | ⟨_, _, _, f, hf, habsorbed⟩
    · exact ih h₁ hg₁ hsub hlast htail
    · cases habsorbed with
      | kept hend hmem =>
        exact ih h₁ hf (List.Subset.trans hsub hmem) (hend ▸ hlast) htail
      | left _ hend hmem =>
        have hsub₁ := List.Subset.trans (List.map_subset _ hsub) hmem
        rw [Fragment.map_leaving_of_notMem hlast] at hsub₁
        exact ih h₁ hf hsub₁ (fun hid => hend (List.map_subset State.id hsub hid)) htail

/-- **All phases.** As long as a part has the last state of its fragment, it is not changed, and
when that state is left, the last phase begins. -/
theorem Sound.leftAtMostOnce (h : b.Sound first)
    (hids : states.map State.id = List.range' lo (hi - lo)) (hg : g ∈ b.stack)
    (hsub : states ⊆ g.states.toList)
    (hfeed : b.feed position tokens = .ok (b', .ok ())) :
    ∃ states', b.LeftAtMostOnce lo hi g.last states tokens b' states' := by
  -- on the tokens: the fragment that has the states keeps its last state until it is left
  induction tokens generalizing b g position with
  | nil =>
    cases hfeed
    exact ⟨states, .never (.nil (h.within_eq hids hg hsub))⟩
  | cons t tokens ih =>
    obtain ⟨b₁, hstep, htail⟩ := feed_cons_iff.mp hfeed
    obtain ⟨h₁, hstack⟩ := h.of_step hstep
    have hnow := h.within_eq hids hg hsub
    rcases hstack g hg with hg₁ | ⟨op, rfl, happly, f, hf, habsorbed⟩
    · obtain ⟨states', hrest⟩ := ih h₁ hg₁ hsub htail
      exact ⟨states', hrest.cons hnow hstep⟩
    · cases habsorbed with
      | kept hend hmem =>
        obtain ⟨states', hrest⟩ := ih h₁ hf (List.Subset.trans hsub hmem) htail
        rw [hend] at hrest
        exact ⟨states', hrest.cons hnow hstep⟩
      | @left targets hexits hend hmem =>
        have hids' : (states.map (Fragment.leaving g.last targets)).map State.id =
            List.range' lo (hi - lo) := (Fragment.map_id_leaving ..).trans hids
        have htokens : Token.operator op :: tokens = [] ++ .operator op :: tokens := rfl
        refine ⟨_, .once htokens (.nil hnow) happly hexits ?_⟩
        have hsub₁ := List.Subset.trans (List.map_subset _ hsub) hmem
        refine h₁.keeps hids' hf hsub₁ ?_ htail
        rw [Fragment.map_id_leaving]
        exact fun hid => hend (List.map_subset State.id hsub hid)

end Builder

end Within

/-! ### Parts of texts -/

/-- The automaton of a builder has the states of its only fragment. -/
theorem Builder.Sound.within_of_finish {b : Builder} {first : Nat} (h : b.Sound first) {n : Nfa}
    (hfinish : b.finish = .ok (.ok n)) (lo hi : Nat) : b.within lo hi = n.states.within lo hi := by
  obtain ⟨f, hstack, _, hn⟩ := h.of_finish_ok hfinish
  rw [Builder.within, hstack, List.flatMap_singleton, hn]

/-- **A part on top of the stack.** The fragment that a well-formed text leaves there has all
identifiers from where the supply stood before to where it stands afterwards. -/
theorem exists_compilation_of_feed {b₀ b₁ : Builder} {position : Nat} {text : String}
    (h : ∃ e : Expr, e.Plain ∧ e.text = text)
    (hfeed : b₀.feed position (tokenize text) = .ok (b₁, .ok ())) :
    ∃ c n f, compile text b₀.supply = .ok c ∧ c.result = .ok n ∧ c.supply = b₁.supply ∧
      n.states.ids = List.range' b₀.supply.next (b₁.supply.next - b₀.supply.next) ∧
      n.toAutomaton = ⟨f.start, f.states, n.alphabet⟩ ∧ f.Shape ∧
      b₁.stack = f :: b₀.stack := by
  obtain ⟨c, n, f, hcompile, hresult, hshape, hautomaton, htop⟩ :=
    exists_compilation_on_top h b₀.supply
  obtain ⟨_, hfeed', hsupply, hstack⟩ := htop rfl position
  obtain rfl := (Prod.mk.inj (Except.ok.inj (hfeed.symm.trans hfeed'))).1
  have hsound := (Builder.sound_start b₀.supply).of_feed (feed_of_compile hcompile hresult)
  refine ⟨c, n, f, hcompile, hresult, hsupply.symm, ?_, hautomaton, hshape, hstack⟩
  rw [hsupply]
  exact hsound.ids_of_finish (finish_of_compile hcompile hresult)

/-- **A part of a text is compiled as if it stood alone.** Let a text compile and have a well-formed
part. There are the builders before and after the part is read, and the part alone compiles with the
supply that the first of them has and uses it up to where the supply of the second one stands. Its
automaton has all identifiers in between, and one accepting state, which has no transitions. While
the rest of the text is read, the states with these identifiers are those of this automaton, but one
operator may leave the accepting one to other states; and so they are in the automaton of the whole
text. -/
theorem compile_subexpression {u p v : String} {supply : Supply} {c : Compilation} {n : Nfa}
    (hp : ∃ e : Expr, e.Plain ∧ e.text = p)
    (hcompile : compile (u ++ p ++ v) supply = .ok c) (hresult : c.result = .ok n) :
    ∃ b₀ b₁ alone m last,
      Builder.feed { supply } 0 (tokenize u) = .ok (b₀, .ok ()) ∧
      b₀.feed (tokenize u).length (tokenize p) = .ok (b₁, .ok ()) ∧
      compile p b₀.supply = .ok alone ∧ alone.result = .ok m ∧ alone.supply = b₁.supply ∧
      m.states.ids = List.range' b₀.supply.next (b₁.supply.next - b₀.supply.next) ∧
      m.accepting = [last] ∧ last.transitions = [] ∧
      b₁.LeftAtMostOnce b₀.supply.next b₁.supply.next last.id m.states.toList (tokenize v)
        c.builder (n.states.within b₀.supply.next b₁.supply.next) := by
  -- the run over the whole text, cut where the part begins and where it ends
  have hwhole := feed_of_compile hcompile hresult
  rw [tokenize_append, tokenize_append, Builder.feed_append_iff] at hwhole
  obtain ⟨b₁, hfirst, hv⟩ := hwhole
  obtain ⟨b₀, hu, hpart⟩ := Builder.feed_append_iff.mp hfirst
  rw [Nat.zero_add] at hpart
  have hsound := ((Builder.sound_start supply).of_feed hu).of_feed hpart
  obtain ⟨alone, m, f, halone, hm, hsupply, hids, hautomaton, hshape, hstack⟩ :=
    exists_compilation_of_feed hp hpart
  obtain ⟨last, haccepting, hlast, htransitions⟩ := hshape.exists_accepting hautomaton
  -- from where the fragment of the part is on the stack
  have hstates : m.states.toList ⊆ f.states.toList := by
    rw [hautomaton]
    exact List.Subset.refl _
  obtain ⟨states, hleft⟩ :=
    hsound.leftAtMostOnce hids (hstack ▸ List.mem_cons_self) hstates hv
  have hend : n.states.within b₀.supply.next b₁.supply.next = states := by
    rw [← hleft.within_eq]
    exact ((hsound.of_feed hv).within_of_finish (finish_of_compile hcompile hresult) _ _).symm
  rw [← hend, ← hlast] at hleft
  exact ⟨b₀, b₁, alone, m, last, hu, hpart, halone, hm, hsupply, hids, haccepting, htransitions,
    hleft⟩

/-- The part `b*` of `ab*&*` takes the identifiers from `9` to `12`. The concatenation does not
change its states, since it is the right operand, and the last operator leaves the state `12`. -/
theorem compile_subexpression_star :
    (∃ e : Expr, e.Plain ∧ e.text = "b*") ∧
      ∃ (c alone : Compilation) (n m : Nfa) (b₀ b₁ : Builder) (last : State),
        compile ("a" ++ "b*" ++ "&*") ⟨7⟩ = .ok c ∧ c.result = .ok n ∧
        compile "b*" b₀.supply = .ok alone ∧ alone.result = .ok m ∧
        b₁.LeftAtMostOnce b₀.supply.next b₁.supply.next last.id m.states.toList (tokenize "&*")
          c.builder (n.states.within b₀.supply.next b₁.supply.next) ∧
        b₀.supply.next = 9 ∧ m.states.toList[3]? = some ⟨12, true, []⟩ ∧
        n.states.toList[5]? = some ⟨12, false, [⟨.epsilon, 14⟩, ⟨.epsilon, 7⟩]⟩ := by
  have hwell : ∃ e : Expr, e.Plain ∧ e.text = "b*" :=
    ⟨.star (.literal 'b'), by simp [Expr.Plain, Expr.literals], by decide⟩
  have hwhole : (compile ("a" ++ "b*" ++ "&*") ⟨7⟩).toOption.map (fun c =>
      c.result.toOption.map fun n => n.states.toList[5]?) =
        some (some (some ⟨12, false, [⟨.epsilon, 14⟩, ⟨.epsilon, 7⟩]⟩)) := by cbv
  obtain ⟨c, hcompile, hresult⟩ := exists_eq_ok_of_map hwhole
  obtain ⟨n, hn, hstate⟩ := exists_eq_ok_of_map hresult
  obtain ⟨b₀, b₁, alone, m, last, hu, _, halone, hm, _, _, _, _, hleft⟩ :=
    compile_subexpression hwell hcompile hn
  have hbefore : (Builder.feed { supply := ⟨7⟩ } 0 (tokenize "a")).toOption.map
      (fun x => x.1.supply) = some ⟨9⟩ := by cbv
  rw [hu, Except.toOption, Option.map_some] at hbefore
  have hsupply : b₀.supply = ⟨9⟩ := Option.some.inj hbefore
  have hpart : (compile "b*" ⟨9⟩).toOption.map (fun c =>
      c.result.toOption.map fun n => n.states.toList[3]?) =
        some (some (some ⟨12, true, []⟩)) := by cbv
  rw [← hsupply, halone, Except.toOption, Option.map_some, hm] at hpart
  exact ⟨hwell, c, alone, n, m, b₀, b₁, last, hcompile, hn, halone, hm, hleft,
    congrArg Supply.next hsupply, Option.some.inj (Option.some.inj hpart), hstate⟩

end PostfixRegex
