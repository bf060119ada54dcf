import PostfixRegex.Proofs.Accounting
import PostfixRegex.Proofs.Builder.Absorption

/-!
# Concatenation is associative

Two ways to write a concatenation of three parts, `p q & r &` and `p q r & &`, are compiled to the
same automaton, and not just to automata for the same language. A concatenation takes no identifier,
so every part gets the same ones in both texts. It changes one state, the last one of its left
operand, and the state that the one text leaves first is the state that the other text leaves
second; since the parts share no identifier, neither of the two operators touches what the other one
changed. What is left of the order is the order in which tables are merged, and a table does not
remember it.

The two texts are equally long and do the same to every builder. That is all that matters to the
text around them: it may be any text, and if it is refused somewhere, it is refused at the same
place and for the same reason.

## Scope

The statement is about equal automata and holds for concatenation only. A union takes two
identifiers of its own, so the two ways to write a union of three parts have different ones.

## Main definitions

* `Interchangeable` — texts that do the same to every builder

## Main results

* `Fragment.concatenate_assoc` — three fragments
* `exists_pushed` — a well-formed text puts one fragment on the stack, whatever lies below
* `Interchangeable.compile_eq` — inside of any text
* `compile_concatenate_assoc` — the two ways to write a concatenation of three parts
-/

namespace PostfixRegex

open scoped List

/-! ### Three fragments -/

namespace Fragment

variable {f g left mid right : Fragment} {start last : Nat} {xs ys : List State}

/-- A fragment is determined by its start, its last state and its states. -/
theorem Consists.eq (hf : f.Consists start last xs) (hg : g.Consists start last ys)
    (h : xs.Perm ys) : f = g := by
  have hstart : f.start = g.start := hf.start_eq.trans hg.start_eq.symm
  have hlast : f.last = g.last := hf.last_eq.trans hg.last_eq.symm
  have hstates : f.states = g.states := Table.eq_of_perm ((hf.perm.trans h).trans hg.perm.symm)
  cases f
  cases hstart
  cases hlast
  cases hstates
  rfl

/-- The states of three fragments one after the other. Which two of them come together first does
not matter: leaving the fragment in the middle changes no state of the left one. -/
theorem perm_concatenateStates (hf : f.Consists left.start mid.last (concatenateStates left mid))
    (hg : g.Consists mid.start right.last (concatenateStates mid right))
    (hlast : mid.last ∉ left.states.ids) :
    (concatenateStates f right).Perm (concatenateStates left g) := by
  have hleft : (left.states.toList.map (leaving left.last [mid.start])).map
      (leaving mid.last [right.start]) =
        left.states.toList.map (leaving left.last [mid.start]) := by
    refine map_leaving_of_notMem ?_ _
    rwa [map_id_leaving]
  calc concatenateStates f right
    _ = f.states.toList.map (leaving mid.last [right.start]) ++ right.states.toList := by
      rw [concatenateStates, hf.last_eq]
    _ ~ (concatenateStates left mid).map (leaving mid.last [right.start]) ++
        right.states.toList := (hf.perm.map _).append_right _
    _ = left.states.toList.map (leaving left.last [mid.start]) ++ concatenateStates mid right := by
      rw [concatenateStates, List.map_append, hleft, List.append_assoc, concatenateStates]
    _ ~ left.states.toList.map (leaving left.last [mid.start]) ++ g.states.toList :=
      hg.perm.symm.append_left _
    _ = concatenateStates left g := by rw [concatenateStates, hg.start_eq]

/-- **Three fragments.** If they share no identifier, both ways to concatenate them succeed and
yield the same fragment. -/
theorem concatenate_assoc (hl : left.Shape) (hm : mid.Shape) (hr : right.Shape)
    (hlm : ∀ id ∈ left.states.ids, id ∉ mid.states.ids)
    (hlr : ∀ id ∈ left.states.ids, id ∉ right.states.ids)
    (hmr : ∀ id ∈ mid.states.ids, id ∉ right.states.ids) :
    ∃ f g whole, left.concatenate mid = .ok f ∧ mid.concatenate right = .ok g ∧
      f.concatenate right = .ok whole ∧ left.concatenate g = .ok whole := by
  obtain ⟨f, hokf, hf⟩ := concatenate_ok hl hm hlm
  obtain ⟨g, hokg, hg⟩ := concatenate_ok hm hr hmr
  have hfr : ∀ id ∈ f.states.ids, id ∉ right.states.ids := by
    intro id hid
    rw [hf.mem_ids, map_id_concatenateStates, List.mem_append] at hid
    exact hid.elim (hlr id) (hmr id)
  have hlg : ∀ id ∈ left.states.ids, id ∉ g.states.ids := by
    intro id hid
    rw [hg.mem_ids, map_id_concatenateStates, List.mem_append, not_or]
    exact ⟨hlm id hid, hlr id hid⟩
  obtain ⟨first, hok, hfirst⟩ :=
    concatenate_ok (hf.shape (shapeOf_concatenateStates hl hm hlm)) hr hfr
  obtain ⟨second, hok', hsecond⟩ :=
    concatenate_ok hl (hg.shape (shapeOf_concatenateStates hm hr hmr)) hlg
  rw [hf.start_eq] at hfirst
  rw [hg.last_eq] at hsecond
  have hlast : mid.last ∉ left.states.ids := fun hid => hlm _ hid hm.last_mem
  obtain rfl := hfirst.eq hsecond (perm_concatenateStates hf hg hlast)
  exact ⟨f, g, first, hokf, hokg, hok, hok'⟩

end Fragment

/-! ### A part of a run -/

/-- **A well-formed text puts one fragment on the stack.** Which one it is and what is taken from
the supply depends on where the supply stands, and neither on what lies below nor on the
position. -/
theorem exists_pushed {text : String} (h : ∃ e : Expr, e.Plain ∧ e.text = text) (supply : Supply) :
    ∃ f supply', ∀ b : Builder, b.supply = supply → ∀ position,
      b.feed position (tokenize text) = .ok (⟨supply', f :: b.stack,
        (literalsOf (tokenize text)).foldl Alphabet.insert b.alphabet⟩, .ok ()) := by
  obtain ⟨c, _, f, _, _, _, _, htop⟩ := exists_compilation_on_top h supply
  refine ⟨f, c.supply, fun b hb position => ?_⟩
  obtain ⟨⟨_, _, _⟩, hfeed, hsupply, hstack⟩ := htop hb position
  have halphabet := Builder.alphabet_feed hfeed
  cases hsupply
  cases hstack
  cases halphabet
  exact hfeed

/-! ### Texts that may be exchanged -/

/-- The texts are equally long and do the same to every builder that a run can reach. -/
structure Interchangeable (s t : String) : Prop where
  length_eq : (tokenize s).length = (tokenize t).length
  feed_eq : ∀ {b : Builder} {first : Nat}, b.Sound first → ∀ position,
    b.feed position (tokenize s) = b.feed position (tokenize t)

/-- **Inside of any text** one may stand for the other. -/
theorem Interchangeable.compile_eq {s t : String} (h : Interchangeable s t) (u v : String)
    (supply : Supply) : compile (u ++ s ++ v) supply = compile (u ++ t ++ v) supply := by
  have hfeed : Builder.feed { supply } 0 (tokenize (u ++ s ++ v)) =
      Builder.feed { supply } 0 (tokenize (u ++ t ++ v)) := by
    simp only [tokenize_append, List.append_assoc, Builder.feed_append]
    cases hu : Builder.feed { supply } 0 (tokenize u) with
    | error violation => rfl
    | ok reached =>
      obtain ⟨b, outcome⟩ := reached
      cases outcome with
      | error e => rfl
      | ok _ =>
        have hb := (Builder.sound_start supply).of_feed hu
        simp only [Checked.ok_bind, Builder.resume, Builder.feed_append, h.feed_eq hb, h.length_eq]
  rw [compile, compile, hfeed]

section Concatenation

variable {p q r : String} {b : Builder} {first : Nat} {rest : List Fragment}
  {f left mid right : Fragment}

/-- Reading the operator, when its operands can be concatenated. -/
theorem Builder.feed_concatenate (h : left.concatenate right = .ok f) (supply : Supply)
    (alphabet : Alphabet) (position : Nat) :
    Builder.feed ⟨supply, right :: left :: rest, alphabet⟩ position (tokenize "&") =
      .ok (⟨supply, f :: rest, alphabet⟩, .ok ()) := by
  have hconcatenate : Builder.concatenate ⟨supply, right :: left :: rest, alphabet⟩ =
      .ok (.ok ⟨supply, f :: rest, alphabet⟩) := Checked.bind_eq_ok.mpr ⟨f, h, rfl⟩
  rw [← apply_concatenate] at hconcatenate
  exact feed_operator position [] hconcatenate

/-- Three fragments on top of the stack. -/
theorem Builder.Sound.exists_concatenate_assoc (h : b.Sound first)
    (hstack : b.stack = right :: mid :: left :: rest) :
    ∃ f g whole, left.concatenate mid = .ok f ∧ mid.concatenate right = .ok g ∧
      f.concatenate right = .ok whole ∧ left.concatenate g = .ok whole := by
  have hdisjoint := h.pairwise_disjoint
  have hshape := h.shape
  rw [hstack] at hdisjoint hshape
  simp only [List.pairwise_cons, List.forall_mem_cons] at hdisjoint hshape
  obtain ⟨⟨hrm, hrl, _⟩, ⟨hml, _⟩, _⟩ := hdisjoint
  obtain ⟨hr, hm, hl, _⟩ := hshape
  exact Fragment.concatenate_assoc hl hm hr hml.symm hrl.symm hrm.symm

/-- **The two ways to write a concatenation of three parts** do the same to every builder. -/
theorem interchangeable_concatenate (hp : ∃ e : Expr, e.Plain ∧ e.text = p)
    (hq : ∃ e : Expr, e.Plain ∧ e.text = q) (hr : ∃ e : Expr, e.Plain ∧ e.text = r) :
    Interchangeable (p ++ q ++ "&" ++ r ++ "&") (p ++ q ++ r ++ "&" ++ "&") where
  length_eq := by
    simp only [tokenize_append, List.length_append]
    omega
  feed_eq {b first} h position := by
    simp only [tokenize_append]
    -- the operators take no identifier, so each part finds the supply where it is in the other text
    obtain ⟨left, s₁, hleft⟩ := exists_pushed hp b.supply
    obtain ⟨mid, s₂, hmid⟩ := exists_pushed hq s₁
    obtain ⟨right, s₃, hright⟩ := exists_pushed hr s₂
    have htwo := Builder.feed_append_iff.mpr ⟨_, hleft b rfl position, hmid _ rfl _⟩
    have hthree := Builder.feed_append_iff.mpr ⟨_, htwo, hright _ rfl _⟩
    obtain ⟨f, g, whole, hf, hg, hfirst, hsecond⟩ :=
      (h.of_feed hthree).exists_concatenate_assoc rfl
    -- one operator before the third part and one behind it
    have hpq := Builder.feed_append_iff.mpr ⟨_, htwo, Builder.feed_concatenate hf _ _ _⟩
    have hpqr := Builder.feed_append_iff.mpr ⟨_, hpq, hright _ rfl _⟩
    have hone := Builder.feed_append_iff.mpr ⟨_, hpqr, Builder.feed_concatenate hfirst _ _ _⟩
    -- both behind it
    have hqr := Builder.feed_append_iff.mpr ⟨_, hthree, Builder.feed_concatenate hg _ _ _⟩
    have hother := Builder.feed_append_iff.mpr ⟨_, hqr, Builder.feed_concatenate hsecond _ _ _⟩
    rw [hone, hother]

/-- **Concatenation is associative on the nose.** Let a concatenation of three well-formed parts be
written in the one way or in the other, inside of any text. Compiling the two texts with the same
supply gives the same compilation: the same automaton, with the same start, identifiers, accepting
flags, transitions in the same order and alphabet, or the same error; and the supply stands at the
same place afterwards. -/
theorem compile_concatenate_assoc (hp : ∃ e : Expr, e.Plain ∧ e.text = p)
    (hq : ∃ e : Expr, e.Plain ∧ e.text = q) (hr : ∃ e : Expr, e.Plain ∧ e.text = r) (u v : String)
    (supply : Supply) :
    ∃ c, compile (u ++ (p ++ q ++ "&" ++ r ++ "&") ++ v) supply = .ok c ∧
      compile (u ++ (p ++ q ++ r ++ "&" ++ "&") ++ v) supply = .ok c := by
  obtain ⟨c, hcompile, _⟩ := exists_compilation Fragment.inherited_true
    (u ++ (p ++ q ++ "&" ++ r ++ "&") ++ v) supply
  refine ⟨c, hcompile, ?_⟩
  rw [← hcompile]
  exact ((interchangeable_concatenate hp hq hr).compile_eq u v supply).symm

/-- The parts `a*`, `bc|` and `d` behind `x`, in front of one more concatenation. -/
theorem compile_concatenate_assoc_nested :
    (∃ e : Expr, e.Plain ∧ e.text = "a*") ∧ (∃ e : Expr, e.Plain ∧ e.text = "bc|") ∧
      (∃ e : Expr, e.Plain ∧ e.text = "d") ∧
      ∃ c n, compile ("x" ++ ("a*" ++ "bc|" ++ "&" ++ "d" ++ "&") ++ "&") ⟨5⟩ = .ok c ∧
        compile ("x" ++ ("a*" ++ "bc|" ++ "d" ++ "&" ++ "&") ++ "&") ⟨5⟩ = .ok c ∧
        c.result = .ok n ∧ c.supply = ⟨19⟩ ∧ n.start = 5 ∧
        n.states.toList[5]? = some ⟨10, false, [⟨.epsilon, 15⟩]⟩ := by
  have hp : ∃ e : Expr, e.Plain ∧ e.text = "a*" :=
    ⟨.star (.literal 'a'), by simp [Expr.Plain, Expr.literals], by decide⟩
  have hq : ∃ e : Expr, e.Plain ∧ e.text = "bc|" :=
    ⟨.union (.literal 'b') (.literal 'c'), by simp [Expr.Plain, Expr.literals], by decide⟩
  have hr : ∃ e : Expr, e.Plain ∧ e.text = "d" :=
    ⟨.literal 'd', by simp [Expr.Plain, Expr.literals], by decide⟩
  obtain ⟨c, hfirst, hsecond⟩ := compile_concatenate_assoc hp hq hr "x" "&" ⟨5⟩
  have hwhole : (compile ("x" ++ ("a*" ++ "bc|" ++ "&" ++ "d" ++ "&") ++ "&") ⟨5⟩).toOption.map
      (fun c => (c.supply, c.result.toOption.map fun n => (n.start, n.states.toList[5]?))) =
        some (⟨19⟩, some (5, some ⟨10, false, [⟨.epsilon, 15⟩]⟩)) := by cbv
  rw [hfirst, Except.toOption, Option.map_some, Option.some_inj, Prod.mk.injEq] at hwhole
  obtain ⟨hsupply, hresult⟩ := hwhole
  obtain ⟨n, hn, hstates⟩ := exists_eq_ok_of_map hresult
  obtain ⟨hstart, hstate⟩ := Prod.mk.inj hstates
  exact ⟨hp, hq, hr, c, n, hfirst, hsecond, hn, hsupply, hstart, hstate⟩

end Concatenation

end PostfixRegex
