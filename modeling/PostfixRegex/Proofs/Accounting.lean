import PostfixRegex.Proofs.Fragment.Labels
import PostfixRegex.Proofs.Search.Rounds
import PostfixRegex.Proofs.Supply

/-!
# The account of a compilation

What compiling a text uses up and what it yields can be counted beforehand, from the tokens and the
place where the supply stands. A literal, a star and a union take two identifiers each and a
concatenation takes none. The identifiers that were taken when compiling stops belong to the
fragments on the stack, so it is the fragments that are counted and nothing has to be said about the
way there. That works as well when an operator is refused: what was read up to then is on the stack.

The alphabet is the exception. It is kept beside the stack and knows more than the fragments do,
namely which literal came first, so it is followed token by token (`Builder.alphabet_feed`).

## Main definitions

* `Nfa.Accounts` — identifiers, transitions and alphabet are what the tokens ask for

## Main results

* `Builder.Carries.next_eq` — where the supply stands, from what was read
* `Alphabet.toList_ofList` — the alphabet of a list of characters
* `compile_accounting` — the account of every compilation, whether it succeeds or not
-/

namespace PostfixRegex

/-! ### Alphabets -/

namespace Alphabet

theorem toList_foldl_insert (a : Alphabet) (cs : List Char) :
    (cs.foldl insert a).toList = a.toList ++ (cs.filter (· ∉ a.toList)).eraseDups := by
  induction cs generalizing a with
  | nil => exact (List.append_nil _).symm
  | cons c cs ih =>
    rw [List.foldl_cons, ih, toList_insert]
    by_cases hc : c ∈ a.toList
    · rw [if_pos hc, List.filter_cons_of_neg (by simpa using hc)]
    · rw [if_neg hc, List.filter_cons_of_pos (by simpa using hc), List.eraseDups_cons,
        List.append_assoc, List.singleton_append, List.filter_filter]
      congr 3
      refine List.filter_congr fun x _ => ?_
      simp [not_or, and_comm, beq_eq_decide]

/-- The characters of a list in the order in which they first occur. -/
theorem toList_ofList (cs : List Char) : (ofList cs).toList = cs.eraseDups := by
  rw [ofList, toList_foldl_insert, show empty.toList = [] from rfl, List.nil_append,
    List.filter_eq_self.mpr fun c _ => by simp]

end Alphabet

namespace Builder

variable {b b' : Builder}

theorem alphabet_of_atom {c : Char} (h : b.atom c = .ok b') :
    b'.alphabet = b.alphabet.insert c := by
  obtain ⟨f, _, h⟩ := Checked.bind_eq_ok.mp h
  cases h
  rfl

/-- No operator changes the alphabet. -/
theorem alphabet_of_apply {op : Operator} (h : b.apply op = .ok (.ok b')) :
    b'.alphabet = b.alphabet := by
  have hheight : ¬ b.height < op.arity := by
    intro hlt
    rw [apply_of_lt hlt] at h
    cases h
  cases op with
  | star =>
    obtain ⟨inner, rest, hstack⟩ := List.exists_cons_of_length_pos (Nat.not_lt.mp hheight)
    rw [apply_star, star, hstack] at h
    obtain ⟨f, _, h⟩ := Checked.bind_eq_ok.mp h
    cases h
    rfl
  | union =>
    obtain ⟨right, left, rest, hstack⟩ := exists_stack_of_two_le (Nat.not_lt.mp hheight)
    rw [apply_union, union, hstack] at h
    obtain ⟨f, _, h⟩ := Checked.bind_eq_ok.mp h
    cases h
    rfl
  | concatenate =>
    obtain ⟨right, left, rest, hstack⟩ := exists_stack_of_two_le (Nat.not_lt.mp hheight)
    rw [apply_concatenate, concatenate, hstack] at h
    obtain ⟨f, _, h⟩ := Checked.bind_eq_ok.mp h
    cases h
    rfl

/-- The literals among the tokens are inserted in order. -/
theorem alphabet_feed {tokens : List Token} {position : Nat}
    (h : b.feed position tokens = .ok (b', .ok ())) :
    b'.alphabet = (literalsOf tokens).foldl Alphabet.insert b.alphabet := by
  induction tokens generalizing b position with
  | nil =>
    cases h
    rfl
  | cons t tokens ih =>
    cases t with
    | literal c =>
      obtain ⟨b₁, hatom, h⟩ := Checked.bind_eq_ok.mp h
      rw [ih h, alphabet_of_atom hatom]
      rfl
    | operator op =>
      obtain ⟨answer, happly, h⟩ := Checked.bind_eq_ok.mp h
      cases answer with
      | error m => cases h
      | ok b₁ =>
        rw [ih h, alphabet_of_apply happly]
        rfl

theorem alphabet_of_finish {n : Nfa} (h : b.finish = .ok (.ok n)) : n.alphabet = b.alphabet := by
  rw [finish] at h
  split at h
  · obtain ⟨m, htable, h⟩ := Checked.bind_eq_ok.mp h
    cases h
    rw [Nfa.ofTable] at htable
    split at htable
    · cases htable
      rfl
    · cases htable
  · cases h

/-! ### Identifiers -/

/-- The identifiers of counted fragments. -/
theorem length_idsOf {fragments : List Fragment} {trees : List Expr}
    (h : List.Forall₂ Fragment.Counted fragments trees) :
    (idsOf fragments).length = (tally (Expr.stackTokens trees)).states := by
  induction h with
  | nil => rfl
  | cons hf _ ih =>
    rw [idsOf_cons, List.length_append, ih, Expr.stackTokens_cons, tally_append, Tally.states_add,
      ← hf.size, Nat.add_comm, Table.ids, List.length_map]
    rfl

/-- Where the supply stands after some tokens were read. -/
theorem Carries.next_eq {first : Nat} {trees : List Expr} {tokens : List Token}
    (h : b.Carries Fragment.Counted first trees) (hread : Expr.read [] tokens = some trees) :
    b.supply.next = first + (tally tokens).states := by
  have howned := h.owned.length_eq
  have htokens : Expr.stackTokens trees = tokens := Expr.stackTokens_of_read hread
  rw [length_idsOf h.related, htokens, List.length_range'] at howned
  have hle := h.first_le
  omega

end Builder

/-! ### The account -/

/-- **The account of an automaton** that was made from tokens with a supply that stood at `first`.
It has two identifiers for each literal, star and union, and four transitions on epsilon for each
star and union and one for each concatenation. Each literal is one transition on its character. -/
structure Nfa.Accounts (n : Nfa) (first : Nat) (tokens : List Token) : Prop where
  ids_eq : n.states.ids = List.range' first
    (2 * ((tally tokens).literals + (tally tokens).stars + (tally tokens).unions))
  transitionCount_eq : n.transitionCount = (tally tokens).literals +
    (tally tokens).concatenations + 4 * (tally tokens).stars + 4 * (tally tokens).unions
  count_eq : ∀ c, (labelsOf n.states.toList).count (.char c) = (literalsOf tokens).count c
  /-- Unions and concatenations make one operand out of all literals. -/
  binary_eq : (tally tokens).unions + (tally tokens).concatenations + 1 = (tally tokens).literals
  /-- The alphabet has each literal once, in the order of first occurrence. -/
  alphabet_eq : n.alphabet.toList = (literalsOf tokens).eraseDups
  /-- So it has the characters that label transitions. -/
  mem_alphabet_iff : ∀ c, c ∈ n.alphabet.toList ↔
    ∃ s ∈ n.states.toList, ∃ t ∈ s.transitions, t.symbol = .char c

/-- There is a literal, and so a character. -/
theorem Nfa.Accounts.exists_mem_alphabet {n : Nfa} {first : Nat} {tokens : List Token}
    (h : n.Accounts first tokens) : ∃ c, c ∈ n.alphabet.toList := by
  have hpos : 0 < (tally tokens).literals := by
    have := h.binary_eq
    omega
  obtain ⟨c, hc⟩ := List.exists_mem_of_length_pos hpos
  refine ⟨c, ?_⟩
  rw [h.alphabet_eq]
  exact List.mem_eraseDups.mpr hc

section Compile

variable {text : String} {supply : Supply} {c : Compilation} {n : Nfa}

/-- The alphabet of an automaton that was compiled. -/
theorem alphabet_of_compile (h : compile text supply = .ok c) (hresult : c.result = .ok n) :
    n.alphabet = .ofList (literalsOf (tokenize text)) := by
  rcases compile_cases h with ⟨_, _, _, rfl⟩ | ⟨_, _, _, _, rfl⟩ | ⟨b, n', hfeed, hfinish, rfl⟩
  · cases hresult
  · cases hresult
  · obtain rfl : n' = n := Except.ok.inj hresult
    rw [Builder.alphabet_of_finish hfinish, Builder.alphabet_feed hfeed]
    rfl

/-- The account of an automaton that comes from a counted fragment. -/
theorem accounts_of_made {b : Builder} {e : Expr} (hread : Expr.read [] (tokenize text) = some [e])
    (hb : b.Carries Fragment.Counted supply.next [e]) (hn : n.ComesFrom Fragment.Counted e)
    (hcompile : compile text supply = .ok ⟨b, .ok n⟩) :
    n.Accounts supply.next (tokenize text) := by
  have htokens : tokenize text = e.tokens := Expr.read_eq_singleton_iff.mp hread
  obtain ⟨_, f, hf, _, hfragment⟩ := hn
  have hlabels : (labelsOf n.states.toList).Perm
      (labelsFor (tally (tokenize text)).epsilons (literalsOf (tokenize text))) := by
    rw [hfragment, htokens, Expr.literalsOf_tokens]
    exact hf.labels
  have hids := hb.ids_of_finish (finish_of_compile hcompile rfl)
  have hcount : ∀ x, (labelsOf n.states.toList).count (.char x) =
      (literalsOf (tokenize text)).count x := by
    intro x
    rw [hlabels.count_eq, count_char_labelsFor]
  refine ⟨?_, ?_, hcount, ?_, ?_, ?_⟩
  · rw [hids, hb.next_eq hread, Nat.add_sub_cancel_left]
    rfl
  · rw [Automaton.transitionCount_eq_labels, hlabels.length_eq, labelsFor, List.length_append,
      List.length_replicate, List.length_map]
    simp only [tally, Tally.epsilons]
    omega
  · rw [htokens]
    exact e.tally_tokens
  · rw [alphabet_of_compile hcompile rfl, Alphabet.toList_ofList]
  · intro x
    rw [alphabet_of_compile hcompile rfl, Alphabet.toList_ofList, List.mem_eraseDups,
      ← List.count_pos_iff, ← hcount, List.count_pos_iff, mem_labelsOf]

/-- The account of an automaton that was compiled. -/
theorem accounts_of_compile (hcompile : compile text supply = .ok c) (hresult : c.result = .ok n) :
    n.Accounts supply.next (tokenize text) := by
  obtain ⟨_, hcompile', houtcome⟩ := exists_compilation Fragment.inherited_counted text supply
  obtain rfl := Except.ok.inj (hcompile.symm.trans hcompile')
  cases houtcome with
  | leftover _ _ _ => cases hresult
  | refused _ _ _ _ => cases hresult
  | made hread hb hn =>
    cases hresult
    exact accounts_of_made hread hb hn hcompile

end Compile

/-- **The account of every compilation.** If it succeeds, the automaton has the identifiers, the
transitions and the alphabet that the tokens ask for. If an operator is refused, the identifiers of
the tokens before it are used up; if too many or too few operands are left, those of all tokens. -/
theorem compile_accounting (text : String) (supply : Supply) :
    ∃ c, compile text supply = .ok c ∧
      match c.result with
      | .ok n => n.Accounts supply.next (tokenize text) ∧
          c.supply.next = supply.next + (tally (tokenize text)).states
      | .error (.insufficientOperands _ position _ _) =>
          c.supply.next = supply.next + (tally ((tokenize text).take position)).states
      | .error (.malformed _) =>
          c.supply.next = supply.next + (tally (tokenize text)).states := by
  obtain ⟨c, hcompile, houtcome⟩ := exists_compilation Fragment.inherited_counted text supply
  refine ⟨c, hcompile, ?_⟩
  cases houtcome with
  | made hread hb _ => exact ⟨accounts_of_compile hcompile rfl, hb.next_eq hread⟩
  | leftover hread _ hb => exact hb.next_eq hread
  | @refused b trees before after op htokens hbefore _ hb =>
    have htake : (tokenize text).take before.length = before := by
      rw [htokens, List.take_left]
    show b.supply.next = supply.next + (tally ((tokenize text).take before.length)).states
    rw [htake]
    exact hb.next_eq hbefore

-- the concatenation is refused, and so the union behind it does not count
example : (compile "a*&b|" ⟨7⟩).toOption.map (fun c => c.supply.next) = some 11 := by cbv

end PostfixRegex
