import Mathlib.Tactic.TFAE
import PostfixRegex.Proofs.Set

/-!
# What the text of a signature says

Whoever sees the states of an automaton as text takes equal texts for equal sets of states. That is
right because a text can be read back: the identifiers are written in digits and nothing else in the
text is a digit, so its longest runs of digits are the identifiers, in their order. The set without
members needs no care, since `{}` has no run of digits.

It is the separator that decides. With any separator that is not empty and has no digit the numbers
can be read back (`numbersIn_joined`). Without one, neighbouring runs melt into one, and two
signatures can have the same text (`Signature.not_injective_joined`).

## Main definitions

* `joined`, `braced` — numbers in decimal with a separator between them, and a list of them in
  braces
* `numbersIn` — the numbers that stand in a text

## Main results

* `numbersIn_joined` — reading after writing, for every separator
* `numbersIn_braced`, `braced_inj` — the text of a list of numbers, read back
* `Signature.text_identifies` — when two sets of states are shown alike
-/

namespace PostfixRegex

/-- The numbers in decimal, with the separator between neighbours. -/
def joined (separator : String) (ids : List Nat) : String :=
  separator.intercalate (ids.map Nat.repr)

/-- The numbers with commas between them, in braces. -/
def braced (ids : List Nat) : String :=
  "\x7b" ++ joined ", " ids ++ "\x7d"

/-- The numbers that stand in a text: its longest runs of digits, each read in decimal. -/
def numbersIn (text : List Char) : List Nat :=
  ((text.splitOnP fun c => !c.isDigit).filter (· ≠ [])).map fun run => Nat.ofDigitChars 10 run 0

/-! ### Reading -/

theorem numbersIn_nil : numbersIn [] = [] := rfl

/-- A character that is no digit ends the run before it, so what stands on its two sides is read
separately. -/
theorem numbersIn_append_cons {c : Char} (hc : c.isDigit = false) (before after : List Char) :
    numbersIn (before ++ c :: after) = numbersIn before ++ numbersIn after := by
  have hsplit : (!c.isDigit) = true := by rw [hc]; rfl
  rw [numbersIn, List.splitOnP_append_cons before after hsplit, List.filter_append,
    List.map_append]
  rfl

theorem numbersIn_cons {c : Char} (hc : c.isDigit = false) (text : List Char) :
    numbersIn (c :: text) = numbersIn text :=
  numbersIn_append_cons hc [] text

theorem numbersIn_append_of_forall {mark : List Char} (hmark : ∀ c ∈ mark, c.isDigit = false)
    (text : List Char) : numbersIn (mark ++ text) = numbersIn text := by
  induction mark with
  | nil => rfl
  | cons c mark ih =>
    obtain ⟨hc, hmark⟩ := List.forall_mem_cons.mp hmark
    rw [List.cons_append, numbersIn_cons hc, ih hmark]

/-- A number in decimal is one run of digits, which reads as the number. -/
theorem numbersIn_repr (n : Nat) : numbersIn n.repr.toList = [n] := by
  have hdigits : ∀ c ∈ Nat.toDigits 10 n, (!c.isDigit) = false := fun c hc => by
    rw [Nat.isDigit_of_mem_toDigits (by decide) (by decide) hc]
    rfl
  rw [Nat.toList_repr, numbersIn, List.splitOnP_eq_singleton hdigits]
  simp [Nat.toDigits_ne_nil]

/-! ### Reading after writing -/

theorem toList_joined_cons_cons (separator : String) (n m : Nat) (ids : List Nat) :
    (joined separator (n :: m :: ids)).toList =
      n.repr.toList ++ (separator.toList ++ (joined separator (m :: ids)).toList) := by
  rw [joined, List.map_cons, List.map_cons, String.intercalate_cons_cons, String.toList_append,
    String.toList_append, List.append_assoc]
  rfl

/-- **Reading after writing.** Numbers with a separator between them can be read back, whatever the
separator is, as long as it is not empty and has no digit. -/
theorem numbersIn_joined {separator : String} (hne : separator ≠ "")
    (hsep : ∀ c ∈ separator.toList, c.isDigit = false) (ids : List Nat) :
    numbersIn (joined separator ids).toList = ids := by
  obtain ⟨c, mark, hmark⟩ : ∃ c mark, separator.toList = c :: mark :=
    List.exists_cons_of_ne_nil (mt String.toList_eq_nil_iff.mp hne)
  obtain ⟨hc, hrest⟩ := List.forall_mem_cons.mp (hmark ▸ hsep)
  induction ids with
  | nil => rfl
  | cons n ids ih =>
    cases ids with
    | nil => exact numbersIn_repr n
    | cons m ids =>
      -- the first character of the separator ends the first number, the others are skipped
      rw [toList_joined_cons_cons, hmark, List.cons_append, numbersIn_append_cons hc,
        numbersIn_repr, numbersIn_append_of_forall hrest, ih, List.singleton_append]

theorem numbersIn_braced (ids : List Nat) : numbersIn (braced ids).toList = ids := by
  have hjoined : numbersIn (joined ", " ids).toList = ids :=
    numbersIn_joined (by decide) (by simp) ids
  rw [braced, String.toList_append, String.toList_append, List.append_assoc]
  calc numbersIn ('\x7b' :: ((joined ", " ids).toList ++ '\x7d' :: []))
      = numbersIn ((joined ", " ids).toList ++ '\x7d' :: []) := numbersIn_cons (by decide) _
    _ = numbersIn (joined ", " ids).toList ++ numbersIn [] :=
        numbersIn_append_cons (by decide) _ _
    _ = ids := by rw [hjoined, numbersIn_nil, List.append_nil]

/-- Two lists in braces are the same text only if they are the same list. -/
theorem braced_inj {xs ys : List Nat} : braced xs = braced ys ↔ xs = ys := by
  constructor
  · intro h
    rw [← numbersIn_braced xs, h, numbersIn_braced]
  · intro h
    rw [h]

/-! ### Texts of sets -/

theorem StateSet.text_inj {s t : StateSet} : s.text = t.text ↔ s = t :=
  braced_inj.trans ⟨StateSet.ext, congrArg StateSet.order⟩

namespace Signature

variable {a b : Signature}

theorem numbersIn_text (s : Signature) : numbersIn s.text.toList = s.toList :=
  numbersIn_braced s.toList

theorem text_inj : a.text = b.text ↔ a = b :=
  braced_inj.trans ⟨toList_injective, congrArg toList⟩

theorem contains_eq_iff :
    (∀ id, a.contains id = b.contains id) ↔ ∀ id, id ∈ a.toList ↔ id ∈ b.toList := by
  refine forall_congr' fun id => ?_
  rw [Bool.eq_iff_iff, contains_iff, contains_iff]

/-- Without a separator the digits of one identifier run on into the next, and increasing order does
not prevent it: `{1, 234}` and `{12, 34}` have the same digits. (So have `{1, 23}` and `{12, 3}`,
where the second is listed in the order of insertion.) -/
theorem not_injective_joined : ¬ Function.Injective fun s : Signature => joined "" s.toList := by
  intro h
  have hdigits : joined "" [1, 234] = joined "" [12, 34] := by decide
  have hsame : ofList [1, 234] = ofList [12, 34] := h hdigits
  exact absurd hsame (by decide)

/-- **The text identifies the set.** The identifiers of a signature can be read off its text. Two
signatures have the same text, with or without the leading word, exactly if they contain the same
identifiers. So two sets of states have signatures with the same text exactly if they have the same
members, and a set that is shown itself is shown like no other. Identifiers written without a
separator would not identify a signature. -/
theorem text_identifies (a b : Signature) (s t : StateSet) :
    numbersIn a.text.toList = a.toList ∧
      List.TFAE [
        a.text = b.text,
        a.labelledText = b.labelledText,
        ∀ id, a.contains id = b.contains id,
        ∀ id, id ∈ a.toList ↔ id ∈ b.toList,
        a = b] ∧
      (s.signature.text = t.signature.text ↔ s.sameMembers t = true) ∧
      (s.text = t.text ↔ s = t) ∧
      ¬ Function.Injective fun σ : Signature => joined "" σ.toList := by
  refine ⟨numbersIn_text a, ?_, ?_, StateSet.text_inj, not_injective_joined⟩
  · tfae_have 1 ↔ 5 := text_inj
    tfae_have 2 ↔ 1 := String.append_right_inj "Signature"
    tfae_have 3 ↔ 4 := contains_eq_iff
    tfae_have 4 → 5 := ext_mem
    tfae_have 5 → 4 := fun h id => by rw [h]
    tfae_finish
  · rw [text_inj, StateSet.signature_eq_iff, StateSet.sameMembers_iff]

end Signature

end PostfixRegex
