import PostfixRegex.Quoted.Hidden

/-!
# Quoted text

A text in double quotes, as it is shown to a reader. The quote and the backslash are escaped, and so
is every character that could not be seen: line breaks, tabs and the null character by a letter or
digit of their own, all others by their numbers in hexadecimal. A single quote stays as it is.

So nothing in a quoted text is hidden (`isHidden_of_mem_quote`).

## Main definitions

* `quoteChar`, `quote`: the form of a character inside the quotes, and of a whole text.
-/

namespace PostfixRegex

/-- The letter, digit or mark that stands for a character behind a backslash, if it has one. -/
def shortEscape? : Char → Option Char
  | '"' => some '"'
  | '\\' => some '\\'
  | '\n' => some 'n'
  | '\t' => some 't'
  | '\r' => some 'r'
  | '\x00' => some '0'
  | _ => none

/-- A character by its number, in hexadecimal without leading zeros. -/
def numberEscape (c : Char) : List Char :=
  '\\' :: 'u' :: '\x7b' :: Nat.toDigits 16 c.toNat ++ ['\x7d']

/-- The form of a character inside double quotes. -/
def quoteChar (c : Char) : List Char :=
  match shortEscape? c with
  | some e => ['\\', e]
  | none => if isHidden c then numberEscape c else [c]

/-- A text in double quotes. -/
def quote (text : String) : String :=
  String.ofList ('"' :: text.toList.flatMap quoteChar ++ ['"'])

/-! ### Nothing is hidden -/

theorem exists_digitChar_of_mem_toDigits {c : Char} {n : Nat} (h : c ∈ Nat.toDigits 16 n) :
    ∃ d < 16, c = Nat.digitChar d := by
  induction n using Nat.strongRecOn with
  | ind n ih =>
    rcases Nat.lt_or_ge n 16 with hn | hn
    · rw [Nat.toDigits_of_lt_base hn, List.mem_singleton] at h
      exact ⟨n, hn, h⟩
    · rw [Nat.toDigits_of_base_le (by decide) hn, List.mem_append, List.mem_singleton] at h
      rcases h with h | h
      · exact ih (n / 16) (by omega) h
      · exact ⟨n % 16, Nat.mod_lt _ (by decide), h⟩

theorem isHidden_of_mem_numberEscape {c x : Char} (h : x ∈ numberEscape c) :
    isHidden x = false := by
  simp only [numberEscape, List.cons_append, List.mem_cons, List.mem_append, List.not_mem_nil,
    or_false] at h
  have hdigits : ∀ d < 16, 0x20 ≤ (Nat.digitChar d).toNat ∧ (Nat.digitChar d).toNat ≤ 0x7e := by
    decide
  refine isHidden_of_mem_ascii ?_
  rcases h with rfl | rfl | rfl | h | rfl
  · decide
  · decide
  · decide
  · obtain ⟨d, hd, rfl⟩ := exists_digitChar_of_mem_toDigits h
    exact hdigits d hd
  · decide

theorem isHidden_of_shortEscape? {c e : Char} (h : shortEscape? c = some e) :
    isHidden e = false := by
  refine isHidden_of_mem_ascii ?_
  unfold shortEscape? at h
  split at h <;> cases h <;> decide

theorem isHidden_of_mem_quoteChar {c x : Char} (h : x ∈ quoteChar c) : isHidden x = false := by
  rw [quoteChar] at h
  split at h
  · next e he =>
    rcases List.mem_cons.mp h with rfl | h
    · exact isHidden_of_mem_ascii (by decide)
    · rw [List.mem_singleton.mp h]
      exact isHidden_of_shortEscape? he
  · split at h
    · exact isHidden_of_mem_numberEscape h
    · next hc =>
      rw [List.mem_singleton.mp h]
      exact Bool.eq_false_iff.mpr hc

/-- **Nothing is hidden.** Every character of a quoted text can be seen. -/
theorem isHidden_of_mem_quote {text : String} {x : Char} (h : x ∈ (quote text).toList) :
    isHidden x = false := by
  rw [quote, String.toList_ofList, List.cons_append, List.mem_cons, List.mem_append,
    List.mem_singleton, List.mem_flatMap] at h
  rcases h with rfl | ⟨c, -, hc⟩ | rfl
  · exact isHidden_of_mem_ascii (by decide)
  · exact isHidden_of_mem_quoteChar hc
  · exact isHidden_of_mem_ascii (by decide)

/-- A combining accent, a null character and a single quote. -/
example : quote "e\u0301\x00'" = "\"e\\u\x7b301\x7d\\0'\"" := by decide +kernel

end PostfixRegex
