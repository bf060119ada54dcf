/-!
# Tokens of a postfix expression

An expression is written in postfix notation, one token per character. Three characters are
operators; every other character is a literal and stands for itself.

## Main definitions

* `Operator`: union, star and concatenation, with the characters that denote them and the number
  of operands they take;
* `Token.ofChar`: the token that a character denotes;
* `tokenize`: the tokens of a text, so that the position of a token is the position of its
  character.
-/

namespace PostfixRegex

/-- The operators of an expression. -/
inductive Operator where
  | union
  | star
  | concatenate
deriving DecidableEq

namespace Operator

/-- The character that denotes the operator. -/
def char : Operator → Char
  | union => '|'
  | star => '*'
  | concatenate => '&'

/-- The number of operands the operator takes. -/
def arity : Operator → Nat
  | star => 1
  | union | concatenate => 2

/-- The name of the operator. -/
def name : Operator → String
  | union => "Union"
  | star => "Star"
  | concatenate => "Concatenate"

/-- An operator is shown as its character. -/
def text (op : Operator) : String :=
  op.char.toString

/-- The operator that a character denotes, if it denotes one. -/
def ofChar? (c : Char) : Option Operator :=
  if c = '|' then some union
  else if c = '*' then some star
  else if c = '&' then some concatenate
  else none

@[simp] theorem ofChar?_char (op : Operator) : ofChar? op.char = some op := by
  cases op <;> rfl

theorem ofChar?_eq_some_iff {c : Char} {op : Operator} : ofChar? c = some op ↔ c = op.char := by
  constructor
  · intro h
    rw [ofChar?] at h
    split at h
    · cases h; assumption
    · split at h
      · cases h; assumption
      · split at h
        · cases h; assumption
        · cases h
  · rintro rfl
    exact ofChar?_char op

theorem char_injective {a b : Operator} (h : a.char = b.char) : a = b := by
  have := ofChar?_char a
  rw [h, ofChar?_char] at this
  exact (Option.some.inj this).symm

end Operator

/-- A token of a postfix expression. -/
inductive Token where
  | literal (c : Char)
  | operator (op : Operator)
deriving DecidableEq

namespace Token

/-- A reserved character denotes its operator, every other character itself. -/
def ofChar (c : Char) : Token :=
  match Operator.ofChar? c with
  | some op => operator op
  | none => literal c

/-- The character a token is written as. -/
def char : Token → Char
  | literal c => c
  | operator op => op.char

/-- Writing a token that was read gives back the character it was read from. -/
@[simp] theorem char_ofChar (c : Char) : (ofChar c).char = c := by
  rw [ofChar]
  split
  · next op h => exact (Operator.ofChar?_eq_some_iff.mp h).symm
  · rfl

@[simp] theorem ofChar_char_operator (op : Operator) : ofChar op.char = operator op := by
  simp [ofChar]

theorem ofChar_injective {c d : Char} (h : ofChar c = ofChar d) : c = d := by
  rw [← char_ofChar c, h, char_ofChar]

/-- A character is read as a literal exactly when no operator is written as that character. -/
theorem ofChar_eq_literal_iff {c d : Char} :
    ofChar c = literal d ↔ c = d ∧ Operator.ofChar? c = none := by
  rw [ofChar]
  split
  · next op h => simp [h]
  · next h => simp [h]

end Token

/-- The tokens of a text, one per character. -/
def tokenize (text : String) : List Token :=
  text.toList.map Token.ofChar

@[simp] theorem length_tokenize (text : String) : (tokenize text).length = text.toList.length := by
  simp [tokenize]

/-- The characters of a text can be read off its tokens. -/
theorem map_char_tokenize (text : String) : (tokenize text).map Token.char = text.toList := by
  simp [tokenize, Function.comp_def]

theorem tokenize_injective {s t : String} (h : tokenize s = tokenize t) : s = t := by
  rw [← String.toList_inj, ← map_char_tokenize s, h, map_char_tokenize]

end PostfixRegex
