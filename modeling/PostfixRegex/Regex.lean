import PostfixRegex.Stage

/-!
# Regular expressions

A regular expression in postfix notation, compiled and determinized. The two automata are built
from one supply, so they share no identifier. Both stages are entered in a journal with the time
they took; compiling is entered even when it fails.
-/

namespace PostfixRegex

/-- The two automata of an expression. -/
structure Regex where
  nfa : Nfa
  dfa : Dfa
deriving DecidableEq

namespace Regex

/-- How long the two stages of an expression take. -/
structure Durations (δ : Type) where
  compile : δ
  determinize : δ
deriving DecidableEq

/-- Compiles and determinizes an expression and records both stages. -/
def ofPostfix {δ : Type} (text : String) (took : Durations δ) (j : Journal δ) :
    Checked (Except CompileError Regex × Journal δ) := do
  let compilation ← compile text {}
  let (compiling, j) :=
    (Stage.start "compile").finish took.compile (j.note (compilation.report text))
  match compilation.result with
  | .error e => return (.error e, compiling.drop j)
  | .ok nfa =>
    match nfa.determinize compilation.supply with
    | none => throw .nothingCompiled
    | some (dfa, _) =>
      let (determinizing, j) := (Stage.start "determinize").finish took.determinize
        (j.note (determinizeReport nfa (some dfa)))
      return (.ok { nfa, dfa }, compiling.drop (determinizing.drop j))

/-- Whether the expression matches the whole text. -/
def isMatch (r : Regex) (text : String) : Bool :=
  r.dfa.accepts text.toList

end Regex

end PostfixRegex
