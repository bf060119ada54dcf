/-!
# Broken rules

Putting states together obeys rules that a caller can break: identifiers in one table are distinct,
the start state is one of the states, a fragment ends in an accepting state. An operation that
depends on such a rule checks it and reports a `Violation`. What the builder, the compiler and the
determinization do never leads to one; because the checks are part of the definitions, that is a
theorem about them and no assumption.
-/

namespace PostfixRegex

/-- The rules an operation may find broken. -/
inductive Violation where
  /-- Two states in one table carry this identifier. -/
  | duplicateState (id : Nat)
  /-- The start state is none of the states. -/
  | unknownStart (id : Nat)
  /-- The last state of a fragment is none of its states. -/
  | lastMissing
  /-- The last state of a fragment does not accept. -/
  | lastNotAccepting
  /-- A compiled automaton has no states. -/
  | nothingCompiled
  /-- The operands were counted, and still one of this many is not there. -/
  | operandMissing (required : Nat)
  /-- A set waits for its transitions, but none of the states stands for it. -/
  | setWithoutState
deriving DecidableEq

/-- What is reported about a broken rule. -/
def Violation.message : Violation → String
  | duplicateState id => s!"State {id} is already part of the table"
  | unknownStart id => s!"The start state {id} must be one of the states"
  | lastMissing => "The last state is always part of the fragment"
  | lastNotAccepting => "The last state of a fragment is accepting"
  | nothingCompiled => "A compiled NFA has at least two states"
  | operandMissing 2 => "Checked that two fragments are present"
  | operandMissing _ => "Checked that the operand is present"
  | setWithoutState => "Every unmarked set has a DFA state"

/-- A result, or the rule that was found broken on the way to it. -/
abbrev Checked := Except Violation

end PostfixRegex
