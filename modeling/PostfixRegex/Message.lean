import PostfixRegex.Compilation
import PostfixRegex.Determinization
import PostfixRegex.Quoted

/-!
# Messages

What is worth reporting about a construction can be read off its outcome, so a report is a function
from an outcome to a list of messages and no construction writes to a log.

## Main definitions

* `Message`: what can be reported, with a level and a text;
* `Builder.report`, `Compilation.report`, `Nfa.determinizeReport`: what is reported about the end
  of a builder, a compilation and a determinization.
-/

namespace PostfixRegex

/-! ### Messages -/

/-- How urgent a message is. -/
inductive Level where
  | debug
  | info
  | warn
deriving DecidableEq

/-- The name of a level. -/
def Level.name : Level → String
  | debug => "DEBUG"
  | info => "INFO"
  | warn => "WARN"

/-- What is reported while expressions are compiled and stages are timed. -/
inductive Message where
  /-- An expression is about to be compiled. -/
  | compiling (text : String)
  /-- All tokens were accepted, and these characters occurred. -/
  | collected (alphabet : Alphabet)
  /-- The operand stack does not hold exactly one fragment at the end. -/
  | leftover (fragments : Nat)
  /-- An automaton of this size was compiled. -/
  | compiled (states transitions : Nat)
  /-- An automaton without states cannot be determinized. -/
  | nothingToDeterminize
  /-- An automaton of this size is about to be determinized. -/
  | determinizing (states : Nat)
  /-- The deterministic automaton has this size. -/
  | determinized (states : Nat)
  /-- A stage was finished. -/
  | stageFinished (name : String)
  /-- A stage was given up without ever being finished. -/
  | stageDropped (name : String)
deriving DecidableEq

namespace Message

/-- How urgent the message is. -/
def level : Message → Level
  | collected _ | leftover _ | nothingToDeterminize => .debug
  | compiling _ | compiled _ _ | determinizing _ | determinized _ | stageFinished _ => .info
  | stageDropped _ => .warn

/-- The words of the message. -/
def text : Message → String
  | compiling text => s!"Compiling postfix expression {quote text}..."
  | collected alphabet => s!"Collected alphabet {alphabet.text}"
  | leftover fragments => s!"Operand stack holds {fragments} fragments at the end"
  | compiled states transitions =>
    s!"Compiled NFA with {states} states and {transitions} transitions"
  | nothingToDeterminize => "Nothing to determinize for an NFA without states"
  | determinizing states => s!"Determinizing NFA with {states} states..."
  | determinized states => s!"Determinized into DFA with {states} states"
  | stageFinished name => s!"Time {name}"
  | stageDropped name => s!"Timer {name} was dropped before 'finish()'"

end Message

/-! ### Reports -/

/-- What finishing a builder reports. -/
def finishReport : Except Nat Nfa → List Message
  | .ok _ => []
  | .error fragments => [.leftover fragments]

/-- What compiling the text with this outcome reports. An operator without operands ends the
compilation before the alphabet is complete. -/
def Compilation.report (c : Compilation) (text : String) : List Message :=
  .compiling text ::
    match c.result with
    | .ok n => [.collected c.builder.alphabet, .compiled n.states.size n.transitionCount]
    | .error (.malformed fragments) =>
      .collected c.builder.alphabet :: finishReport (.error fragments)
    | .error (.insufficientOperands ..) => []

/-- What determinizing the automaton with this outcome reports. -/
def determinizeReport (n : Nfa) : Option Dfa → List Message
  | none => [.nothingToDeterminize]
  | some d => [.determinizing n.states.size, .determinized d.states.size]

end PostfixRegex
