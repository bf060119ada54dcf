import PostfixRegex.Automaton
import PostfixRegex.Fragment
import PostfixRegex.State.Supply
import PostfixRegex.Token

/-!
# Building an automaton on an operand stack

A builder keeps a stack of fragments, a supply of identifiers and the characters seen so far. A
literal pushes a fragment, an operator replaces its operands on top of the stack by one fragment.
An operator that finds too few operands is refused and changes nothing.

Two kinds of failure are kept apart. `MissingOperands` and a wrong number of fragments at the end
are answers to the caller; a `Violation` would be a flaw in the construction itself.

## Main definitions

* `Builder.atom`, `Builder.concatenate`, `Builder.star`, `Builder.union`, `Builder.apply`;
* `Builder.finish`: the automaton of the only fragment;
* `Builder.perform`, `Builder.performAll`: runs of such calls, refused ones left out.
-/

namespace PostfixRegex

/-- An operator found fewer operands than it takes. -/
structure MissingOperands where
  required : Nat
  available : Nat
deriving DecidableEq

/-- What is reported about missing operands. -/
def MissingOperands.message (m : MissingOperands) : String :=
  s!"requires {m.required} operand(s), but only {m.available} available"

/-- Fragments under construction, the topmost one first. -/
structure Builder where
  supply : Supply
  stack : List Fragment := []
  alphabet : Alphabet := .empty
deriving DecidableEq

namespace Builder

/-- The number of fragments on the stack. -/
def height (b : Builder) : Nat :=
  b.stack.length

/-- What is missing for an operator. -/
def missing (b : Builder) (op : Operator) : MissingOperands :=
  ⟨op.arity, b.height⟩

/-- Pushes the fragment of a character. The identifiers for its two states are taken in order. -/
def atom (b : Builder) (c : Char) : Checked Builder := do
  let (first, supply) := b.supply.fresh
  let (second, supply) := supply.fresh
  let f ← Fragment.atom c first second
  return { supply, stack := f :: b.stack, alphabet := b.alphabet.insert c }

/-- Replaces the two topmost fragments by the one that reads the lower one first. -/
def concatenate (b : Builder) : Checked (Except MissingOperands Builder) :=
  match b.stack with
  | right :: left :: rest => do
    let f ← left.concatenate right
    return .ok { b with stack := f :: rest }
  | _ => return .error (b.missing .concatenate)

/-- Replaces the topmost fragment by its repetition. -/
def star (b : Builder) : Checked (Except MissingOperands Builder) :=
  match b.stack with
  | inner :: rest => do
    let (start, supply) := b.supply.fresh
    let (last, supply) := supply.fresh
    let f ← inner.star start last
    return .ok { b with supply, stack := f :: rest }
  | _ => return .error (b.missing .star)

/-- Replaces the two topmost fragments by their union. -/
def union (b : Builder) : Checked (Except MissingOperands Builder) :=
  match b.stack with
  | right :: left :: rest => do
    let (start, supply) := b.supply.fresh
    let (last, supply) := supply.fresh
    let f ← left.union right start last
    return .ok { b with supply, stack := f :: rest }
  | _ => return .error (b.missing .union)

/-- Applies an operator after comparing its arity with the height of the stack. -/
def apply (b : Builder) (op : Operator) : Checked (Except MissingOperands Builder) :=
  if b.height < op.arity then return .error (b.missing op)
  else
    match op with
    | .union => b.union
    | .star => b.star
    | .concatenate => b.concatenate

/-- The automaton of the only fragment, or the number of fragments if there is not exactly one. -/
def finish (b : Builder) : Checked (Except Nat Nfa) :=
  match b.stack with
  | [f] => do
    let n ← Nfa.ofTable f.start f.states b.alphabet
    return .ok n
  | stack => return .error stack.length

/-! ### Runs of calls -/

/-- A call on a builder. -/
inductive Call where
  | atom (c : Char)
  | concatenate
  | star
  | union
  | apply (op : Operator)
deriving DecidableEq

/-- Makes one call. -/
def call (b : Builder) : Call → Checked (Except MissingOperands Builder)
  | .atom c => do return .ok (← b.atom c)
  | .concatenate => b.concatenate
  | .star => b.star
  | .union => b.union
  | .apply op => b.apply op

/-- Makes one call and goes on with the same builder if it is refused. -/
def perform (b : Builder) (c : Call) : Checked Builder := do
  match ← b.call c with
  | .ok b => return b
  | .error _ => return b

/-- Makes calls one after the other. -/
def performAll (b : Builder) (calls : List Call) : Checked Builder :=
  calls.foldlM perform b

end Builder

end PostfixRegex
