import PostfixRegex.Builder

/-!
# Calls on one builder

A caller that keeps one builder and calls on it again and again sees the builder after every call,
also after one that was refused. The operations of `PostfixRegex.Builder` return no builder when
they refuse, so they say nothing about that. Here each operation is a sequence of steps on the
builder that is kept: the operands are counted and taken off the stack, identifiers are taken, the
result is pushed. What a step has done stays done when a later step refuses, so a refused call is
without effect only if it is refused before anything is done.

## Main definitions

* `Builder.Steps`: steps on a builder, which may refuse to go on;
* `Builder.Steps.ofCall`: the steps of each call;
* `Builder.make`, `Builder.makeAll`: calls on one builder, with the answers to them.
-/

namespace PostfixRegex

namespace Builder

/-- Steps on a builder. The builder is as the steps left it, whether or not one of them refused for
want of operands. -/
abbrev Steps (α : Type) : Type :=
  ExceptT MissingOperands (StateT Builder Checked) α

namespace Steps

/-- Takes the steps on the builder: the outcome, and the builder afterwards. -/
def runOn {α : Type} (steps : Steps α) (b : Builder) :
    Checked (Except MissingOperands α × Builder) :=
  steps.run.run b

/-- Refuses to go on if the stack is too low for the operator. -/
def require (op : Operator) : Steps Unit := do
  let b ← get
  if b.height < op.arity then throw (b.missing op)

/-- Takes the topmost fragment off the stack, one of the operands of `op`. -/
def pop (op : Operator) : Steps Fragment := do
  let b ← get
  match b.stack with
  | f :: rest =>
    set { b with stack := rest }
    return f
  | [] => throwThe Violation (.operandMissing op.arity)

/-- Takes the two operands of `op` off the stack, of which the right one is on top. -/
def popTwo (op : Operator) : Steps (Fragment × Fragment) := do
  require op
  let right ← pop op
  let left ← pop op
  return (left, right)

/-- Takes the next identifier. -/
def fresh : Steps Nat := do
  let b ← get
  let (id, supply) := b.supply.fresh
  set { b with supply }
  return id

/-- Puts a fragment on top of the stack. -/
def push (f : Fragment) : Steps Unit :=
  modify fun b => { b with stack := f :: b.stack }

def atom (c : Char) : Steps Unit := do
  let first ← fresh
  let second ← fresh
  push (← Fragment.atom c first second)
  modify fun b => { b with alphabet := b.alphabet.insert c }

def concatenate : Steps Unit := do
  let (left, right) ← popTwo .concatenate
  push (← left.concatenate right)

def star : Steps Unit := do
  require .star
  let inner ← pop .star
  let start ← fresh
  let last ← fresh
  push (← inner.star start last)

def union : Steps Unit := do
  let (left, right) ← popTwo .union
  let start ← fresh
  let last ← fresh
  push (← left.union right start last)

/-- The operation that an operator stands for. -/
def operate : Operator → Steps Unit
  | .union => union
  | .star => star
  | .concatenate => concatenate

/-- Counts the operands once more before the operation does. -/
def apply (op : Operator) : Steps Unit := do
  require op
  operate op

/-- The steps of a call. -/
def ofCall : Call → Steps Unit
  | .atom c => atom c
  | .concatenate => concatenate
  | .star => star
  | .union => union
  | .apply op => apply op

end Steps

/-- Makes a call on the builder: the answer, and the builder afterwards. -/
def make (b : Builder) (call : Call) : Checked (Except MissingOperands Unit × Builder) :=
  (Steps.ofCall call).runOn b

/-- Makes calls one after the other on the same builder: the answers, and the builder afterwards. -/
def makeAll (b : Builder) : List Call → Checked (List (Except MissingOperands Unit) × Builder)
  | [] => return ([], b)
  | call :: calls => do
    let (answer, b) ← b.make call
    let (answers, b) ← b.makeAll calls
    return (answer :: answers, b)

end Builder

end PostfixRegex
