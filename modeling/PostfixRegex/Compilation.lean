import PostfixRegex.Builder

/-!
# Compiling a postfix expression

The tokens of an expression are handed to a builder from left to right: a literal becomes an atom,
an operator is applied to the stack. Compilation stops at the first operator that lacks operands,
and at the end there must be exactly one fragment.

The builder as the last token left it is part of the result (`Compilation.builder`), whether or not
the expression was well formed: its supply says which identifiers are used up.
-/

namespace PostfixRegex

/-- Why a text is no postfix expression. -/
inductive CompileError where
  /-- The operator at this position, counted in characters from `0`, lacks operands. -/
  | insufficientOperands (op : Operator) (position required available : Nat)
  /-- The expression leaves this many fragments instead of one. -/
  | malformed (fragments : Nat)
deriving DecidableEq

/-- What is reported about a text that is no postfix expression. -/
def CompileError.message : CompileError → String
  | insufficientOperands op position required available =>
    s!"Operator '{op.text}' at position {position} requires {required} operand(s), " ++
      s!"but only {available} available"
  | malformed fragments =>
    s!"Postfix expression reduces to {fragments} fragments instead of exactly one"

/-- The outcome of compiling an expression. -/
structure Compilation where
  /-- The builder as the last token left it. -/
  builder : Builder
  result : Except CompileError Nfa

namespace Builder

/-- Hands the tokens to the builder, the first of them standing at `position`, and stops at the
first one that fails. -/
def feed (b : Builder) (position : Nat) :
    List Token → Checked (Builder × Except CompileError Unit)
  | [] => return (b, .ok ())
  | .literal c :: tokens => do
    let b ← b.atom c
    b.feed (position + 1) tokens
  | .operator op :: tokens => do
    match ← b.apply op with
    | .ok b => b.feed (position + 1) tokens
    | .error m => return (b, .error (.insufficientOperands op position m.required m.available))

end Builder

/-- Compiles an expression with identifiers from a supply. -/
def compile (text : String) (supply : Supply) : Checked Compilation := do
  let (builder, outcome) ← Builder.feed { supply } 0 (tokenize text)
  match outcome with
  | .error e => return { builder, result := .error e }
  | .ok () =>
    match ← builder.finish with
    | .ok n => return { builder, result := .ok n }
    | .error fragments => return { builder, result := .error (.malformed fragments) }

/-- The supply after compiling. Identifiers that were used stay used when compiling fails. -/
def Compilation.supply (c : Compilation) : Supply :=
  c.builder.supply

end PostfixRegex
