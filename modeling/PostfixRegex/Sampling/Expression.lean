import PostfixRegex.Sampling.Source
import PostfixRegex.Token

/-!
# Random postfix expressions

A random expression is written from left to right, one piece at a time: a literal or a binary
operator, each perhaps with a star after it. Two numbers say what may come next, the literals still
to be written and the operands that the part written so far leaves on a stack. A literal is forced
while there are fewer than two operands, an operator is forced once no literal remains, a coin
decides otherwise, and the expression is complete when no literal remains and one operand is left.

## Main definitions

* `Piece`: a token with an optional star;
* `Source.pieces`: the pieces of a random expression;
* `Source.expression`: the random expression itself, after checking what was asked for.
-/

namespace PostfixRegex

/-- A literal or a binary operator, perhaps with a star after it. -/
structure Piece where
  token : Token
  starred : Bool
deriving DecidableEq

/-- The characters of a piece. -/
def Piece.chars (p : Piece) : List Char :=
  p.token.char :: if p.starred then [Operator.star.char] else []

/-- The text that consists of the given pieces. -/
def Piece.text (pieces : List Piece) : String :=
  String.ofList (pieces.flatMap chars)

/-- Why no expression can be drawn. -/
inductive SamplingError where
  /-- No literal was asked for. -/
  | noLiterals
  /-- An operator was offered as a literal. -/
  | reservedLiteral
  /-- There is no character to choose a literal from. -/
  | noSymbols
deriving DecidableEq

/-- What is reported when no expression can be drawn. -/
def SamplingError.message : SamplingError → String
  | noLiterals => "A postfix expression needs at least one literal"
  | reservedLiteral => "Literals cannot be reserved operators"
  | noSymbols => "At least one symbol must be given"

namespace Source

variable {σ : Type}

/-- Draws a literal among `c` and `cs`; one in five gets a star. -/
def literal (source : Source σ) (c : Char) (cs : List Char) : StateM σ Piece := do
  let i ← source.pick cs.length
  return ⟨.literal (c :: cs)[i], ← source.coin .fifth⟩

/-- Draws a binary operator; one in ten gets a star. -/
def binary (source : Source σ) : StateM σ Piece := do
  let op := if ← source.coin .half then Operator.union else Operator.concatenate
  return ⟨.operator op, ← source.coin .tenth⟩

/-- Draws the pieces that complete an expression, with the number of literals still to be written
and the number of operands there are. -/
def pieces (source : Source σ) (c : Char) (cs : List Char) :
    (remaining operands : Nat) → StateM σ (List Piece)
  | 0, 0 => return []
  | 0, 1 => return []
  | 0, operands + 2 => do
    let p ← source.binary
    return p :: (← source.pieces c cs 0 (operands + 1))
  | remaining + 1, 0 => do
    let p ← source.literal c cs
    return p :: (← source.pieces c cs remaining 1)
  | remaining + 1, 1 => do
    let p ← source.literal c cs
    return p :: (← source.pieces c cs remaining 2)
  | remaining + 1, operands + 2 => do
    if ← source.coin .half then
      let p ← source.literal c cs
      return p :: (← source.pieces c cs remaining (operands + 3))
    else
      let p ← source.binary
      return p :: (← source.pieces c cs (remaining + 1) (operands + 1))
termination_by remaining operands => 2 * remaining + operands

/-- Draws an expression with the given number of literals, each taken from `symbols`. -/
def expression (source : Source σ) (literals : Nat) (symbols : List Char) :
    ExceptT SamplingError (StateM σ) (List Piece) := do
  if literals = 0 then throw .noLiterals
  if symbols.any fun c => (Operator.ofChar? c).isSome then throw .reservedLiteral
  match symbols with
  | [] => throw .noSymbols
  | c :: cs => source.pieces c cs literals 0

end Source

end PostfixRegex
