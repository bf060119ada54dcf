import PostfixRegex.Sampling.Expression

/-!
# Drafts of a random expression

The loop that writes a random expression. A draft holds the text written so far, the number of
literals still to be written and the number of operands that the text leaves on a stack. Each round
appends one piece, and the draft is finished when no literal remains and there is one operand at
most.

`Source.pieces` reads off these two numbers which piece may come next, and so it cannot go wrong.
Here a round decides that from what it draws. It may find nothing to choose a literal from, and it
may be about to write an operator where there is no operand to take.

## Main definitions

* `Draft`: an expression that is being written;
* `Source.literalNext`: whether a literal comes next or an operator;
* `Source.round`, `Source.rounds`: one round, and some number of rounds.
-/

namespace PostfixRegex

/-- An expression that is being written. -/
structure Draft where
  text : String := ""
  /-- The literals still to be written. -/
  remaining : Nat
  /-- The operands that the text leaves on a stack. -/
  operands : Nat := 0
deriving DecidableEq

namespace Draft

/-- Whether a literal or an operator is still to be written. -/
def isOpen (d : Draft) : Bool :=
  0 < d.remaining || 1 < d.operands

/-- Appends a piece. A literal is an operand more, and a binary operator makes one out of two. -/
def write (d : Draft) (p : Piece) : Draft :=
  let text := d.text ++ String.ofList p.chars
  match p.token with
  | .literal _ => { text, remaining := d.remaining - 1, operands := d.operands + 1 }
  | .operator _ => { d with text, operands := d.operands - 1 }

/-- What a round may lack. -/
inductive Fault where
  /-- There is no character to choose a literal from. -/
  | noSymbols
  /-- There is no operand that an operator could take. -/
  | noOperand
deriving DecidableEq

end Draft

namespace Source

variable {σ : Type}

/-- Whether a literal comes next. The coin is thrown only if an operator is possible as well. -/
def literalNext (source : Source σ) (remaining operands : Nat) : StateM σ Bool :=
  if remaining = 0 then return false
  else if operands < 2 then return true
  else source.coin .half

/-- One round: appends one piece. Nothing happens to a draft that is finished. -/
def round (source : Source σ) (symbols : List Char) (d : Draft) :
    ExceptT Draft.Fault (StateM σ) Draft := do
  if !d.isOpen then return d
  if ← source.literalNext d.remaining d.operands then
    match symbols with
    | [] => throw .noSymbols
    | c :: cs => return d.write (← source.literal c cs)
  else if d.operands = 0 then throw .noOperand
  else return d.write (← source.binary)

/-- The draft after some rounds. -/
def rounds (source : Source σ) (symbols : List Char) :
    Nat → Draft → ExceptT Draft.Fault (StateM σ) Draft
  | 0, d => return d
  | n + 1, d => do
    let d ← source.round symbols d
    source.rounds symbols n d

end Source

end PostfixRegex
