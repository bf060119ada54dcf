/-!
# Seeds

A seed is a 64-bit word from which a generator of random draws starts. It can be set as a decimal
text; without a setting some other word is taken. Of the generator nothing is assumed: a trial is a
computation on its states, and how a state arises from a seed is a parameter. Runs with the same
seed draw the same.

## Main definitions

* `Seed.parse?`: the seed a text denotes;
* `Seed.select`: the seed of a run, given the setting;
* `Trial.run`: the observations of repeated trials with one generator.
-/

namespace PostfixRegex

namespace Seed

/-- The value of a digit, if the character is one of `0` to `9`. -/
def digit? (c : Char) : Option Nat :=
  if '0' ≤ c ∧ c ≤ '9' then some (c.toNat - '0'.toNat) else none

/-- The number that digits denote, continuing from the value of the digits before them. -/
def number? (value : Nat) : List Char → Option Nat
  | [] => some value
  | c :: cs => (digit? c).bind fun d => number? (10 * value + d) cs

/-- The digits of a seed, after a plus sign that may stand in front of them. -/
def digits (text : String) : List Char :=
  match text.toList with
  | '+' :: cs => cs
  | cs => cs

/-- The seed a text denotes: at least one digit, perhaps after a plus sign, and a value that fits
into 64 bits. Leading zeros are allowed. -/
def parse? (text : String) : Option UInt64 :=
  match digits text with
  | [] => none
  | cs => (number? 0 cs).bind fun n => if n < UInt64.size then some (.ofNat n) else none

/-- The text that should set the seed denotes none. -/
inductive Error where
  | invalid
deriving DecidableEq

/-- What is reported about a text that denotes no seed. -/
def Error.message : Error → String
  | invalid => "REGAUT_SEED must be a valid u64"

/-- The seed of a run: the one that is set, or `other` when none is set. -/
def select (setting : Option String) (other : UInt64) : Except Error UInt64 :=
  match setting with
  | none => .ok other
  | some text =>
    match parse? text with
    | some seed => .ok seed
    | none => .error .invalid

end Seed

namespace Trial

variable {γ ω : Type}

/-- Repeats a trial with one generator and lists what each repetition observed. -/
def repeatFrom (trial : StateM γ ω) : Nat → γ → List ω
  | 0, _ => []
  | n + 1, g =>
    let (observation, g) := trial g
    observation :: repeatFrom trial n g

/-- Repeats a trial with the generator that starts from the given seed. -/
def run (start : UInt64 → γ) (seed : UInt64) (iterations : Nat) (trial : StateM γ ω) : List ω :=
  repeatFrom trial iterations (start seed)

/-- Repeats a trial with the seed that is set, or another one when none is set. -/
def runWith (start : UInt64 → γ) (setting : Option String) (other : UInt64) (iterations : Nat)
    (trial : StateM γ ω) : Except Seed.Error (List ω) := do
  return run start (← Seed.select setting other) iterations trial

end Trial

end PostfixRegex
