import ObjectSpace.Integer

/-!
# Arithmetic progressions

A progression is the value of `range`: `start`, `start + step`, ... as long as the term lies
strictly before `stop` in the direction of the step. It is stored as three words, and length,
terms and membership are computed from them without listing the terms.
-/

namespace ObjectSpace

/-- The integers from `start` by `step` strictly before `stop`. -/
structure Progression where
  start : Int64
  stop : Int64
  step : Int64
  step_ne_zero : step ≠ 0
  deriving DecidableEq

namespace Progression

/-- How many steps of length `step` start at `start` and stay strictly before `stop`. -/
def count (start stop step : Int) : Nat :=
  if 0 < step then
    if start < stop then ((stop - start - 1) / step + 1).toNat else 0
  else
    if stop < start then ((start - stop - 1) / -step + 1).toNat else 0

/-- How many terms there are. -/
def length (p : Progression) : Nat := count p.start.toInt p.stop.toInt p.step.toInt

/-- The term at place `i` over the integers. -/
def term (p : Progression) (i : Int) : Int := p.start.toInt + p.step.toInt * i

/-- The term at place `i`, which has to be below the length. -/
def nth (p : Progression) (i : Nat) : Int64 := Int64.ofInt (p.term i)

/-- Whether `n` is a term. -/
def contains (p : Progression) (n : Int64) : Bool :=
  let offset := n.toInt - p.start.toInt
  p.length ≠ 0 ∧ offset % p.step.toInt = 0 ∧ 0 ≤ offset / p.step.toInt
    ∧ offset / p.step.toInt < p.length

/-- Whether two progressions have the same terms. -/
def sameTerms (p q : Progression) : Bool :=
  p.length = q.length
    ∧ (p.length = 0 ∨ p.start = q.start ∧ (p.length = 1 ∨ p.step = q.step))

/-- The terms in order. -/
def terms (p : Progression) : List Int64 := (List.range p.length).map p.nth

end Progression

end ObjectSpace
