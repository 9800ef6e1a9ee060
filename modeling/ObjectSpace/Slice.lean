import ObjectSpace.Progression

/-!
# Indices and slices

A negative index counts from the end. A slice selects positions from `start` by `step` strictly
before `stop`: a negative bound counts from the end, bounds are then clamped to the sequence, and
an absent bound is the end of the sequence in the direction of the step. Positions are computed
over the integers, so no step overflows.
-/

namespace ObjectSpace

/-- The place that `index` names in a sequence of length `length`. -/
def normalizeIndex (index : Int64) (length : Nat) (type : String) : Except Diagnostic Nat :=
  let place := if index < 0 then index.toInt + length else index.toInt
  if 0 ≤ place ∧ place < length then .ok place.toNat else .error (.indexOutOfRange type)

/-- The positions `start`, `start + step`, ... of a slice; the last one is strictly before
`stop`. -/
structure Slice where
  start : Int
  stop : Int
  step : Int
  deriving DecidableEq

namespace Slice

/-- A bound as given, counted from the end if negative, and clamped to `lower` and `upper`. -/
def clamp (length lower upper : Int) (bound : Int64) : Int :=
  if bound < 0 then max (bound.toInt + length) lower else min bound.toInt upper

/-- The slice of a sequence of length `length` with the given bounds. -/
def ofBounds (length : Nat) (start stop step : Option Int64) : Except Diagnostic Slice :=
  let step := (step.getD 1).toInt
  if step = 0 then .error (.invalidValue "slice step cannot be zero")
  else
    let lower : Int := if 0 < step then 0 else -1
    let upper : Int := if 0 < step then length else length - 1
    .ok
      { start := start.elim (if 0 < step then lower else upper) (clamp length lower upper)
        stop := stop.elim (if 0 < step then upper else lower) (clamp length lower upper)
        step }

/-- How many positions are selected. -/
def count (s : Slice) : Nat := Progression.count s.start s.stop s.step

/-- The position at place `i` of the selection. -/
def position (s : Slice) (i : Nat) : Int := s.start + s.step * i

/-- The selected positions in order. -/
def positions (s : Slice) : List Nat := (List.range s.count).map fun i => (s.position i).toNat

/-- The elements of `xs` at the selected positions. -/
def pick {α : Type} (s : Slice) (xs : Array α) : Array α :=
  (s.positions.filterMap (xs[·]?)).toArray

/-- The word for a bound of a slice of a progression. -/
def word (n : Int) : Except Diagnostic Int64 := Integer.checked "slice" n

/-- The part of a progression at the selected positions: start, stop and step of the result.
An empty selection starts and stops where the progression starts. When the bound itself does not
fit in a word, the stop is the integer just beyond the last selected term. -/
def ofProgression (s : Slice) (p : Progression) : Except Diagnostic (Int64 × Int64 × Int64) := do
  let step ← word (p.step.toInt * s.step)
  if s.count = 0 then
    return (p.start, p.start, step)
  let stop ←
    match Integer.ofInt? (p.term s.stop) with
    | some stop => pure stop
    | none => do
      let last ← word (p.term (s.position (s.count - 1)))
      word (last.toInt + step.toInt.sign)
  return (← word (p.term s.start), stop, step)

end Slice

end ObjectSpace
