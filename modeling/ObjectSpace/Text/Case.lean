import ObjectSpace.Text.CaseTable

/-!
# Letter case

Upper and lower case of a text, character by character; one character may become several. The only
mapping that depends on its surroundings is the capital sigma: at the end of a word, that is after
a cased letter and not before one, its lower case is the final sigma. Characters that belong to a
word without having case are passed over in both directions.
-/

namespace ObjectSpace.Text

open CaseTable

/-- The other case of `c`, given the runs and the expansions of the direction. -/
def mapCase (runs : List Run) (expansions : List (Nat × List Nat)) (c : Char) : List Char :=
  match expansions.lookup c.toNat with
  | some cs => cs.map Char.ofNat
  | none =>
    let covers (r : Run) : Bool :=
      r.first ≤ c.toNat ∧ c.toNat ≤ r.last ∧ (c.toNat - r.first) % r.stride = 0
    match runs.find? covers with
    | some r => [Char.ofNat (c.toNat + r.shift).toNat]
    | none => [c]

/-- Whether a code point lies in one of the ranges. -/
def inRanges (ranges : List (Nat × Nat)) (c : Char) : Bool :=
  ranges.any fun (first, last) => first ≤ c.toNat ∧ c.toNat ≤ last

/-- Whether the next character that is not passed over has case. -/
def meetsCased (cs : List Char) : Bool :=
  (cs.dropWhile (inRanges ignorableRanges)).head?.any (inRanges casedRanges)

/-- Lower case of the rest of a text whose earlier characters, nearest first, are `before`. -/
def lowerFrom (before : List Char) : List Char → List Char
  | [] => []
  | c :: rest =>
    (if c = 'Σ' then
      [if meetsCased before && !meetsCased rest then 'ς' else 'σ']
    else mapCase lowerRuns lowerExpansions c) ++ lowerFrom (c :: before) rest

/-- Upper case of a text. -/
def upper (s : String) : String :=
  String.ofList (s.toList.flatMap (mapCase upperRuns upperExpansions))

/-- Lower case of a text. -/
def lower (s : String) : String := String.ofList (lowerFrom [] s.toList)

/-- Lower case of the ASCII letters only. -/
def lowerAscii (s : String) : String := s.map Char.toLower

end ObjectSpace.Text
