/-!
# Searching and cutting

Occurrences of one sequence in another. `split` cuts a text at the occurrences of a separator that
are found from left to right without overlap.
-/

namespace ObjectSpace

variable {α : Type} [BEq α]

/-- Whether `needle` occurs in a list as a contiguous part. -/
def occursIn (needle : List α) : List α → Bool
  | [] => needle.isEmpty
  | c :: rest => needle.isPrefixOf (c :: rest) || occursIn needle rest

namespace Text

/-- Whether `s` starts with `affix`. -/
def startsWith (s affix : String) : Bool := affix.toList.isPrefixOf s.toList

/-- Whether `s` ends with `affix`. -/
def endsWith (s affix : String) : Bool := affix.toList.isSuffixOf s.toList

/-- The parts between separators, where `part` is what was already read of the first one, last
character first. -/
def splitFrom (sep : List Char) (part : List Char) (cs : List Char) : List (List Char) :=
  match cs with
  | [] => [part.reverse]
  | c :: rest =>
    if sep.isPrefixOf (c :: rest) ∧ sep ≠ [] then
      part.reverse :: splitFrom sep [] (rest.drop (sep.length - 1))
    else splitFrom sep (c :: part) rest
termination_by cs.length
decreasing_by all_goals simp_wf; try omega

/-- The parts of `s` between the occurrences of `sep`. -/
def split (s sep : String) : List String :=
  (splitFrom sep.toList [] s.toList).map String.ofList

/-- The texts one after the other with `sep` in between. -/
def join (sep : String) (parts : List String) : String := sep.intercalate parts

end Text

end ObjectSpace
