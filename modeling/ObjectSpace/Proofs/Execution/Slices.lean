import ObjectSpace.Proofs.Execution.Operations
import ObjectSpace.Proofs.Execution.Values
import ObjectSpace.Proofs.Number.Slices

/-!
# Slices

**Theorem (`slice_selected`).** In every space of a run on live handles, a slice of a list, a tuple,
a text or bytes fails for the step zero only. Otherwise it is a new value of the same type, and its
elements are those at the selected positions (`Slice.selected`), all of which the sequence has. What
is computed on the way stays in 128 bits.

The four types differ in what their elements are. A sequence is seen as the list of its elements
(`Object.elements?`), so that the statement is one.
-/

namespace ObjectSpace

/-- An element of a sequence. -/
inductive Element where
  | value (h : Handle)
  | char (c : Char)
  | byte (b : UInt8)

/-- The elements of a list, a tuple, a text or bytes; none for other objects. -/
def Object.elements? : Object → Option (List Element)
  | list items | tuple items => some (items.toList.map .value)
  | str s _ => some (s.toList.map .char)
  | bytes bs => some (bs.toList.map .byte)
  | _ => none

namespace Space

/-- What a bound of a slice stands for: one that is not given, or is None, for nothing, and an
integer or a Boolean for its number. -/
inductive IsBound (s : Space) : Option Handle → Option Int64 → Prop
  | absent : IsBound s none none
  | none : IsBound s (some s.noneValue) none
  | number {h : Handle} {o : Object} {n : Int64} :
      s.heap.Has h o → o.asInt? = some n → IsBound s (some h) (some n)

variable {s : Space} {v : Handle} {o : Object} {a b c : Option Handle}
  {start stop step : Option Int64} {es : List Element} {l : List ℤ}

theorem sliceBound_eq (i : s.Steady) (h : s.IsBound a start) :
    Heap.sliceBound s.noneValue a s.heap = .ok start := by
  cases h with
  | absent => rfl
  | none =>
    rw [Heap.sliceBound, if_pos rfl]
    rfl
  | @number h o n hh ho =>
    have hnone : h ≠ s.noneValue := hh.ne i.nothing (by rintro rfl; cases ho)
    rw [Heap.sliceBound, if_neg hnone, Heap.bind_of_ok (Heap.expectInt_eq hh ho "slice")]
    rfl

/-! ## Making a slice -/

/-- The value of a slice of a sequence. -/
def cut (o : Object) (sl : Slice) : Action Handle :=
  match o with
  | .list items => newList (sl.pick items)
  | .tuple items => newTuple (sl.pick items)
  | .str text _ => newStr (String.ofList (sl.pick text.toList.toArray).toList)
  | .bytes bs => newBytes (sl.pick bs)
  | o => alloc o

theorem slice_eq (i : s.Steady) (hv : s.heap.Has v o) (ho : o.elements? = some es)
    (ha : s.IsBound a start) (hb : s.IsBound b stop) (hc : s.IsBound c step) :
    slice v a b c s =
      ((liftM (Slice.ofBounds es.length start stop step) : Action Slice) >>= cut o) s := by
  rw [slice]
  show ((liftM (Heap.sliceBound s.noneValue a) : Action (Option Int64)) >>= _) s = _
  rw [ask_bind_of_ok (sliceBound_eq i ha), ask_bind_of_ok (sliceBound_eq i hb),
    ask_bind_of_ok (sliceBound_eq i hc)]
  dsimp only
  rw [get_bind_of_has hv]
  cases o <;> cases ho
  case list.refl | tuple.refl | bytes.refl =>
    rw [List.length_map, Array.length_toList]
    rfl
  case str.refl =>
    rw [List.length_map]
    rfl

theorem forall₂_pick {α : Type} {xs : Array α} {sl : Slice} (f : α → Element)
    (w : sl.Within xs.size) :
    List.Forall₂ (fun p e => 0 ≤ p ∧ (xs.toList.map f)[p.toNat]? = some e)
      (stepping sl.start sl.stop sl.step) ((sl.pick xs).toList.map f) := by
  rw [List.forall₂_map_right_iff]
  refine (Slice.pick_selected w).imp fun p x hx => ⟨hx.1, ?_⟩
  rw [List.getElem?_map, Array.getElem?_toList, hx.2]
  rfl

theorem mem_of_pick {α : Type} {xs : Array α} {sl : Slice} {x : α}
    (h : x ∈ (sl.pick xs).toList) : x ∈ xs.toList := by
  obtain ⟨j, -, hj⟩ := List.mem_filterMap.1 h
  exact Array.mem_toList_iff.2 (Array.mem_of_getElem? hj)

theorem makes_cut (i : s.Steady) (hv : s.heap.Has v o) (ho : o.elements? = some es) {sl : Slice}
    (w : sl.Within es.length) :
    ∃ o' es', s.Makes (cut o sl) o' ∧ o'.kind? = o.kind? ∧ o'.elements? = some es' ∧
      List.Forall₂ (fun p e => 0 ≤ p ∧ es[p.toNat]? = some e)
        (stepping sl.start sl.stop sl.step) es' := by
  cases o <;> cases ho
  case list.refl items =>
    rw [List.length_map, Array.length_toList] at w
    exact ⟨_, _, makes_newList i fun g hg => i.children hv g (mem_of_pick hg), rfl, rfl,
      forall₂_pick .value w⟩
  case tuple.refl items =>
    rw [List.length_map, Array.length_toList] at w
    exact ⟨_, _, makes_newTuple i fun g hg => i.children hv g (mem_of_pick hg), rfl, rfl,
      forall₂_pick .value w⟩
  case str.refl text hash? =>
    rw [List.length_map, ← List.size_toArray] at w
    refine ⟨_, _, makes_newStr i _, rfl, rfl, ?_⟩
    rw [String.toList_ofList]
    exact forall₂_pick .char w
  case bytes.refl bs =>
    rw [List.length_map, Array.length_toList] at w
    exact ⟨_, _, makes_newBytes i _, rfl, rfl, forall₂_pick .byte w⟩

end Space

open Space

variable {settings : Settings} {disk : Disk} {s : Space} {v : Handle} {o : Object}
  {a b c : Option Handle} {start stop step : Option Int64} {es : List Element}

/-- **Slices.** A slice of a list, a tuple, a text or bytes by the step zero fails. Any other one is
a new value of the same type, with the elements at the selected positions; and unless the sequence
is longer than a word can say, nothing leaves 128 bits on the way. -/
theorem slice_selected (r : LiveRun settings disk s) (hv : s.heap.Has v o)
    (ho : o.elements? = some es) (ha : s.IsBound a start) (hb : s.IsBound b stop)
    (hc : s.IsBound c step) :
    (step.getD 1 = 0 →
      slice v a b c s = .error (.fatal (.invalidValue "slice step cannot be zero")) s) ∧
    (step.getD 1 ≠ 0 →
      (∃ o' es', s.Makes (slice v a b c) o' ∧ o'.kind? = o.kind? ∧ o'.elements? = some es' ∧
        List.Forall₂ (fun p e => 0 ≤ p ∧ es[p.toNat]? = some e)
          (Slice.selected es.length (start.map Int64.toInt) (stop.map Int64.toInt)
            (step.getD 1).toInt) es') ∧
      ∃ sl, Slice.ofBounds es.length start stop step = .ok sl ∧
        (es.length < 2 ^ 64 → sl.Modest es.length (start.toList ++ stop.toList))) := by
  have i := steady_of_liveRun r
  have hslice := slice_eq i hv ho ha hb hc
  refine ⟨fun hzero => ?_, fun hne => ?_⟩
  · rw [hslice, check_bind_of_error (Slice.ofBounds_zero hzero _ _ _)]
  · obtain ⟨sl, hsl, w, hpositions⟩ := Slice.ofBounds_selected hne es.length start stop
    obtain ⟨o', es', hm, hkind, hes, hpick⟩ := makes_cut i hv ho w
    rw [check_bind_of_ok hsl] at hslice
    exact ⟨⟨o', es', hm.of_eq hslice, hkind, hes, hpositions ▸ hpick⟩, sl, hsl,
      fun hlength => w.modest hlength _⟩

/-- The text `abcde` from far beyond its end backwards by two. -/
theorem slice_selected_backwards :
    ∃ s v a c o', LiveRun {} {} s ∧ IsText s.heap v "abcde" ∧ s.IsBound (some a) (some 100) ∧
      s.IsBound (some c) (some (-2)) ∧ s.Makes (slice v (some a) none (some c)) o' ∧
      o'.elements? = some [.char 'e', .char 'c', .char 'a'] := by
  obtain ⟨s₀, h₀⟩ := create_ok {} rfl {}
  obtain ⟨v, s₁, r₁, f₁, hv⟩ := (LiveRun.start h₀).newStr "abcde"
  obtain ⟨a, s₂, r₂, f₂, ha⟩ := r₁.newInt 100
  obtain ⟨c, s, r, f, hc⟩ := r₂.newInt (-2)
  obtain ⟨hash?, hv⟩ := f.isText (f₂.isText hv)
  have ha : s.IsBound (some a) (some 100) := .number (f.keep ha) rfl
  have hc : s.IsBound (some c) (some (-2)) := .number hc rfl
  obtain ⟨o', es', hm, -, hes, hpicked⟩ :=
    ((slice_selected r hv rfl ha .absent hc).2 (by decide)).1
  refine ⟨s, v, a, c, o', r, ⟨hash?, hv⟩, ha, hc, hm, hes.trans (congrArg some ?_)⟩
  have hpositions : Slice.selected 5 (some (100 : Int64).toInt) none (-2 : Int64).toInt =
      [4, 2, 0] := by
    rw [Slice.selected, if_neg (by decide), stepping_eq_map (by decide)]
    decide
  have hread : List.Forall₂ (fun (p : ℤ) e => 0 ≤ p ∧
      ("abcde".toList.map Element.char)[p.toNat]? = some e) [4, 2, 0] es' := hpositions ▸ hpicked
  rw [show "abcde".toList = ['a', 'b', 'c', 'd', 'e'] by decide] at hread
  obtain _ | ⟨⟨-, h₄⟩, _ | ⟨⟨-, h₂⟩, _ | ⟨⟨-, h₀⟩, _ | _⟩⟩⟩ := hread
  cases h₄
  cases h₂
  cases h₀
  rfl

end ObjectSpace

/-!
## Slices of ranges

**Theorem (`range_slices`).** In every space of a run on live handles, a slice of a range is a new
range that stands for what the slice selects of the integers that the range stands for. It fails
just if no range does: the step is no word, or after the last selected integer no word is left.
-/

namespace ObjectSpace

open Space

variable {settings : Settings} {disk : Disk} {s : Space} {v : Handle} {p : Progression}
  {a b c : Option Handle} {start stop step : Option Int64} {sl : Slice}

theorem Space.slice_range (i : s.Steady) (hv : s.heap.Has v (.range p)) (ha : s.IsBound a start)
    (hb : s.IsBound b stop) (hc : s.IsBound c step)
    (hsl : Slice.ofBounds p.length start stop step = .ok sl) :
    slice v a b c s = ((liftM (sl.ofProgression p) : Action (Int64 × Int64 × Int64)) >>=
      fun e => newRange e.1 e.2.1 e.2.2) s := by
  rw [slice]
  show ((liftM (Heap.sliceBound s.noneValue a) : Action (Option Int64)) >>= _) s = _
  rw [ask_bind_of_ok (sliceBound_eq i ha), ask_bind_of_ok (sliceBound_eq i hb),
    ask_bind_of_ok (sliceBound_eq i hc)]
  dsimp only
  rw [get_bind_of_has hv]
  dsimp only
  rw [check_bind_of_ok hsl]

/-- **Slices of ranges.** The step given, a slice of a range overflows just if its step is no word,
or it selects the last word in the direction of its step. Otherwise it is a new range, of the
selected integers. -/
theorem range_slices (r : LiveRun settings disk s) (hv : s.heap.Has v (.range p))
    (ha : s.IsBound a start) (hb : s.IsBound b stop) (hc : s.IsBound c step)
    (hne : step.getD 1 ≠ 0) :
    ∃ terms, Slice.Selects p.integers (start.map Int64.toInt) (stop.map Int64.toInt)
        (step.getD 1).toInt terms ∧
      (slice v a b c s = .error (.fatal (.integerOverflow "slice")) s ↔
        Slice.Overflows (p.step.toInt * (step.getD 1).toInt) terms) ∧
      (¬ Slice.Overflows (p.step.toInt * (step.getD 1).toInt) terms →
        ∃ q, s.Makes (slice v a b c) (.range q) ∧ q.integers = terms) := by
  have i := steady_of_liveRun r
  obtain ⟨sl, hsl, w, hpositions⟩ := Slice.ofBounds_selected hne p.length start stop
  have hslice := slice_range i hv ha hb hc hsl
  rw [← Slice.ofBounds_step hsl]
  -- either the slice overflows or it makes a range, so each says when
  have hfails : Slice.Overflows (p.step.toInt * sl.step) (sl.terms p) →
      slice v a b c s = .error (.fatal (.integerOverflow "slice")) s := fun h => by
    rw [hslice, check_bind_of_error (Slice.ofProgression_overflows w h)]
  have hmakes : ¬ Slice.Overflows (p.step.toInt * sl.step) (sl.terms p) →
      ∃ q, s.Makes (slice v a b c) (.range q) ∧ q.integers = sl.terms p := fun h => by
    obtain ⟨q, hq, hterms⟩ := Slice.ofProgression_terms w h
    rw [check_bind_of_ok hq] at hslice
    exact ⟨q, (makes_newRange i q).of_eq hslice, hterms⟩
  refine ⟨sl.terms p, ?_, ⟨fun herror => ?_, hfails⟩, hmakes⟩
  · rw [Slice.Selects, ← p.length_eq, Slice.ofBounds_step hsl, ← hpositions]
    exact Slice.forall₂_terms w
  · by_contra h
    obtain ⟨q, ⟨v', s', hok, -⟩, -⟩ := hmakes h
    rw [hok] at herror
    cases herror

/-- Downwards from the greatest word, the four integers. Backwards they would end with the greatest
word, so there is no range of them. By two backwards there is one, although its stop would lie
beyond the greatest word. -/
theorem range_slices_greatest :
    ∃ s v c d, LiveRun {} {} s ∧
      s.heap.Has v (.range ⟨Int64.maxValue, Int64.maxValue - 4, -1, by decide⟩) ∧
      s.IsBound (some c) (some (-1)) ∧ s.IsBound (some d) (some (-2)) ∧
      slice v none none (some c) s = .error (.fatal (.integerOverflow "slice")) s ∧
      ∃ q, s.Makes (slice v none none (some d)) (.range q) ∧
        q.integers = [2 ^ 63 - 4, 2 ^ 63 - 2] := by
  obtain ⟨s₀, h₀⟩ := create_ok {} rfl {}
  let p : Progression := ⟨Int64.maxValue, Int64.maxValue - 4, -1, by decide⟩
  obtain ⟨v, s₁, r₁, f₁, hv⟩ := (LiveRun.start h₀).making (.newRange p.start p.stop p.step) rfl
    nofun (makes_newRange (steady_of_liveRun (LiveRun.start h₀)) p)
  obtain ⟨c, s₂, r₂, f₂, hc⟩ := r₁.newInt (-1)
  obtain ⟨d, s, r, f, hd⟩ := r₂.newInt (-2)
  have hv : s.heap.Has v (.range p) := f.keep (f₂.keep hv)
  have hc : s.IsBound (some c) (some (-1)) := .number (f.keep hc) rfl
  have hd : s.IsBound (some d) (some (-2)) := .number hd rfl
  have hp : p.integers = [2 ^ 63 - 1, 2 ^ 63 - 2, 2 ^ 63 - 3, 2 ^ 63 - 4] := by
    rw [p.integers_eq_map]
    decide
  obtain ⟨back, hback, hfails, -⟩ := range_slices r hv .absent .absent hc (by decide)
  obtain ⟨twos, htwos, -, hmakes⟩ := range_slices r hv .absent .absent hd (by decide)
  have hall : Slice.selected 4 none none (-1) = [3, 2, 1, 0] := by
    rw [Slice.selected, if_neg (by decide), stepping_eq_map (by decide)]
    decide
  have hother : Slice.selected 4 none none (-2) = [3, 1] := by
    rw [Slice.selected, if_neg (by decide), stepping_eq_map (by decide)]
    decide
  obtain rfl : back = [2 ^ 63 - 4, 2 ^ 63 - 3, 2 ^ 63 - 2, 2 ^ 63 - 1] :=
    (hp ▸ hback).eq.trans (congrArg _ hall)
  obtain rfl : twos = [2 ^ 63 - 4, 2 ^ 63 - 2] := (hp ▸ htwos).eq.trans (congrArg _ hother)
  refine ⟨s, v, c, d, r, hv, hc, hd, hfails.2 (.inr (.inl ⟨rfl, by decide⟩)), hmakes ?_⟩
  rintro (h | ⟨h, -⟩ | ⟨h, -⟩)
  · exact h (by unfold Integer.IsWord; decide)
  · exact absurd h (by decide)
  · exact absurd h (by decide)

end ObjectSpace
