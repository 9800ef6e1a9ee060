import ObjectSpace.Proofs.Number.Progressions
import ObjectSpace.Slice

/-!
# The positions of a slice, and slices of progressions

Which positions a slice selects is said by `Slice.selected`, from the bounds as they are given. The
code clamps the bounds in one go and counts the positions by a quotient; it selects just these
(`ofBounds_selected`). All of them are positions of the sequence (`Within.mem`), and on the way to
them nothing leaves 128 bits, however long the step is (`Within.modest`).

The terms of a progression at positions that go by a step go by a step themselves
(`map_stepping`), so a slice of a progression is a progression. Its stop is the integer at the
position where the slice stops. That integer can lie beyond all words; then any other one will do
that comes after the last selected term and not after the next one, and the nearest is taken
(`stepping_of_getLast?`). There is none among the words just if the last selected term is the last
word in the direction of the step, which is what `Slice.Overflows` says besides that the step itself
has to be a word.
-/

namespace ObjectSpace.Slice

open Integer (IsWord isWord_toInt toInt_eq_zero toInt_neg_iff)
open Progression (count_le)

/-! ## Positions -/

/-- A bound, counted from the end of a sequence if it is negative. -/
def fromStart (length : ℕ) (bound : ℤ) : ℤ := if bound < 0 then bound + length else bound

/-- Where a slice starts or stops: at a bound moved to `lower` or `upper` if it lies beyond, and at
`absent` if there is none. -/
def limit (length : ℕ) (lower upper absent : ℤ) (bound : Option ℤ) : ℤ :=
  bound.elim absent fun b => max lower (min upper (fromStart length b))

/-- The positions of a sequence that a slice selects: from one limit strictly before the other, by
the step. Limits lie in `0..length` for a step forwards and in `-1..length - 1` for a step
backwards, and absent bounds are the ends of these in the direction of the step. -/
def selected (length : ℕ) (start stop : Option ℤ) (step : ℤ) : List ℤ :=
  if 0 < step then
    stepping (limit length 0 length 0 start) (limit length 0 length length stop) step
  else
    stepping (limit length (-1) (length - 1) (length - 1) start)
      (limit length (-1) (length - 1) (-1) stop) step

/-- The limits of a slice of a sequence lie at its ends or between them. -/
structure Within (length : ℕ) (s : Slice) : Prop where
  forwards : 0 < s.step → 0 ≤ s.start ∧ s.start ≤ length ∧ 0 ≤ s.stop ∧ s.stop ≤ length
  backwards : s.step < 0 → -1 ≤ s.start ∧ s.start < length ∧ -1 ≤ s.stop ∧ s.stop < length
  step_ne_zero : s.step ≠ 0
  isWord_step : IsWord s.step

variable {length : ℕ} {lower upper absent p : ℤ} {start stop step : Option Int64} {s : Slice}

/-- Clamping is counting from the start and moving to the nearest limit. -/
theorem elim_clamp (hlower : lower ≤ 0) (hupper : length - 1 ≤ upper) (hle : lower ≤ upper)
    (absent : ℤ) (bound : Option Int64) : bound.elim absent (clamp length lower upper) =
      limit length lower upper absent (bound.map Int64.toInt) := by
  cases bound with
  | none => rfl
  | some b =>
    simp only [Option.elim_some, clamp, limit, Option.map_some, fromStart, ← toInt_neg_iff]
    split <;> omega

theorem limit_mem (length : ℕ) (bound : Option ℤ) (hle : lower ≤ upper)
    (habsent : lower ≤ absent ∧ absent ≤ upper) :
    lower ≤ limit length lower upper absent bound ∧
      limit length lower upper absent bound ≤ upper := by
  cases bound with
  | none => exact habsent
  | some b =>
    rw [limit, Option.elim_some]
    omega

/-- **Positions of a slice.** The code fails for the step zero only, and otherwise steps over the
selected positions. -/
theorem ofBounds_selected (hstep : step.getD 1 ≠ 0) (length : ℕ) (start stop : Option Int64) :
    ∃ s, ofBounds length start stop step = .ok s ∧ s.Within length ∧
      stepping s.start s.stop s.step = selected length (start.map Int64.toInt)
        (stop.map Int64.toInt) (step.getD 1).toInt := by
  have hne : (step.getD 1).toInt ≠ 0 := mt toInt_eq_zero.1 hstep
  rw [ofBounds, selected]
  simp only [if_neg hne]
  by_cases hpos : 0 < (step.getD 1).toInt
  · simp only [if_pos hpos]
    rw [elim_clamp (by omega) (by omega) (by omega), elim_clamp (by omega) (by omega) (by omega)]
    have hlimit : ∀ absent bound, (0 : ℤ) ≤ absent ∧ absent ≤ length →
        0 ≤ limit length 0 length absent bound ∧ limit length 0 length absent bound ≤ length :=
      fun absent bound => limit_mem length bound (by omega)
    refine ⟨_, rfl, ⟨fun _ => ?_, fun hneg => absurd hpos hneg.not_gt, hne, isWord_toInt _⟩, rfl⟩
    exact and_assoc.1 ⟨hlimit _ _ (by omega), hlimit _ _ (by omega)⟩
  · simp only [if_neg hpos]
    rw [elim_clamp (by omega) (by omega) (by omega), elim_clamp (by omega) (by omega) (by omega)]
    have hlimit : ∀ absent bound, (-1 : ℤ) ≤ absent ∧ absent ≤ length - 1 →
        -1 ≤ limit length (-1) (length - 1) absent bound ∧
          limit length (-1) (length - 1) absent bound < length := by
      intro absent bound h
      have := limit_mem length bound (by omega) h
      omega
    refine ⟨_, rfl, ⟨fun h => absurd h hpos, fun _ => ?_, hne, isWord_toInt _⟩, rfl⟩
    exact and_assoc.1 ⟨hlimit _ _ (by omega), hlimit _ _ (by omega)⟩

theorem ofBounds_zero (hstep : step.getD 1 = 0) (length : ℕ) (start stop : Option Int64) :
    ofBounds length start stop step = .error (.invalidValue "slice step cannot be zero") := by
  rw [ofBounds, hstep, Int64.toInt_zero]
  rfl

theorem Within.mem (w : s.Within length) (hp : p ∈ stepping s.start s.stop s.step) :
    0 ≤ p ∧ p < length := by
  have hbetween := between_of_mem hp
  have hf := w.forwards
  have hb := w.backwards
  omega

/-! ## Elements -/

variable {α : Type} {xs : Array α} {l : List ℤ}

theorem positions_eq (w : s.Within length) :
    s.positions = (stepping s.start s.stop s.step).map Int.toNat := by
  rw [stepping_eq_map w.step_ne_zero, List.map_map]
  rfl

theorem forall₂_filterMap (h : ∀ p ∈ l, 0 ≤ p ∧ p < xs.size) :
    List.Forall₂ (fun p x => 0 ≤ p ∧ xs[p.toNat]? = some x) l
      (l.filterMap fun p => xs[p.toNat]?) := by
  induction l with
  | nil => exact .nil
  | cons p l ih =>
    rw [List.forall_mem_cons] at h
    obtain ⟨⟨hp, hlt⟩, h⟩ := h
    have hx : xs[p.toNat]? = some xs[p.toNat] := Array.getElem?_eq_getElem (by omega)
    simp only [List.filterMap_cons, hx]
    exact .cons ⟨hp, hx⟩ (ih h)

/-- What is picked stands at the selected positions. -/
theorem pick_selected (w : s.Within xs.size) :
    List.Forall₂ (fun p x => 0 ≤ p ∧ xs[p.toNat]? = some x) (stepping s.start s.stop s.step)
      (s.pick xs).toList := by
  rw [pick, positions_eq w, List.filterMap_map]
  exact forall₂_filterMap fun p hp => w.mem hp

/-! ## The way there -/

/-- 128 bits can hold `n`. -/
def IsDoubleWord (n : ℤ) : Prop := -2 ^ 127 ≤ n ∧ n < 2 ^ 127

/-- What is computed for a slice stays in 128 bits: its limits, with the bounds counted from the
end, their distance, and for each position the distance from the start and the position. The
quotient that counts the positions is at most the number of elements. -/
structure Modest (length : ℕ) (bounds : List Int64) (s : Slice) : Prop where
  bounds : ∀ b ∈ bounds, IsDoubleWord (b.toInt + length)
  limits : ∀ n ∈ [(length : ℤ) - 1, s.start, s.stop, s.step, -s.step], IsDoubleWord n
  distances : ∀ n ∈ [s.stop - s.start, s.stop - s.start - 1, s.start - s.stop,
    s.start - s.stop - 1], IsDoubleWord n
  count : s.count ≤ length
  positions : ∀ i < s.count, IsDoubleWord (s.step * i) ∧ IsDoubleWord (s.position i) ∧
    0 ≤ s.position i ∧ s.position i < length

theorem Within.modest (w : s.Within length) (hlength : length < 2 ^ 64) (bounds : List Int64) :
    s.Modest length bounds := by
  have hf := w.forwards
  have hb := w.backwards
  have hne := w.step_ne_zero
  have hword := w.isWord_step
  have hcount : s.count ≤ _ := count_le hne
  unfold IsWord at hword
  refine ⟨fun b _ => ?_, fun n hn => ?_, fun n hn => ?_, by omega, fun i hi => ?_⟩
  · have hbound := isWord_toInt b
    unfold IsWord at hbound
    unfold IsDoubleWord
    omega
  · simp only [List.mem_cons, List.not_mem_nil, or_false] at hn
    unfold IsDoubleWord
    omega
  · simp only [List.mem_cons, List.not_mem_nil, or_false] at hn
    unfold IsDoubleWord
    omega
  · have hp := w.mem (List.mem_of_getElem? (getElem?_stepping hne hi))
    have heq : s.position i = s.start + s.step * i := rfl
    unfold IsDoubleWord
    omega

end ObjectSpace.Slice

namespace ObjectSpace

variable {start stop step n m a d : ℤ}

/-! ## Stepping -/

/-- An affine map keeps what lies before what; where it turns the order round, it turns the
direction round, too. -/
theorem before_affine (hd : d ≠ 0) :
    Before (a + d * stop) (d * step) (a + d * n) ↔ Before stop step n := by
  unfold Before
  rcases lt_or_gt_of_ne hd with hd | hd
  · have hlt : ∀ x y, d * x < d * y ↔ y < x := fun x y => mul_lt_mul_left_of_neg hd
    have hpos : 0 < d * step ↔ step < 0 := by simpa using hlt 0 step
    have hneg : d * step < 0 ↔ 0 < step := by simpa using hlt step 0
    rw [hpos, hneg, add_lt_add_iff_left, add_lt_add_iff_left, hlt, hlt, or_comm]
  · have hlt : ∀ x y, d * x < d * y ↔ x < y := fun x y => mul_lt_mul_iff_right₀ hd
    have hpos : 0 < d * step ↔ 0 < step := by simpa using hlt 0 step
    have hneg : d * step < 0 ↔ step < 0 := by simpa using hlt step 0
    rw [hpos, hneg, add_lt_add_iff_left, add_lt_add_iff_left, hlt, hlt]

/-- An affine map takes stepping to stepping. -/
theorem map_stepping (hd : d ≠ 0) (a : ℤ) :
    (stepping start stop step).map (fun i => a + d * i) =
      stepping (a + d * start) (a + d * stop) (d * step) := by
  fun_induction stepping start stop step with
  | case1 n h ih =>
    rw [List.map_cons, ih, stepping_of_before ((before_affine hd).2 h), mul_add, add_assoc]
  | case2 n h => rw [List.map_nil, stepping_of_not_before (mt (before_affine hd).1 h)]

/-- Where stepping stops matters only as far as it is beyond the last term and not beyond the
next. -/
theorem stepping_of_getLast? (h : (stepping start stop step).getLast? = some m) :
    stepping start (m + step.sign) step = stepping start stop step := by
  fun_induction stepping start stop step with
  | case1 n hb ih =>
    have hm : m = n ∨ m ∈ stepping (n + step) stop step :=
      List.mem_cons.1 (List.mem_of_getLast? h)
    have hsign : 0 < step ∧ step.sign = 1 ∨ step < 0 ∧ step.sign = -1 :=
      hb.imp (fun hb => ⟨hb.1, Int.sign_eq_one_of_pos hb.1⟩)
        fun hb => ⟨hb.1, Int.sign_eq_neg_one_of_neg hb.1⟩
    have hbefore : Before (m + step.sign) step n := by
      unfold Before
      rcases hm with rfl | hm
      · omega
      · have := between_of_mem hm
        omega
    rw [stepping_of_before hbefore]
    congr 1
    rcases hrest : stepping (n + step) stop step with _ | ⟨k, rest⟩
    · rw [hrest] at h
      obtain rfl : n = m := Option.some.inj h
      exact stepping_of_not_before (by unfold Before; omega)
    · rw [hrest, List.getLast?_cons_cons, ← hrest] at h
      rw [← hrest, ih h]
  | case2 => cases h

theorem before_of_getLast? (h : (stepping start stop step).getLast? = some m) :
    Before stop step m := by
  have := between_of_mem (List.mem_of_getLast? h)
  unfold Before
  omega

/-! ## Terms of a slice -/

namespace Slice

open Integer (IsWord checked_of_isWord checked_of_not_isWord ofInt?_of_isWord
  ofInt?_of_not_isWord toInt_eq_zero toInt_ofInt)

/-- What a slice selects of the integers `l`: those at the selected positions. -/
def Selects (l : List ℤ) (start stop : Option ℤ) (step : ℤ) (selection : List ℤ) : Prop :=
  List.Forall₂ (fun i n => 0 ≤ i ∧ l[i.toNat]? = some n) (selected l.length start stop step)
    selection

theorem Selects.eq {l selection : List ℤ} {start stop : Option ℤ}
    (h : Selects l start stop step selection) :
    selection = (selected l.length start stop step).filterMap fun i => l[i.toNat]? := by
  unfold Selects at h
  generalize selected l.length start stop step = positions at h
  induction h with
  | nil => rfl
  | cons hread _ ih => rw [List.filterMap_cons, hread.2, ← ih]

/-- No progression of words by `step` has the terms `terms`: the step is not a word, or after the
last term there is no word for a stop. -/
def Overflows (step : ℤ) (terms : List ℤ) : Prop :=
  ¬ IsWord step ∨ terms.getLast? = some Int64.maxValue.toInt ∧ 0 < step ∨
    terms.getLast? = some Int64.minValue.toInt ∧ step < 0

/-- The terms at the positions of a slice. -/
def terms (s : Slice) (p : Progression) : List ℤ := (stepping s.start s.stop s.step).map p.term

variable {s : Slice} {p : Progression} {i n : ℤ}

theorem ofBounds_step {length : ℕ} {start stop step : Option Int64}
    (h : ofBounds length start stop step = .ok s) : s.step = (step.getD 1).toInt := by
  rw [ofBounds] at h
  dsimp only at h
  split at h
  · cases h
  · rw [← Except.ok.inj h]

theorem word_of_isWord (h : IsWord n) : word n = .ok (Int64.ofInt n) :=
  checked_of_isWord _ h

theorem word_of_not_isWord (h : ¬ IsWord n) : word n = .error (.integerOverflow "slice") :=
  checked_of_not_isWord _ h

theorem getElem?_term (hi : 0 ≤ i ∧ i < p.length) : p.integers[i.toNat]? = some (p.term i) := by
  rw [Progression.getElem?_integers (by omega), Int.toNat_of_nonneg hi.1]

theorem forall₂_terms (w : s.Within p.length) :
    List.Forall₂ (fun i n => 0 ≤ i ∧ p.integers[i.toNat]? = some n)
      (stepping s.start s.stop s.step) (s.terms p) := by
  rw [terms, List.forall₂_map_right_iff, List.forall₂_same]
  exact fun i hi => ⟨(w.mem hi).1, getElem?_term (w.mem hi)⟩

theorem isWord_of_mem_terms (w : s.Within p.length) (h : n ∈ s.terms p) : IsWord n := by
  obtain ⟨i, hi, rfl⟩ := List.mem_map.1 h
  exact Progression.isWord_of_mem (List.mem_of_getElem? (getElem?_term (w.mem hi)))

theorem terms_eq_stepping (s : Slice) (p : Progression) :
    s.terms p = stepping (p.term s.start) (p.term s.stop) (p.step.toInt * s.step) :=
  map_stepping p.step_toInt_ne_zero p.start.toInt

theorem terms_of_count_zero (w : s.Within p.length) (h : s.count = 0) : s.terms p = [] := by
  rw [terms, List.map_eq_nil_iff, ← List.length_eq_zero_iff, length_stepping w.step_ne_zero]
  exact h

theorem head?_terms (w : s.Within p.length) (h : s.count ≠ 0) :
    (s.terms p).head? = some (p.term s.start) := by
  have hfirst := getElem?_stepping w.step_ne_zero (Nat.pos_of_ne_zero h)
  rw [Nat.cast_zero, mul_zero, add_zero] at hfirst
  rw [terms, List.head?_map, List.head?_eq_getElem?, hfirst]
  rfl

theorem getLast?_terms (w : s.Within p.length) (h : s.count ≠ 0) :
    (s.terms p).getLast? = some (p.term (s.position (s.count - 1))) := by
  have hlen : (stepping s.start s.stop s.step).length = s.count := length_stepping w.step_ne_zero
  have hlast : (stepping s.start s.stop s.step)[s.count - 1]? = some (s.position (s.count - 1)) :=
    getElem?_stepping w.step_ne_zero (Nat.sub_one_lt h)
  rw [terms, List.getLast?_map, List.getLast?_eq_getElem?, hlen, hlast]
  rfl

/-! ## The slice as a progression -/

/-- After the last term there is no word for a stop just if the next integer in the direction of the
step is none. -/
theorem overflows_iff {l : List ℤ} (hne : step ≠ 0) (hlast : l.getLast? = some n)
    (hn : IsWord n) : Overflows step l ↔ ¬ IsWord step ∨ ¬ IsWord (n + step.sign) := by
  have hsign : 0 < step ∧ step.sign = 1 ∨ step < 0 ∧ step.sign = -1 :=
    hne.lt_or_gt.symm.imp (fun h => ⟨h, Int.sign_eq_one_of_pos h⟩)
      fun h => ⟨h, Int.sign_eq_neg_one_of_neg h⟩
  rw [Overflows, hlast, Option.some_inj, Option.some_inj, Int64.toInt_maxValue,
    Int64.toInt_minValue]
  refine or_congr_right ?_
  unfold IsWord at hn ⊢
  omega

theorem isWord_next (hlast : (stepping start stop step).getLast? = some n)
    (hn : IsWord n) (hstop : IsWord stop) : IsWord (n + step.sign) := by
  have hbefore := before_of_getLast? hlast
  unfold Before at hbefore
  unfold IsWord at hn hstop ⊢
  rcases hbefore with ⟨hpos, hlt⟩ | ⟨hneg, hlt⟩
  · rw [Int.sign_eq_one_of_pos hpos]
    omega
  · rw [Int.sign_eq_neg_one_of_neg hneg]
    omega

theorem step_ne_zero (w : s.Within p.length) : p.step.toInt * s.step ≠ 0 :=
  mul_ne_zero p.step_toInt_ne_zero w.step_ne_zero

theorem ofProgression_of_step (h : ¬ IsWord (p.step.toInt * s.step)) :
    s.ofProgression p = .error (.integerOverflow "slice") := by
  rw [ofProgression, word_of_not_isWord h]
  rfl

theorem ofProgression_of_count_zero (hstep : IsWord (p.step.toInt * s.step)) (h : s.count = 0) :
    s.ofProgression p = .ok (p.start, p.start, Int64.ofInt (p.step.toInt * s.step)) := by
  rw [ofProgression, word_of_isWord hstep]
  exact if_pos h

/-- The stop is the integer at the position where the slice stops, if that is a word. -/
theorem ofProgression_of_stop (w : s.Within p.length) (hstep : IsWord (p.step.toInt * s.step))
    (hcount : s.count ≠ 0) (h : IsWord (p.term s.stop)) :
    s.ofProgression p = .ok (Int64.ofInt (p.term s.start), Int64.ofInt (p.term s.stop),
      Int64.ofInt (p.step.toInt * s.step)) := by
  have hfirst := isWord_of_mem_terms w (List.mem_of_head? (head?_terms w hcount))
  rw [ofProgression, word_of_isWord hstep]
  show (if s.count = 0 then _ else _) = _
  rw [if_neg hcount, ofInt?_of_isWord h]
  show (word (p.term s.start) >>= _) = _
  rw [word_of_isWord hfirst]
  rfl

/-- If it is none, the stop is the integer after the last term. -/
theorem ofProgression_of_not_stop (w : s.Within p.length)
    (hstep : IsWord (p.step.toInt * s.step)) (hcount : s.count ≠ 0) (h : ¬ IsWord (p.term s.stop))
    (hlast : (s.terms p).getLast? = some n) :
    s.ofProgression p = (word (n + (p.step.toInt * s.step).sign)).map fun stop =>
      (Int64.ofInt (p.term s.start), stop, Int64.ofInt (p.step.toInt * s.step)) := by
  have hfirst := isWord_of_mem_terms w (List.mem_of_head? (head?_terms w hcount))
  have hword := isWord_of_mem_terms w (List.mem_of_getLast? hlast)
  obtain rfl := Option.some.inj ((getLast?_terms w hcount).symm.trans hlast)
  rw [ofProgression, word_of_isWord hstep]
  show (if s.count = 0 then _ else _) = _
  rw [if_neg hcount, ofInt?_of_not_isWord h]
  dsimp only
  rw [word_of_isWord hword]
  show (word ((Int64.ofInt _).toInt + (Int64.ofInt _).toInt.sign) >>= _) = _
  rw [toInt_ofInt hword, toInt_ofInt hstep, word_of_isWord hfirst]
  cases word (p.term (s.position (s.count - 1)) + (p.step.toInt * s.step).sign) <;> rfl

/-- The slice of a progression overflows if no progression of words has its terms. -/
theorem ofProgression_overflows (w : s.Within p.length)
    (h : Overflows (p.step.toInt * s.step) (s.terms p)) :
    s.ofProgression p = .error (.integerOverflow "slice") := by
  by_cases hstep : IsWord (p.step.toInt * s.step)
  swap
  · exact ofProgression_of_step hstep
  have hcount : s.count ≠ 0 := fun hzero => by
    rw [terms_of_count_zero w hzero] at h
    exact h.elim (absurd hstep) (by simp)
  have hlast := getLast?_terms w hcount
  have hword := isWord_of_mem_terms w (List.mem_of_getLast? hlast)
  have hnext := ((overflows_iff (step_ne_zero w) hlast hword).1 h).resolve_left (not_not.2 hstep)
  have hstop : ¬ IsWord (p.term s.stop) :=
    mt (isWord_next (terms_eq_stepping s p ▸ hlast) hword) hnext
  rw [ofProgression_of_not_stop w hstep hcount hstop hlast, word_of_not_isWord hnext]
  rfl

/-- Otherwise it is a progression with the selected terms. -/
theorem ofProgression_terms (w : s.Within p.length)
    (h : ¬ Overflows (p.step.toInt * s.step) (s.terms p)) :
    ∃ q : Progression, s.ofProgression p = .ok (q.start, q.stop, q.step) ∧
      q.integers = s.terms p := by
  have hstep : IsWord (p.step.toInt * s.step) := not_not.1 fun hstep => h (.inl hstep)
  have hne : Int64.ofInt (p.step.toInt * s.step) ≠ 0 := by
    rw [ne_eq, ← toInt_eq_zero, toInt_ofInt hstep]
    exact step_ne_zero w
  have heq : ∀ first stop : Int64, (Progression.mk first stop _ hne).integers =
      stepping first.toInt stop.toInt (p.step.toInt * s.step) := fun first stop => by
    rw [Progression.integers, toInt_ofInt hstep]
  by_cases hcount : s.count = 0
  · refine ⟨⟨p.start, p.start, _, hne⟩, ofProgression_of_count_zero hstep hcount, ?_⟩
    rw [heq, terms_of_count_zero w hcount, stepping_of_not_before]
    unfold Before
    omega
  have hfirst := isWord_of_mem_terms w (List.mem_of_head? (head?_terms w hcount))
  by_cases hstop : IsWord (p.term s.stop)
  · refine ⟨⟨Int64.ofInt _, Int64.ofInt _, _, hne⟩, ofProgression_of_stop w hstep hcount hstop, ?_⟩
    rw [heq, toInt_ofInt hfirst, toInt_ofInt hstop, terms_eq_stepping]
  · have hlast := getLast?_terms w hcount
    have hword := isWord_of_mem_terms w (List.mem_of_getLast? hlast)
    have hnext : IsWord (p.term (s.position (s.count - 1)) + (p.step.toInt * s.step).sign) :=
      not_not.1 fun hnext => h ((overflows_iff (step_ne_zero w) hlast hword).2 (.inr hnext))
    have hmap := ofProgression_of_not_stop w hstep hcount hstop hlast
    rw [word_of_isWord hnext] at hmap
    refine ⟨⟨Int64.ofInt _, Int64.ofInt _, _, hne⟩, hmap, ?_⟩
    rw [heq, toInt_ofInt hfirst, toInt_ofInt hnext, terms_eq_stepping]
    exact stepping_of_getLast? (terms_eq_stepping s p ▸ hlast)

end Slice

end ObjectSpace
