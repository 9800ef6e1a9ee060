import ObjectSpace.Progression
import ObjectSpace.Proofs.Number.Exact

/-!
# Stepping and progressions

`stepping start stop step` lists the integers `start`, `start + step`, ... as long as they lie
strictly before `stop` in the direction of `step`. It is what progressions and slices are about. The
closed count of the code is the length of that list (`stepping_eq_map`), and all of the list lies
between `start` and `stop` (`between_of_mem`), so no term of a progression leaves a word.
-/

namespace ObjectSpace

/-- `n` lies strictly before `stop` in the direction of `step`. -/
def Before (stop step n : ℤ) : Prop := 0 < step ∧ n < stop ∨ step < 0 ∧ stop < n

instance (stop step n : ℤ) : Decidable (Before stop step n) :=
  inferInstanceAs (Decidable (_ ∨ _))

/-- The integers `n`, `n + step`, ... as long as they lie strictly before `stop`. -/
def stepping (n stop step : ℤ) : List ℤ :=
  if _h : Before stop step n then n :: stepping (n + step) stop step else []
termination_by (if 0 < step then stop - n else n - stop).toNat
decreasing_by
  rcases _h with h | h
  · rw [if_pos h.1, if_pos h.1]
    omega
  · rw [if_neg (by omega), if_neg (by omega)]
    omega

variable {start stop step n : ℤ} {i j k : ℕ}

theorem stepping_of_before (h : Before stop step n) :
    stepping n stop step = n :: stepping (n + step) stop step := by
  rw [stepping, dif_pos h]

theorem stepping_of_not_before (h : ¬ Before stop step n) : stepping n stop step = [] := by
  rw [stepping, dif_neg h]

/-! ## The count -/

namespace Progression

/-- A step backwards is a step forwards between the opposite numbers. -/
theorem count_neg (h : step ≠ 0) : count (-start) (-stop) (-step) = count start stop step := by
  have h₁ : -stop - -start - 1 = start - stop - 1 := by ring
  have h₂ : -start - -stop - 1 = stop - start - 1 := by ring
  rcases lt_or_gt_of_ne h with h | h
  · have hpos : 0 < -step := by omega
    rw [count, if_pos hpos, count, if_neg h.not_gt, h₁]
    simp only [neg_lt_neg_iff]
  · have hneg : ¬ 0 < -step := by omega
    rw [count, if_neg hneg, count, if_pos h, h₂, neg_neg]
    simp only [neg_lt_neg_iff]

theorem count_of_not_before (hs : step ≠ 0) (h : ¬ Before stop step n) :
    count n stop step = 0 := by
  unfold Before at h
  rw [count]
  split
  · rw [if_neg (by omega)]
  · rw [if_neg (by omega)]

theorem count_of_before (h : Before stop step n) :
    count n stop step = count (n + step) stop step + 1 := by
  -- it is enough to step forwards
  wlog hpos : 0 < step generalizing n stop step
  · have hneg : step < 0 := by
      unfold Before at h
      omega
    have hmirror : Before (-stop) (-step) (-n) := by
      unfold Before at h ⊢
      omega
    have hcount := this hmirror (by omega)
    rwa [count_neg hneg.ne, ← neg_add, count_neg hneg.ne] at hcount
  have hlt : n < stop := by
    unfold Before at h
    omega
  rw [count, count, if_pos hpos, if_pos hpos, if_pos hlt]
  have hnonneg : 0 ≤ (stop - n - 1) / step := Int.ediv_nonneg (by omega) hpos.le
  by_cases hnext : n + step < stop
  · have hquot : (stop - (n + step) - 1) / step = (stop - n - 1) / step - 1 := by
      rw [show stop - (n + step) - 1 = stop - n - 1 + -1 * step by ring,
        Int.add_mul_ediv_right _ _ hpos.ne']
      ring
    have hnonneg' : 0 ≤ (stop - (n + step) - 1) / step := Int.ediv_nonneg (by omega) hpos.le
    rw [if_pos hnext]
    omega
  · rw [if_neg hnext, Int.ediv_eq_zero_of_lt (by omega) (by omega)]
    rfl

/-- There are no more terms than integers from `start` to `stop`. -/
theorem count_le (h : step ≠ 0) : count start stop step ≤ (stop - start).natAbs := by
  wlog hpos : 0 < step generalizing start stop step
  · have hcount : count (-start) (-stop) (-step) ≤ (-stop - -start).natAbs :=
      this (neg_ne_zero.2 h) (by omega)
    rw [count_neg h] at hcount
    omega
  rw [count, if_pos hpos]
  split
  · have hquot := Int.ediv_le_self step (a := stop - start - 1) (by omega)
    omega
  · exact Nat.zero_le _

end Progression

open Progression (count count_of_before count_of_not_before)

/-! ## The list -/

/-- The terms in closed form. -/
theorem stepping_eq_map (h : step ≠ 0) :
    stepping start stop step =
      (List.range (count start stop step)).map fun i : ℕ => start + step * i := by
  induction hc : count start stop step generalizing start with
  | zero =>
    have hnot : ¬ Before stop step start := fun hb => by
      rw [count_of_before hb] at hc
      omega
    rw [stepping_of_not_before hnot]
    rfl
  | succ k ih =>
    have hb : Before stop step start := by
      by_contra hb
      rw [count_of_not_before h hb] at hc
      omega
    rw [count_of_before hb, Nat.add_right_cancel_iff] at hc
    rw [stepping_of_before hb, ih hc, List.range_succ_eq_map, List.map_cons, List.map_map]
    congr 1
    · simp
    · refine List.map_congr_left fun i _ => ?_
      simp only [Function.comp_apply, Nat.succ_eq_add_one]
      push_cast
      ring

theorem length_stepping (h : step ≠ 0) :
    (stepping start stop step).length = count start stop step := by
  rw [stepping_eq_map h, List.length_map, List.length_range]

theorem getElem?_stepping (h : step ≠ 0) (hi : i < count start stop step) :
    (stepping start stop step)[i]? = some (start + step * i) := by
  rw [stepping_eq_map h, List.getElem?_map, List.getElem?_range hi]
  rfl

theorem mem_stepping (h : step ≠ 0) : n ∈ stepping start stop step ↔
    ∃ i < count start stop step, start + step * (i : ℕ) = n := by
  rw [stepping_eq_map h]
  simp

/-- Between the first term and the bound, the first term included. -/
theorem between_of_mem (h : n ∈ stepping start stop step) :
    0 < step ∧ start ≤ n ∧ n < stop ∨ step < 0 ∧ stop < n ∧ n ≤ start := by
  fun_induction stepping start stop step with
  | case1 m hb ih =>
    unfold Before at hb
    rcases List.mem_cons.1 h with rfl | h
    · omega
    · have := ih h
      omega
  | case2 => exact absurd h List.not_mem_nil

end ObjectSpace

/-!
## Progressions as lists of integers

A progression stands for the integers from its start by its step strictly before its stop
(`Progression.integers`). Length, terms, membership and equality, which the code computes from the
three words, are those of that list; and all of it are words, so a term is computed as it is.
-/

namespace ObjectSpace.Progression

open Integer (IsWord isWord_toInt toInt_eq_zero)

variable {p q : Progression} {n : ℤ} {i : ℕ}

/-- The integers that a progression stands for. -/
def integers (p : Progression) : List ℤ := stepping p.start.toInt p.stop.toInt p.step.toInt

theorem step_toInt_ne_zero (p : Progression) : p.step.toInt ≠ 0 :=
  mt toInt_eq_zero.1 p.step_ne_zero

theorem length_eq (p : Progression) : p.length = p.integers.length :=
  (length_stepping p.step_toInt_ne_zero).symm

theorem integers_eq_map (p : Progression) :
    p.integers = (List.range p.length).map fun i : ℕ => p.term i :=
  stepping_eq_map p.step_toInt_ne_zero

/-- The length of a progression is less than the number of words. -/
theorem length_lt (p : Progression) : p.length < 2 ^ 64 := by
  have hcount : p.length ≤ _ := count_le p.step_toInt_ne_zero
  have hstart := isWord_toInt p.start
  have hstop := isWord_toInt p.stop
  unfold IsWord at hstart hstop
  omega

/-- A term lies between start and stop, so it is a word. -/
theorem isWord_of_mem (h : n ∈ p.integers) : IsWord n := by
  have hbetween := between_of_mem h
  have hstart := isWord_toInt p.start
  have hstop := isWord_toInt p.stop
  unfold IsWord at hstart hstop ⊢
  omega

theorem getElem?_integers (h : i < p.length) : p.integers[i]? = some (p.term i) :=
  getElem?_stepping p.step_toInt_ne_zero h

theorem isWord_term (h : i < p.length) : IsWord (p.term i) :=
  isWord_of_mem (List.mem_of_getElem? (getElem?_integers h))

/-- A term as a word is the term. -/
theorem toInt_nth (h : p.integers[i]? = some n) : (p.nth i).toInt = n := by
  have hi : i < p.length := p.length_eq ▸ (List.getElem?_eq_some_iff.1 h).1
  rw [getElem?_integers hi] at h
  rw [nth, Integer.toInt_ofInt (isWord_term hi), Option.some.inj h]

/-- Counted from the last term back, the terms are those of the opposite step. -/
theorem term_back (p : Progression) (h : i < p.length) :
    p.term (p.length - 1 : ℕ) + -p.step.toInt * i = p.term (p.length - 1 - i : ℕ) := by
  rw [term, term, Nat.cast_sub (by omega : i ≤ p.length - 1)]
  ring

theorem reverse_integers (p : Progression) : p.integers.reverse =
    (List.range p.length).map fun i : ℕ => p.term (p.length - 1 : ℕ) + -p.step.toInt * i := by
  refine List.ext_getElem (by simp [← length_eq]) fun i h _ => ?_
  have hi : i < p.length := by simpa [← length_eq] using h
  rw [List.getElem_map, List.getElem_range, term_back p hi, List.getElem_reverse]
  refine List.getElem_eq_iff _ |>.2 ?_
  rw [← length_eq]
  exact getElem?_integers (by omega)

/-- The test by divisibility finds the terms. -/
theorem contains_iff {n : Int64} : p.contains n = true ↔ n.toInt ∈ p.integers := by
  have hstep := p.step_toInt_ne_zero
  have hmem : n.toInt ∈ p.integers ↔
      ∃ i < p.length, p.start.toInt + p.step.toInt * (i : ℕ) = n.toInt :=
    mem_stepping hstep
  rw [hmem, contains, decide_eq_true_iff]
  constructor
  · rintro ⟨-, hdvd, hnonneg, hlt⟩
    refine ⟨((n.toInt - p.start.toInt) / p.step.toInt).toNat, by omega, ?_⟩
    rw [Int.toNat_of_nonneg hnonneg, Int.mul_ediv_cancel' (Int.dvd_of_emod_eq_zero hdvd)]
    ring
  · rintro ⟨i, hi, heq⟩
    have hoffset : n.toInt - p.start.toInt = p.step.toInt * i := by omega
    rw [hoffset, Int.mul_ediv_cancel_left _ hstep, Int.mul_emod_right]
    exact ⟨by omega, rfl, Int.natCast_nonneg i, by omega⟩

/-- Two progressions that are found equal have the same terms, and the other way round: the first
term is the start and the second one tells the step. -/
theorem sameTerms_iff : p.sameTerms q = true ↔ p.integers = q.integers := by
  rw [sameTerms, decide_eq_true_iff]
  constructor
  · rintro ⟨hlen, h⟩
    rw [integers_eq_map, integers_eq_map, hlen]
    refine List.map_congr_left fun i hi => ?_
    rw [List.mem_range] at hi
    rcases h with h | ⟨hstart, h | hstep⟩
    · omega
    · obtain rfl : i = 0 := by omega
      simp [term, hstart]
    · rw [term, term, hstart, hstep]
  · intro h
    have hlen : p.length = q.length := by rw [length_eq, length_eq, h]
    have hterm : ∀ i : ℕ, i < p.length → p.term i = q.term i := by
      intro i hi
      have hp := getElem?_integers hi
      rw [h, getElem?_integers (hlen ▸ hi)] at hp
      exact (Option.some.inj hp).symm
    refine ⟨hlen, or_iff_not_imp_left.2 fun hzero => ?_⟩
    have h₀ := hterm 0 (by omega)
    simp only [term, Nat.cast_zero, mul_zero, add_zero] at h₀
    refine ⟨Int64.toInt_inj.1 h₀, or_iff_not_imp_left.2 fun hone => ?_⟩
    have h₁ := hterm 1 (by omega)
    simp only [term, Nat.cast_one, mul_one, h₀] at h₁
    exact Int64.toInt_inj.1 (by omega)

end ObjectSpace.Progression
