import ObjectSpace.Integer
import Mathlib.Data.Int.Bitwise
import Mathlib.Data.Nat.Bitwise
import Mathlib.Data.Rat.Floor

/-!
# Integer operators over the integers

What the operators on integers stand for: functions on the integers (`BinaryOp.exact?`,
`UnaryOp.exact?`), with the second operands that they refuse (`BinaryOp.refusal?`). On words they
compute just that and check the result (`Integer.binary?_admitted`).

Most operators get there in another way. Quotients and remainders are corrected after a division
toward zero, and the correction stays within a word (`floorDiv_exact`, `floorMod_exact`). Repeated
squaring leaves a word only when the power does (`powLoop_eq`): a product that no word can hold
stays so when it is multiplied further, and neither can a word hold the negative of a square that
is too large, since `2 ^ 63` is no square. A shift to the left that lost bits does not come back
(`shiftLeft_exact`). The bitwise operators work on the bits of two's complement.
-/

namespace ObjectSpace

/-! ## The operators over the integers -/

/-- What a binary operator computes over the integers; none for the operators that integers do not
have. Quotients are rounded to the floor, and bitwise operators are those of two's complement. -/
def BinaryOp.exact? : BinaryOp → Option (ℤ → ℤ → ℤ)
  | add => some fun a b => a + b
  | sub => some fun a b => a - b
  | mul => some fun a b => a * b
  | floorDiv => some fun a b => ⌊(a / b : ℚ)⌋
  | mod => some fun a b => a - b * ⌊(a / b : ℚ)⌋
  | pow => some fun a b => a ^ b.toNat
  | shiftLeft => some fun a b => a * 2 ^ b.toNat
  | shiftRight => some fun a b => ⌊(a / 2 ^ b.toNat : ℚ)⌋
  | and => some Int.land
  | or => some Int.lor
  | xor => some Int.xor
  | trueDiv | divmod => none

/-- Why a binary operator does not admit its second operand; none if it does. -/
def BinaryOp.refusal? (b : ℤ) : BinaryOp → Option Diagnostic
  | floorDiv | mod => if b = 0 then some .divisionByZero else none
  | pow => if b < 0 then some .negativeExponent else none
  | shiftLeft | shiftRight => if b < 0 then some .negativeShift else none
  | _ => none

/-- What a unary operator computes over the integers; none for negation of truth. -/
def UnaryOp.exact? : UnaryOp → Option (ℤ → ℤ)
  | neg => some fun a => -a
  | pos => some fun a => a
  | invert => some Int.lnot
  | not => none

namespace Integer

/-- A word can hold `n`. -/
def IsWord (n : ℤ) : Prop := -2 ^ 63 ≤ n ∧ n < 2 ^ 63

variable {n : ℤ} {w : Int64} {a b : ℤ} {operation : String}

/-! ## Checked results -/

theorem isWord_toInt (w : Int64) : IsWord w.toInt := ⟨w.le_toInt, w.toInt_lt⟩

theorem toInt_ofInt (h : IsWord n) : (Int64.ofInt n).toInt = n :=
  Int64.toInt_ofInt_of_le h.1 h.2

theorem range_iff : Int64.minValue.toInt ≤ n ∧ n ≤ Int64.maxValue.toInt ↔ IsWord n := by
  rw [Int64.toInt_minValue, Int64.toInt_maxValue, IsWord]
  omega

theorem ofInt?_of_isWord (h : IsWord n) : ofInt? n = some (Int64.ofInt n) := by
  rw [ofInt?, if_pos (range_iff.2 h)]

theorem ofInt?_of_not_isWord (h : ¬ IsWord n) : ofInt? n = none := by
  rw [ofInt?, if_neg (mt range_iff.1 h)]

theorem ofInt?_toInt (w : Int64) : ofInt? w.toInt = some w := by
  rw [ofInt?_of_isWord (isWord_toInt w), Int64.ofInt_toInt]

theorem ofInt?_eq_some : ofInt? n = some w ↔ w.toInt = n := by
  constructor
  · intro h
    by_cases hn : IsWord n
    · rw [ofInt?_of_isWord hn] at h
      rw [← Option.some.inj h, toInt_ofInt hn]
    · rw [ofInt?_of_not_isWord hn] at h
      cases h
  · rintro rfl
    exact ofInt?_toInt w

theorem ofInt?_eq_none : ofInt? n = none ↔ ¬ IsWord n := by
  refine ⟨fun h hn => ?_, ofInt?_of_not_isWord⟩
  rw [ofInt?_of_isWord hn] at h
  cases h

theorem checked_toInt (operation : String) (w : Int64) : checked operation w.toInt = .ok w := by
  rw [checked, ofInt?_toInt, orOverflow]

theorem checked_of_isWord (operation : String) (h : IsWord n) :
    checked operation n = .ok (Int64.ofInt n) := by
  rw [checked, ofInt?_of_isWord h, orOverflow]

theorem checked_of_not_isWord (operation : String) (h : ¬ IsWord n) :
    checked operation n = .error (.integerOverflow operation) := by
  rw [checked, ofInt?_of_not_isWord h, orOverflow]

theorem checked_eq_ok : checked operation n = .ok w ↔ w.toInt = n := by
  constructor
  · intro h
    by_cases hn : IsWord n
    · rw [checked_of_isWord operation hn] at h
      rw [← Except.ok.inj h, toInt_ofInt hn]
    · rw [checked_of_not_isWord operation hn] at h
      cases h
  · rintro rfl
    exact checked_toInt operation w

/-! ## Zero and signs -/

theorem toInt_eq_zero : w.toInt = 0 ↔ w = 0 := by
  rw [← Int64.toInt_inj, Int64.toInt_zero]

theorem toInt_neg_iff : w.toInt < 0 ↔ w < 0 := by
  rw [Int64.lt_iff_toInt_lt, Int64.toInt_zero]

/-! ## Quotients -/

/-- Division to the floor is the floor of the quotient. -/
theorem fdiv_eq_floor (a b : ℤ) : a.fdiv b = ⌊(a / b : ℚ)⌋ := by
  -- for a negative divisor both signs are changed
  rcases le_total 0 b with hb | hb
  · obtain ⟨d, rfl⟩ := Int.eq_ofNat_of_zero_le hb
    rw [Int.fdiv_eq_ediv_of_nonneg _ hb, Int.cast_natCast, Rat.floor_intCast_div_natCast]
  · obtain ⟨d, hd⟩ := Int.eq_ofNat_of_zero_le (Int.neg_nonneg.2 hb)
    obtain rfl : b = -d := by omega
    rw [← Int.neg_fdiv_neg, neg_neg, Int.fdiv_eq_ediv_of_nonneg _ (Int.natCast_nonneg d),
      ← Rat.floor_intCast_div_natCast, Int.cast_neg, Int.cast_neg, Int.cast_natCast, div_neg,
      neg_div]

theorem fmod_eq_floor (a b : ℤ) : a.fmod b = a - b * ⌊(a / b : ℚ)⌋ := by
  rw [Int.fmod_def, fdiv_eq_floor]

/-- A remainder of the division toward zero has the sign of the dividend. -/
theorem tmod_neg_iff (h : a.tmod b ≠ 0) : a.tmod b < 0 ↔ a < 0 := by
  rcases le_or_gt 0 a with ha | ha
  · exact iff_of_false (Int.tmod_nonneg b ha).not_gt ha.not_gt
  · have hle := Int.tmod_nonneg b (Int.neg_nonneg.2 ha.le)
    rw [Int.neg_tmod] at hle
    exact iff_of_true (by omega) ha

/-- The floor of a quotient is one less than the quotient rounded toward zero, if something is left
over and the signs differ. -/
theorem fdiv_eq_corrected (hb : b ≠ 0) :
    a.fdiv b = if a.tmod b ≠ 0 ∧ ¬ (a < 0 ↔ b < 0) then a.tdiv b - 1 else a.tdiv b := by
  simp only [Int.fdiv_eq_tdiv, Int.dvd_iff_tmod_eq_zero]
  rcases lt_or_gt_of_ne hb with hb | hb
  · rw [Int.sign_eq_neg_one_of_neg hb]
    split_ifs <;> omega
  · rw [Int.sign_eq_one_of_pos hb]
    split_ifs <;> omega

/-- What division to the floor leaves over is more by the divisor than what division toward zero
leaves over, if that has another sign. -/
theorem fmod_eq_corrected (a b : ℤ) :
    a.fmod b = if a.tmod b ≠ 0 ∧ ¬ (a.tmod b < 0 ↔ b < 0) then a.tmod b + b else a.tmod b := by
  simp only [Int.fmod_eq_tmod, Int.dvd_iff_tmod_eq_zero]
  by_cases hr : a.tmod b = 0
  · rw [if_pos hr, if_neg (fun h => h.1 hr), add_zero]
  · have hsign := tmod_neg_iff hr
    split_ifs <;> omega

theorem natAbs_fdiv_le (a b : ℤ) : (a.fdiv b).natAbs ≤ a.natAbs := by
  rcases le_total 0 b with hb | hb
  · rw [Int.fdiv_eq_ediv_of_nonneg _ hb]
    exact Int.natAbs_ediv_le_natAbs a b
  · rw [← Int.neg_fdiv_neg, Int.fdiv_eq_ediv_of_nonneg _ (Int.neg_nonneg.2 hb), ← Int.natAbs_neg a]
    exact Int.natAbs_ediv_le_natAbs _ _

theorem toInt_one : (1 : Int64).toInt = 1 := by decide

theorem toInt_neg_one : (-1 : Int64).toInt = -1 := by decide

/-- The quotient of the least integer by minus one is no word, and nothing is left over. -/
theorem toInt_of_undivided {a b : Int64} (h : Undivided a b) (hb : b ≠ 0) :
    a.toInt = -2 ^ 63 ∧ b.toInt = -1 := by
  obtain ⟨rfl, rfl⟩ := h.resolve_left hb
  exact ⟨by decide, toInt_neg_one⟩

theorem toInt_div_of_divided {a b : Int64} (h : ¬ Undivided a b) :
    (a / b).toInt = a.toInt.tdiv b.toInt := by
  rcases not_and_or.1 (not_or.1 h).2 with ha | hb
  · exact Int64.toInt_div_of_ne_left a b ha
  · exact Int64.toInt_div_of_ne_right a b hb

theorem toInt_checkedRem (a : Int64) {b : Int64} (hb : b ≠ 0) :
    ((checkedRem a b).getD 0).toInt = a.toInt.tmod b.toInt := by
  rw [checkedRem]
  by_cases hdiv : Undivided a b
  · obtain ⟨ha, hb⟩ := toInt_of_undivided hdiv hb
    rw [if_pos hdiv, ha, hb]
    decide
  · rw [if_neg hdiv, Option.getD_some, Int64.toInt_mod]

theorem floorDiv_exact (a : Int64) {b : Int64} (hb : b.toInt ≠ 0) :
    floorDiv a b = checked "floordiv" ⌊(a.toInt / b.toInt : ℚ)⌋ := by
  have hzero := mt toInt_eq_zero.2 hb
  rw [floorDiv, if_neg hzero, ← fdiv_eq_floor, checkedDiv]
  by_cases hdiv : Undivided a b
  · obtain ⟨ha, hb⟩ := toInt_of_undivided hdiv hzero
    rw [if_pos hdiv, ha, hb, checked_of_not_isWord _ (by unfold IsWord; decide)]
    rfl
  rw [if_neg hdiv]
  symm
  refine checked_eq_ok.2 ?_
  have hq := toInt_div_of_divided hdiv
  have hcond : (a % b ≠ 0 ∧ ¬ (a < 0 ↔ b < 0)) ↔
      a.toInt.tmod b.toInt ≠ 0 ∧ ¬ (a.toInt < 0 ↔ b.toInt < 0) := by
    rw [toInt_neg_iff, toInt_neg_iff, ← Int64.toInt_mod, ne_eq, ne_eq, toInt_eq_zero]
  have hfloor := fdiv_eq_corrected (a := a.toInt) hb
  by_cases h : a % b ≠ 0 ∧ ¬ (a < 0 ↔ b < 0)
  · -- one less than the quotient still is a word, since the floor is not larger than the dividend
    have habs := natAbs_fdiv_le a.toInt b.toInt
    have ha := isWord_toInt a
    have hword := isWord_toInt (a / b)
    unfold IsWord at ha hword
    rw [if_pos (hcond.1 h), ← hq] at hfloor
    rw [if_pos h, hfloor, Int64.toInt_sub, toInt_one]
    exact Int.bmod_eq_of_le (by omega) (by omega)
  · rw [if_neg h, hfloor, if_neg (mt hcond.2 h), hq]

theorem floorMod_exact (a : Int64) {b : Int64} (hb : b.toInt ≠ 0) :
    floorMod a b = checked "mod" (a.toInt - b.toInt * ⌊(a.toInt / b.toInt : ℚ)⌋) := by
  have hzero := mt toInt_eq_zero.2 hb
  have hr := toInt_checkedRem a hzero
  rw [floorMod, if_neg hzero, ← fmod_eq_floor, fmod_eq_corrected, ← hr]
  generalize (checkedRem a b).getD 0 = r at hr ⊢
  symm
  refine checked_eq_ok.2 ?_
  have hcond : (r ≠ 0 ∧ ¬ (r < 0 ↔ b < 0)) ↔ r.toInt ≠ 0 ∧ ¬ (r.toInt < 0 ↔ b.toInt < 0) := by
    rw [toInt_neg_iff, toInt_neg_iff, ne_eq, ne_eq, toInt_eq_zero]
  by_cases h : r ≠ 0 ∧ ¬ (r < 0 ↔ b < 0)
  · -- a sum of words of different signs is a word
    have hsigns := (hcond.1 h).2
    have hr := isWord_toInt r
    have hb := isWord_toInt b
    unfold IsWord at hr hb
    rw [if_pos h, if_pos (hcond.1 h), Int64.toInt_add]
    exact Int.bmod_eq_of_le (by omega) (by omega)
  · rw [if_neg h, if_neg (mt hcond.2 h)]

/-! ## Powers -/

theorem not_neg_of_toInt {b : Int64} (hb : 0 ≤ b.toInt) : ¬ b < 0 := by
  rw [← toInt_neg_iff]
  exact hb.not_gt

theorem not_isWord_of_le_natAbs (h : 2 ^ 64 ≤ n.natAbs) : ¬ IsWord n := by
  unfold IsWord
  omega

/-- A power is that of the square, and once more the base if the exponent is odd. -/
theorem mul_pow_eq (a b : ℤ) (k : ℕ) : a * b ^ k = a * b ^ (k % 2) * (b * b) ^ (k / 2) := by
  rw [mul_assoc, ← pow_two, ← pow_mul, ← pow_add, Nat.mod_add_div]

/-- What no word can hold, no word can hold when it is multiplied further. -/
theorem not_isWord_mul (h : ¬ IsWord a) (hb : 1 ≤ b) : ¬ IsWord (a * b) := by
  unfold IsWord at h ⊢
  rcases lt_or_ge a 0 with ha | ha
  · have : a * b ≤ a * 1 := mul_le_mul_of_nonpos_left hb ha.le
    omega
  · have : a * 1 ≤ a * b := mul_le_mul_of_nonneg_left hb ha
    omega

/-- No square is the least integer that is too large for a word. -/
theorem sq_ne_two_pow (b : ℤ) : b * b ≠ 2 ^ 63 := by
  intro h
  rcases le_or_gt b.natAbs 3037000499 with hb | hb
  · have hle := Nat.mul_le_mul hb hb
    rw [← Int.natAbs_mul_self] at h
    omega
  · have hle := Nat.mul_le_mul (Nat.succ_le_of_lt hb) (Nat.succ_le_of_lt hb)
    rw [← Int.natAbs_mul_self] at h
    omega

/-- Where no word can hold a square, none can hold a power of it or a multiple, negative or not. -/
theorem not_isWord_mul_sq_pow {k : ℕ} (h : ¬ IsWord (b * b)) (ha : a ≠ 0) (hk : k ≠ 0) :
    ¬ IsWord (a * (b * b) ^ k) := by
  have hne := sq_ne_two_pow b
  have hsq : 2 ^ 63 < b * b := by
    have := mul_self_nonneg b
    unfold IsWord at h
    omega
  have hpow : b * b ≤ (b * b) ^ k := le_self_pow₀ (by omega) hk
  unfold IsWord
  rcases lt_or_gt_of_ne ha with ha | ha
  · have : a * (b * b) ^ k ≤ -1 * (b * b) ^ k :=
      mul_le_mul_of_nonneg_right (by omega) (by omega)
    omega
  · have : 1 * (b * b) ^ k ≤ a * (b * b) ^ k :=
      mul_le_mul_of_nonneg_right (by omega) (by omega)
    omega

/-- **Repeated squaring.** It gives the power, if a word can hold it. The loop keeps the product of
`acc` and the power of `base` that is still to come, and `acc` is zero only if `base` is. -/
theorem powLoop_eq {base acc : Int64} {k : ℕ} (hacc : base.toInt ≠ 0 → acc.toInt ≠ 0) :
    powLoop base acc k = ofInt? (acc.toInt * base.toInt ^ k) := by
  induction k using Nat.strong_induction_on generalizing base acc with
  | _ k ih =>
    rcases k with _ | n
    · rw [powLoop, pow_zero, mul_one, ofInt?_toInt]
    have hproduct : (if (n + 1) % 2 = 1 then checkedMul acc base else some acc) =
        ofInt? (acc.toInt * base.toInt ^ ((n + 1) % 2)) := by
      rcases Nat.mod_two_eq_zero_or_one (n + 1) with h | h
      · rw [h, if_neg (by decide), pow_zero, mul_one, ofInt?_toInt]
      · rw [h, if_pos rfl, pow_one, checkedMul]
    rw [powLoop, hproduct, mul_pow_eq acc.toInt base.toInt (n + 1)]
    rcases hfirst : ofInt? (acc.toInt * base.toInt ^ ((n + 1) % 2)) with _ | product
    · -- the base is not zero, so its square is at least one
      have hlarge := ofInt?_eq_none.1 hfirst
      have hbase : base.toInt ≠ 0 := by
        intro hz
        rw [hz] at hlarge
        rcases Nat.mod_two_eq_zero_or_one (n + 1) with h | h <;> rw [h] at hlarge
        · exact hlarge (by simpa using isWord_toInt acc)
        · exact hlarge (by simp [IsWord])
      have hsq : 1 ≤ base.toInt * base.toInt := mul_self_pos.2 hbase
      exact (ofInt?_of_not_isWord (not_isWord_mul hlarge (one_le_pow₀ hsq))).symm
    have heq := ofInt?_eq_some.1 hfirst
    rw [← heq, Option.bind_some]
    by_cases hn : n = 0
    · subst hn
      rw [if_pos rfl, Nat.div_eq_of_lt (by decide), pow_zero, mul_one, ofInt?_toInt]
    rw [if_neg hn, checkedMul]
    have hzero : base.toInt ≠ 0 → product.toInt ≠ 0 := fun h =>
      heq ▸ mul_ne_zero (hacc h) (pow_ne_zero _ h)
    rcases hsquare : ofInt? (base.toInt * base.toInt) with _ | square
    · have hlarge := ofInt?_eq_none.1 hsquare
      have hbase : base.toInt ≠ 0 := fun hz => hlarge (by simp [hz, IsWord])
      have hhalf : (n + 1) / 2 ≠ 0 := by omega
      exact (ofInt?_of_not_isWord (not_isWord_mul_sq_pow hlarge (hzero hbase) hhalf)).symm
    · have hsq := ofInt?_eq_some.1 hsquare
      rw [Option.bind_some, ih _ (by omega) fun h => hzero (left_ne_zero_of_mul (hsq ▸ h)), hsq]

/-- An exponent that is not multiplied up is larger than the length of a word. -/
theorem le_toNat_of_maxExponent {b : Int64} (h : ¬ b ≤ maxExponent) : 64 ≤ b.toInt.toNat := by
  have hmax : maxExponent.toInt = 4294967295 := by decide
  rw [Int64.le_iff_toInt_le, hmax] at h
  omega

theorem neg_one_pow_eq (b : Int64) (hb : 0 ≤ b.toInt) :
    (-1 : ℤ) ^ b.toInt.toNat = (if b % 2 = 0 then 1 else -1 : Int64).toInt := by
  have htwo : (2 : Int64).toInt = 2 := by decide
  have hparity : b % 2 = 0 ↔ b.toInt.toNat % 2 = 0 := by
    rw [← toInt_eq_zero, Int64.toInt_mod, htwo, Int.tmod_eq_emod_of_nonneg hb]
    omega
  rcases Nat.even_or_odd b.toInt.toNat with h | h
  · rw [h.neg_one_pow, if_pos (hparity.2 (Nat.even_iff.1 h)), toInt_one]
  · rw [h.neg_one_pow, if_neg (mt hparity.1 (by rw [Nat.odd_iff.1 h]; decide)), toInt_neg_one]

theorem pow_exact (a : Int64) {b : Int64} (hb : 0 ≤ b.toInt) :
    pow a b = checked "pow" (a.toInt ^ b.toInt.toNat) := by
  rw [pow, if_neg (not_neg_of_toInt hb)]
  by_cases hmax : b ≤ maxExponent
  · have hone : (1 : Int64).toInt ≠ 0 := by decide
    rw [if_pos hmax, checkedPow, powLoop_eq fun _ => hone, toInt_one, one_mul, checked]
  rw [if_neg hmax]
  have hlong := le_toNat_of_maxExponent hmax
  have hpos : b.toInt.toNat ≠ 0 := by omega
  symm
  by_cases hbit : a = 0 ∨ a = 1
  · rw [if_pos hbit]
    rcases hbit with rfl | rfl
    · rw [Int64.toInt_zero, zero_pow hpos]
      exact checked_toInt "pow" 0
    · rw [toInt_one, one_pow]
      exact checked_toInt "pow" 1
  rw [if_neg hbit]
  by_cases hneg : a = -1
  · rw [if_pos hneg, hneg, toInt_neg_one, neg_one_pow_eq b hb, checked_toInt]
  rw [if_neg hneg]
  have habs : 2 ≤ a.toInt.natAbs := by
    simp only [← Int64.toInt_inj, Int64.toInt_zero, toInt_one, toInt_neg_one] at hbit hneg
    omega
  refine checked_of_not_isWord "pow" (not_isWord_of_le_natAbs ?_)
  rw [Int.natAbs_pow]
  calc 2 ^ 64 ≤ 2 ^ b.toInt.toNat := Nat.pow_le_pow_right two_pos hlong
    _ ≤ a.toInt.natAbs ^ b.toInt.toNat := Nat.pow_le_pow_left habs _

/-! ## Shifts -/

theorem wordLength_le_iff {b : Int64} : 64 ≤ b ↔ 64 ≤ b.toInt := by
  rw [Int64.le_iff_toInt_le, show (64 : Int64).toInt = 64 by decide]

theorem le_toNat_of_le {b : Int64} (h : 64 ≤ b) : 64 ≤ b.toInt.toNat := by
  rw [wordLength_le_iff] at h
  omega

theorem toNat_le_of_not_le {b : Int64} (h : ¬ 64 ≤ b) : b.toInt.toNat ≤ 64 := by
  rw [wordLength_le_iff] at h
  omega

theorem toNat_smod {b : Int64} (hb : 0 ≤ b.toInt) (hlt : ¬ 64 ≤ b) :
    (b.toBitVec.smod 64).toNat = b.toInt.toNat := by
  rw [wordLength_le_iff] at hlt
  have hsmod : (b.toBitVec.smod 64).toInt = b.toInt := by
    rw [BitVec.toInt_smod, Int64.toInt_toBitVec, show (64 : BitVec 64).toInt = 64 by decide]
    exact Int.fmod_eq_of_lt hb (by omega)
  have hcond := BitVec.toInt_eq_toNat_cond (b.toBitVec.smod 64)
  have hlt := (b.toBitVec.smod 64).isLt
  rw [hsmod] at hcond
  split at hcond <;> omega

/-- A shift to the left keeps what remains modulo the length of a word. -/
theorem toInt_shiftLeft {a b : Int64} (hb : 0 ≤ b.toInt) (hlt : ¬ 64 ≤ b) :
    (a <<< b).toInt = (a.toInt * 2 ^ b.toInt.toNat).bmod (2 ^ 64) := by
  have ha : a.toInt = (a.toBitVec.toNat : ℤ).bmod (2 ^ 64) := BitVec.toInt_eq_toNat_bmod a.toBitVec
  rw [← Int64.toInt_toBitVec, Int64.toBitVec_shiftLeft, BitVec.shiftLeft_eq', toNat_smod hb hlt,
    BitVec.toInt_shiftLeft, Nat.shiftLeft_eq, ha, Int.bmod_mul_bmod]
  push_cast
  rfl

theorem toInt_shiftRight {a b : Int64} (hb : 0 ≤ b.toInt) (hlt : ¬ 64 ≤ b) :
    (a >>> b).toInt = a.toInt / 2 ^ b.toInt.toNat := by
  rw [← Int64.toInt_toBitVec, Int64.toBitVec_shiftRight, BitVec.sshiftRight', toNat_smod hb hlt,
    BitVec.toInt_sshiftRight, Int64.toInt_toBitVec, Int.shiftRight_eq_div_pow]
  push_cast
  rfl

/-- What comes back after it was cut to a word had not lost anything. -/
theorem isWord_of_shifted_back {k : ℕ} (hk : k ≤ 64)
    (h : (a * 2 ^ k).bmod (2 ^ 64) / 2 ^ k = a) : IsWord (a * 2 ^ k) := by
  have hpos : (2 : ℤ) ^ k ≠ 0 := pow_ne_zero k two_ne_zero
  have hpow : ((2 ^ 64 : ℕ) : ℤ) = 2 ^ (64 - k) * 2 ^ k := by
    rw [← pow_add, Nat.sub_add_cancel hk]
    rfl
  have hcut : (a * 2 ^ k).bmod (2 ^ 64) =
      (a - 2 ^ (64 - k) * (a * 2 ^ k).bdiv (2 ^ 64)) * 2 ^ k := by
    rw [Int.bmod_eq_self_sub_mul_bdiv, hpow]
    ring
  have hsame : (a * 2 ^ k).bmod (2 ^ 64) = a * 2 ^ k := by
    rw [hcut, Int.mul_ediv_cancel _ hpos] at h
    rw [hcut, h]
  have hle := Int.le_bmod (x := a * 2 ^ k) (m := 2 ^ 64) (by decide)
  have hlt := Int.bmod_lt (x := a * 2 ^ k) (m := 2 ^ 64) (by decide)
  rw [hsame] at hle hlt
  unfold IsWord
  omega

theorem shiftLeft_exact (a : Int64) {b : Int64} (hb : 0 ≤ b.toInt) :
    shiftLeft a b = checked "lshift" (a.toInt * 2 ^ b.toInt.toNat) := by
  rw [shiftLeft, if_neg (not_neg_of_toInt hb)]
  by_cases hzero : a = 0
  · rw [if_pos hzero, hzero, Int64.toInt_zero, zero_mul]
    exact (checked_toInt "lshift" 0).symm
  rw [if_neg hzero]
  by_cases hlong : 64 ≤ b
  · rw [if_pos hlong]
    refine (checked_of_not_isWord "lshift" (not_isWord_of_le_natAbs ?_)).symm
    have ha : 0 < a.toInt.natAbs := by
      rw [← toInt_eq_zero] at hzero
      omega
    rw [Int.natAbs_mul, Int.natAbs_pow]
    calc 2 ^ 64 ≤ 2 ^ b.toInt.toNat := Nat.pow_le_pow_right two_pos (le_toNat_of_le hlong)
      _ ≤ a.toInt.natAbs * 2 ^ b.toInt.toNat := Nat.le_mul_of_pos_left _ ha
  rw [if_neg hlong]
  have hleft := toInt_shiftLeft (a := a) hb hlong
  have hback := toInt_shiftRight (a := a <<< b) hb hlong
  by_cases hword : IsWord (a.toInt * 2 ^ b.toInt.toNat)
  · have hpos : (2 : ℤ) ^ b.toInt.toNat ≠ 0 := pow_ne_zero _ two_ne_zero
    rw [Int.bmod_eq_of_le hword.1 hword.2] at hleft
    have hsame : a <<< b >>> b = a := by
      rw [← Int64.toInt_inj, hback, hleft, Int.mul_ediv_cancel _ hpos]
    exact (if_neg (not_not.2 hsame)).trans (checked_eq_ok.2 hleft).symm
  · have hother : a <<< b >>> b ≠ a := by
      intro hsame
      rw [hsame, hleft] at hback
      exact hword (isWord_of_shifted_back (toNat_le_of_not_le hlong) hback.symm)
    exact (if_pos hother).trans (checked_of_not_isWord _ hword).symm

theorem floor_div_two_pow (a : ℤ) (k : ℕ) : ⌊(a / 2 ^ k : ℚ)⌋ = a / 2 ^ k := by
  rw [show (2 ^ k : ℚ) = ((2 ^ k : ℕ) : ℚ) by push_cast; rfl, Rat.floor_intCast_div_natCast]
  push_cast
  rfl

/-- Beyond the length of a word a shift leaves the sign. -/
theorem div_two_pow_of_isWord {k : ℕ} (ha : IsWord a) (hk : 64 ≤ k) :
    a / 2 ^ k = if a < 0 then -1 else 0 := by
  have hlarge : (2 ^ 64 : ℤ) ≤ 2 ^ k := pow_le_pow_right₀ (by decide) hk
  unfold IsWord at ha
  split
  · exact Int.ediv_eq_neg_one_of_neg_of_le (by omega) (by omega)
  · exact Int.ediv_eq_zero_of_lt (by omega) (by omega)

theorem shiftRight_exact (a : Int64) {b : Int64} (hb : 0 ≤ b.toInt) :
    shiftRight a b = checked "rshift" ⌊(a.toInt / 2 ^ b.toInt.toNat : ℚ)⌋ := by
  rw [shiftRight, if_neg (not_neg_of_toInt hb), floor_div_two_pow]
  symm
  by_cases hlong : 64 ≤ b
  · rw [if_pos hlong, checked_eq_ok,
      div_two_pow_of_isWord (isWord_toInt a) (le_toNat_of_le hlong)]
    simp only [← toInt_neg_iff]
    split <;> decide
  · rw [if_neg hlong, checked_eq_ok, toInt_shiftRight hb hlong]

/-! ## Bits -/

theorem testBit_toInt {k : ℕ} (w : Int64) (hk : k < 64) :
    w.toInt.testBit k = w.toBitVec.getLsbD k := by
  have hlt := w.toBitVec.isLt
  rw [← Int64.toInt_toBitVec, BitVec.toInt_eq_toNat_cond]
  by_cases hmsb : 2 * w.toBitVec.toNat < 2 ^ 64
  · rw [if_pos hmsb]
    rfl
  · -- a negative integer has the bits of the complement of its absolute value less one
    have hneg : (w.toBitVec.toNat : ℤ) - (2 ^ 64 : ℕ) =
        Int.negSucc (2 ^ 64 - (w.toBitVec.toNat + 1)) := by
      omega
    rw [if_neg hmsb, hneg, Int.testBit, Nat.testBit_two_pow_sub_succ hlt]
    simp [hk, BitVec.getLsbD]

/-- A bitwise combination of words is a word. -/
theorem isWord_bitwise (f : Bool → Bool → Bool) (ha : IsWord a) (hb : IsWord b) :
    IsWord (Int.bitwise f a b) := by
  have hnat : ∀ (g : Bool → Bool → Bool) (m k : ℕ), m < 2 ^ 63 → k < 2 ^ 63 →
      IsWord (Int.natBitwise g m k) := by
    intro g m k hm hk
    have h₁ := Nat.bitwise_lt_two_pow (f := g) hm hk
    have h₂ := Nat.bitwise_lt_two_pow (f := fun x y => !g x y) hm hk
    unfold Int.natBitwise IsWord
    cases g false false <;> simp only [cond_true, cond_false] <;> omega
  unfold IsWord at ha hb
  rcases a with m | m <;> rcases b with k | k <;> rw [Int.bitwise] <;> apply hnat <;>
    simp only [Int.ofNat_eq_natCast, Int.negSucc_eq] at ha hb <;> omega

/-- An operator that combines the bits of words combines the bits of their integers. -/
theorem toInt_of_bits {f : Bool → Bool → Bool} {a b c : Int64}
    (h : ∀ k < 64, c.toBitVec.getLsbD k = f (a.toBitVec.getLsbD k) (b.toBitVec.getLsbD k)) :
    c.toInt = Int.bitwise f a.toInt b.toInt := by
  have hw := toInt_ofInt (isWord_bitwise f (isWord_toInt a) (isWord_toInt b))
  rw [← hw]
  congr 1
  refine Int64.toBitVec_inj.1 (BitVec.eq_of_getLsbD_eq fun k hk => ?_)
  rw [h k hk, ← testBit_toInt a hk, ← testBit_toInt b hk, ← testBit_toInt _ hk, hw,
    Int.testBit_bitwise]

theorem toInt_and (a b : Int64) : (a &&& b).toInt = Int.land a.toInt b.toInt := by
  rw [← Int.bitwise_and]
  exact toInt_of_bits fun k _ => by rw [Int64.toBitVec_and, BitVec.getLsbD_and]

theorem toInt_or (a b : Int64) : (a ||| b).toInt = Int.lor a.toInt b.toInt := by
  rw [← Int.bitwise_or]
  exact toInt_of_bits fun k _ => by rw [Int64.toBitVec_or, BitVec.getLsbD_or]

theorem toInt_xor (a b : Int64) : (a ^^^ b).toInt = Int.xor a.toInt b.toInt := by
  rw [← Int.bitwise_xor]
  exact toInt_of_bits fun k _ => by rw [Int64.toBitVec_xor, BitVec.getLsbD_xor]

theorem lnot_eq (n : ℤ) : Int.lnot n = -n - 1 := by
  cases n <;> simp only [Int.lnot, Int.ofNat_eq_natCast] <;> omega

theorem toInt_not (a : Int64) : (~~~a).toInt = Int.lnot a.toInt := by
  have hword := isWord_toInt a
  unfold IsWord at hword
  rw [Int64.toInt_not, lnot_eq]
  exact Int.bmod_eq_of_le (by omega) (by omega)

/-! ## All operators -/

variable {op : BinaryOp} {f : ℤ → ℤ → ℤ} {d : Diagnostic} {x y : Int64}

theorem binary?_refused (h : op.refusal? y.toInt = some d) : binary? op x y = some (.error d) := by
  cases op <;> simp only [BinaryOp.refusal?, Option.ite_none_right_eq_some, reduceCtorEq,
    Option.some.injEq] at h
  all_goals obtain ⟨hy, rfl⟩ := h
  case floorDiv => rw [binary?, floorDiv, if_pos (toInt_eq_zero.1 hy)]
  case mod => rw [binary?, floorMod, if_pos (toInt_eq_zero.1 hy)]
  case pow => rw [binary?, pow, if_pos (toInt_neg_iff.1 hy)]
  case shiftLeft => rw [binary?, shiftLeft, if_pos (toInt_neg_iff.1 hy)]
  case shiftRight => rw [binary?, shiftRight, if_pos (toInt_neg_iff.1 hy)]

/-- With an admissible second operand an operator computes over the integers and checks the
result. -/
theorem binary?_admitted (hf : op.exact? = some f) (h : op.refusal? y.toInt = none) :
    binary? op x y = some (checked op.name (f x.toInt y.toInt)) := by
  cases op <;> cases hf <;> simp only [BinaryOp.refusal?, ite_eq_right_iff, reduceCtorEq,
    imp_false, not_lt] at h
  case add.refl | sub.refl | mul.refl => rfl
  case floorDiv.refl => exact congrArg some (floorDiv_exact x h)
  case mod.refl => exact congrArg some (floorMod_exact x h)
  case pow.refl => exact congrArg some (pow_exact x h)
  case shiftLeft.refl => exact congrArg some (shiftLeft_exact x h)
  case shiftRight.refl => exact congrArg some (shiftRight_exact x h)
  case and.refl => exact congrArg some (checked_eq_ok.2 (toInt_and x y)).symm
  case or.refl => exact congrArg some (checked_eq_ok.2 (toInt_or x y)).symm
  case xor.refl => exact congrArg some (checked_eq_ok.2 (toInt_xor x y)).symm

end Integer

end ObjectSpace
