import ObjectSpace.Arena.Bitmap
import Mathlib.Data.Nat.Count
import Mathlib.Data.Nat.Bitwise
import Mathlib.Logic.Function.Basic

/-!
# Bitmaps and the bits they hold

A bitmap of a block is determined by which slots are live: `Bitmap.ofBits slots live` has bit `i`
set when slot `i` is live or when there is no slot `i`. Each step on the words of a bitmap is the
step on the bits: clearing (`cleared_eq`), setting one (`set_ofBits`), taking the lowest clear one
(`takeFree?_ofBits`, `takeFree?_full`) and counting (`ones_ofBits`). The bits past the last slot are
why a search never gives one of these, and why their number can be taken off the count.
-/

namespace ObjectSpace.Bitmap

/-! ## Rows of words -/

/-- Bit `i` of a row of words. -/
def bitAt (ws : List (BitVec 64)) (i : Nat) : Bool := (ws.getD (i / 64) 0).getLsbD (i % 64)

theorem bitAt_cons (w : BitVec 64) (ws : List (BitVec 64)) (i : Nat) :
    bitAt (w :: ws) i = if i < 64 then w.getLsbD i else bitAt ws (i - 64) := by
  unfold bitAt
  split
  · rename_i hi
    rw [Nat.div_eq_of_lt hi, Nat.mod_eq_of_lt hi, List.getD_cons_zero]
  · rename_i hi
    obtain ⟨j, rfl⟩ := Nat.exists_eq_add_of_le (Nat.le_of_not_lt hi)
    rw [Nat.add_sub_cancel_left, Nat.add_mod_left, Nat.add_div_left _ (by decide),
      List.getD_cons_succ]

theorem test_eq_bitAt (b : Bitmap) (i : Nat) : b.test i = bitAt b.words.toList i := by
  simp [test, bitAt, List.getD_eq_getElem?_getD, Array.getD_eq_getD_getElem?]

theorem lowest_of_not_ne_zero {w : BitVec 64} (hw : ~~~w ≠ 0) :
    (~~~w).ctz.toNat < 64 ∧ w.getLsbD (~~~w).ctz.toNat = false ∧
      ∀ j < (~~~w).ctz.toNat, w.getLsbD j = true := by
  have hlt : (~~~w).ctz.toNat < 64 := by
    simpa [BitVec.lt_def] using BitVec.ctz_lt_iff_ne_zero.2 hw
  refine ⟨hlt, ?_, fun j hj => ?_⟩
  · simpa [BitVec.getLsbD_not, hlt] using BitVec.getLsbD_true_ctz_of_ne_zero hw
  · have hj64 : j < 64 := Nat.lt_trans hj hlt
    simpa [BitVec.getLsbD_not, hj64] using BitVec.getLsbD_false_of_lt_ctz hj

theorem getLsbD_of_not_eq_zero {w : BitVec 64} (hw : ~~~w = 0) {j : Nat} (hj : j < 64) :
    w.getLsbD j = true := by
  have h := congrArg (BitVec.getLsbD · j) hw
  simpa [BitVec.getLsbD_not, hj] using h

/-- What a search finds is a clear bit, and the bits before it are set. -/
theorem lowestClear?_eq_some {ws : List (BitVec 64)} {i : Nat} (h : lowestClear? ws = some i) :
    i < ws.length * 64 ∧ bitAt ws i = false ∧ ∀ j < i, bitAt ws j = true := by
  induction ws generalizing i with
  | nil => cases h
  | cons w ws ih =>
    rw [lowestClear?] at h
    split at h
    · rename_i hw
      obtain ⟨hlt, hclear, hset⟩ := lowest_of_not_ne_zero hw
      obtain rfl := Option.some.inj h
      refine ⟨?_, ?_, fun j hj => ?_⟩
      · rw [List.length_cons]
        omega
      · rw [bitAt_cons, if_pos hlt, hclear]
      · rw [bitAt_cons, if_pos (Nat.lt_trans hj hlt), hset j hj]
    · rename_i hw
      obtain ⟨k, hk, rfl⟩ := Option.map_eq_some_iff.1 h
      obtain ⟨hlt, hclear, hset⟩ := ih hk
      refine ⟨?_, ?_, fun j hj => ?_⟩
      · rw [List.length_cons]
        omega
      · rw [bitAt_cons, if_neg (by omega), Nat.add_sub_cancel_left, hclear]
      · rw [bitAt_cons]
        split
        · exact getLsbD_of_not_eq_zero (not_not.1 hw) ‹_›
        · exact hset _ (by omega)

/-- A search that finds nothing passed over set bits only. -/
theorem lowestClear?_eq_none {ws : List (BitVec 64)} (h : lowestClear? ws = none) {i : Nat}
    (hi : i < ws.length * 64) : bitAt ws i = true := by
  induction ws generalizing i with
  | nil => simp at hi
  | cons w ws ih =>
    rw [lowestClear?] at h
    split at h
    · cases h
    · rename_i hw
      rw [List.length_cons] at hi
      rw [bitAt_cons]
      split
      · exact getLsbD_of_not_eq_zero (not_not.1 hw) ‹_›
      · exact ih (Option.map_eq_none_iff.1 h) (by omega)

/-! ## Counting -/

theorem cpopNatRec_eq_count (w : BitVec 64) (n : Nat) :
    w.cpopNatRec n 0 = Nat.count (fun i => w.getLsbD i = true) n := by
  induction n with
  | zero => simp
  | succ n ih =>
    rw [BitVec.cpopNatRec_succ, BitVec.cpopNatRec_eq, ih, Nat.count_succ, Nat.zero_add]
    cases w.getLsbD n <;> rfl

theorem count_congr {p q : Nat → Bool} {n : Nat} (h : ∀ i < n, p i = q i) :
    Nat.count (fun i => p i = true) n = Nat.count (fun i => q i = true) n := by
  induction n with
  | zero => simp
  | succ n ih =>
    rw [Nat.count_succ, Nat.count_succ, ih fun i hi => h i (Nat.lt_succ_of_lt hi),
      h n (Nat.lt_succ_self n)]

theorem foldr_cpop (ws : List (BitVec 64)) :
    ws.foldr (fun w n => w.cpop.toNat + n) 0 =
      Nat.count (fun i => bitAt ws i = true) (ws.length * 64) := by
  induction ws with
  | nil => simp
  | cons w ws ih =>
    have hhead : Nat.count (fun i => bitAt (w :: ws) i = true) 64 = w.cpop.toNat := by
      rw [BitVec.toNat_cpop, cpopNatRec_eq_count]
      exact count_congr fun i hi => by rw [bitAt_cons, if_pos hi]
    have htail : Nat.count (fun i => bitAt (w :: ws) (64 + i) = true) (ws.length * 64) =
        Nat.count (fun i => bitAt ws i = true) (ws.length * 64) :=
      count_congr fun i _ => by
        rw [bitAt_cons, if_neg (by omega), Nat.add_sub_cancel_left]
    rw [List.foldr_cons, ih, List.length_cons, Nat.add_one_mul, Nat.add_comm _ 64, Nat.count_add,
      hhead, htail]

/-! ## The bitmap of given bits -/

/-- The bitmap of a block in which the slots that satisfy `live` are live. -/
def ofBits (slots : Nat) (live : Nat → Bool) : Bitmap :=
  { slots
    words := Array.ofFn fun t : Fin (wordCount slots) =>
      .ofNat 64 (Nat.ofBits fun j : Fin 64 => decide (slots ≤ t * 64 + j) || live (t * 64 + j)) }

variable {slots : Nat} {live : Nat → Bool}

theorem slots_le_bits (slots : Nat) : slots ≤ wordCount slots * 64 := by
  unfold wordCount
  omega

@[simp] theorem size_words_ofBits : (ofBits slots live).words.size = wordCount slots := by
  simp [ofBits]

/-- Bit `i` is set when slot `i` is live or missing. -/
theorem test_ofBits {i : Nat} (hi : i < wordCount slots * 64) :
    (ofBits slots live).test i = (decide (slots ≤ i) || live i) := by
  have hword : i / 64 < wordCount slots := by omega
  have hbit : i % 64 < 64 := Nat.mod_lt _ (by decide)
  simp only [test, ofBits, Array.getD_eq_getD_getElem?, Array.getElem?_ofFn, hword, dif_pos,
    Option.getD_some, BitVec.getLsbD_ofNat, Nat.testBit_ofBits_lt _ _ hbit, hbit, decide_true,
    Bool.true_and, Nat.div_add_mod']

theorem eq_ofBits {b : Bitmap} (hs : b.slots = slots) (hw : b.words.size = wordCount slots)
    (ht : ∀ i < wordCount slots * 64, b.test i = (decide (slots ≤ i) || live i)) :
    b = ofBits slots live := by
  have hwords : b.words = (ofBits slots live).words := by
    refine Array.ext (hw.trans size_words_ofBits.symm) fun t h₁ h₂ => ?_
    refine BitVec.eq_of_getLsbD_eq fun j hj => ?_
    have hi : t * 64 + j < wordCount slots * 64 := by omega
    have h := (ht _ hi).trans (test_ofBits hi).symm
    have hdiv : (t * 64 + j) / 64 = t := by omega
    have hmod : (t * 64 + j) % 64 = j := by omega
    simpa [test, hdiv, hmod, Array.getD_eq_getD_getElem?, Array.getElem?_eq_getElem h₁,
      Array.getElem?_eq_getElem h₂] using h
  cases b
  simp_all [ofBits]

theorem ofBits_congr {live' : Nat → Bool} (h : ∀ i < slots, live i = live' i) :
    ofBits slots live = ofBits slots live' := by
  refine eq_ofBits rfl size_words_ofBits fun i hi => ?_
  rw [test_ofBits hi]
  by_cases hs : slots ≤ i
  · simp [hs]
  · rw [h i (Nat.lt_of_not_le hs)]

/-- Clearing leaves the bits past the last slot set and no others. -/
theorem cleared_eq (hs : 0 < slots) : cleared slots = ofBits slots fun _ => false := by
  have hcount : wordCount slots = (slots + 63) / 64 := by
    unfold wordCount
    omega
  refine eq_ofBits rfl (by simp only [cleared, Array.size_push, Array.size_replicate]; omega)
    fun i hi => ?_
  have hbit : i % 64 < 64 := Nat.mod_lt _ (by decide)
  rw [Bool.or_false]
  by_cases hlast : i / 64 = wordCount slots - 1
  · -- In the last word the slots end at bit `slots % 64`, unless they fill it.
    simp only [test, cleared, Array.getD_eq_getD_getElem?, Array.getElem?_push,
      Array.size_replicate, hlast, if_true, Option.getD_some, tail]
    split
    · rw [BitVec.ofNat_eq_ofNat, BitVec.getLsbD_zero, eq_comm, decide_eq_false_iff_not]
      omega
    · rw [Bool.eq_iff_iff]
      simp only [BitVec.getLsbD_shiftLeft, BitVec.getLsbD_allOnes, Bool.and_eq_true,
        Bool.not_eq_true', decide_eq_true_eq, decide_eq_false_iff_not]
      omega
  · have hlt : i / 64 < wordCount slots - 1 := by omega
    have hle : ¬ slots ≤ i := by omega
    simp [test, cleared, Array.getD_eq_getD_getElem?, Array.getElem?_push, hlast, hle, hlt]

theorem set_ofBits {i : Nat} (hi : i < slots) :
    (ofBits slots live).set i = ofBits slots (Function.update live i true) := by
  refine eq_ofBits rfl (by simp [set]) fun j hj => ?_
  have hword : j / 64 < wordCount slots := by omega
  have hbit : j % 64 < 64 := Nat.mod_lt _ (by decide)
  have hbefore : (ofBits slots live).test j = _ := test_ofBits hj
  simp only [test, Array.getD_eq_getD_getElem?] at hbefore
  simp only [test, set, Array.getD_eq_getD_getElem?, Array.getElem?_modify]
  by_cases hij : i / 64 = j / 64
  · obtain ⟨w, hsome⟩ : ∃ w, (ofBits slots live).words[j / 64]? = some w :=
      ⟨_, Array.getElem?_eq_getElem (by simpa using hword)⟩
    rw [hsome, Option.getD_some] at hbefore
    have hone : (1#64 <<< (i % 64)).getLsbD (j % 64) = decide (j = i) := by
      rw [Bool.eq_iff_iff]
      simp only [BitVec.getLsbD_shiftLeft, BitVec.getLsbD_one, Bool.and_eq_true,
        Bool.not_eq_true', decide_eq_true_eq, decide_eq_false_iff_not]
      omega
    rw [if_pos hij, hsome, Option.map_some, Option.getD_some, BitVec.getLsbD_or, hbefore, hone,
      Function.update_apply, Bool.or_assoc]
    by_cases hj : j = i <;> simp [hj]
  · rw [if_neg hij, hbefore, Function.update_of_ne (by rintro rfl; exact hij rfl)]

theorem takeFree?_ofBits {i : Nat} (hi : i < slots) (hdead : live i = false)
    (hlive : ∀ j < i, live j = true) :
    (ofBits slots live).takeFree? = some (i, ofBits slots (Function.update live i true)) := by
  have hbits := slots_le_bits slots
  have hlen : (ofBits slots live).words.toList.length = wordCount slots := by simp
  have hclear : bitAt (ofBits slots live).words.toList i = false := by
    rw [← test_eq_bitAt, test_ofBits (by omega), hdead]
    simpa using hi
  rcases h : lowestClear? (ofBits slots live).words.toList with _ | k
  · rw [lowestClear?_eq_none h (by omega)] at hclear
    cases hclear
  · obtain ⟨hk, hkclear, hkset⟩ := lowestClear?_eq_some h
    have hik : ¬ i < k := fun hik => by
      rw [hkset i hik] at hclear
      cases hclear
    have hki : ¬ k < i := fun hki => by
      rw [← test_eq_bitAt, test_ofBits (by omega), hlive k hki, Bool.or_true] at hkclear
      cases hkclear
    obtain rfl : k = i := by omega
    rw [takeFree?, h, Option.map_some, set_ofBits hi]

/-- A block of which every slot is live has no free one: the bits past the last slot are set. -/
theorem takeFree?_full (hlive : ∀ i < slots, live i = true) :
    (ofBits slots live).takeFree? = none := by
  have hlen : (ofBits slots live).words.toList.length = wordCount slots := by simp
  rw [takeFree?, Option.map_eq_none_iff]
  rcases h : lowestClear? (ofBits slots live).words.toList with _ | k
  · rfl
  · obtain ⟨hk, hkclear, -⟩ := lowestClear?_eq_some h
    rw [← test_eq_bitAt, test_ofBits (by omega)] at hkclear
    by_cases hs : slots ≤ k
    · simp [hs] at hkclear
    · simp [hlive k (by omega)] at hkclear

/-! ## Live slots -/

theorem padding_ofBits : (ofBits slots live).padding = wordCount slots * 64 - slots := by
  simp [padding, ofBits]

theorem ones_ofBits :
    (ofBits slots live).ones =
      Nat.count (fun i => live i = true) slots + (ofBits slots live).padding := by
  obtain ⟨n, hn⟩ := Nat.exists_eq_add_of_le (slots_le_bits slots)
  have hlen : (ofBits slots live).words.toList.length = wordCount slots := by simp
  have hbit : ∀ i < wordCount slots * 64, bitAt (ofBits slots live).words.toList i =
      (decide (slots ≤ i) || live i) := fun i hi => by rw [← test_eq_bitAt, test_ofBits hi]
  have hpast : Nat.count (fun i => bitAt (ofBits slots live).words.toList (slots + i) = true) n =
      n := Nat.count_iff_forall.2 fun i hi => by
    rw [hbit _ (by omega), decide_eq_true (Nat.le_add_right _ _), Bool.true_or]
  rw [ones, foldr_cpop, hlen, hn, Nat.count_add, hpast, padding_ofBits, hn,
    Nat.add_sub_cancel_left]
  congr 1
  exact count_congr fun i hi => by
    rw [hbit i (by omega), decide_eq_false (Nat.not_le_of_lt hi), Bool.false_or]

/-- Counting the live slots never takes off more than it counted. -/
theorem liveCount_ofBits :
    (ofBits slots live).padding ≤ (ofBits slots live).ones ∧
      (ofBits slots live).liveCount = Nat.count (fun i => live i = true) slots := by
  rw [liveCount, ones_ofBits]
  omega

end ObjectSpace.Bitmap
