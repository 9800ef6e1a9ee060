import ObjectSpace.Proofs.Arena.Scanning
import Mathlib.Algebra.Order.Floor.Div

/-!
# Blocks hold what they can, and at least one object

A block of a slab class keeps room for a link, and the rest is cut into slots and one liveness bit
for each, in whole bytes. `Layout.slotsOfSize` counts the slots by one division over bits.

**Theorem (`layout_tight`).** That is the largest number of slots for which there is room, for every
block size and every size of objects. In a layout that is accepted every class has between 1 and
65535 slots in a block, so a handle has its slot in 16 bits, a new block has a free slot, and the
loop that reserves a slot ends after it added one block at most.

The layout is tested on the smallest and on the largest slab class alone; the number of slots falls
as the objects grow, so the others are between these (`Layout.slotsOfSize_anti`). That there is one
slot at least is needed: of a block with none, the search would still give slot 0.

The loop searches, and as long as it finds nothing it adds a block and searches again
(`PackedPool.Reserves`). It goes on for as long as new blocks have no free slot.
-/

namespace ObjectSpace

/-! ## Slots in a block -/

namespace Layout

variable {l : Layout} {size n : Nat}

/-- So many slots fit in a block if there is room for the objects and for the bytes of the bits. -/
theorem le_slotsOfSize_iff :
    n ≤ l.slotsOfSize size ↔ n * size + n ⌈/⌉ (8 : Nat) ≤ l.blockSize - linkBytes := by
  -- in bits, so that the bytes of the bits are the only ones to be rounded
  have hbits : n * (size * 8 + 1) = 8 * (n * size) + n := by
    rw [Nat.mul_add_one, ← Nat.mul_assoc, Nat.mul_comm (n * size)]
  rw [slotsOfSize, Nat.le_div_iff_mul_le (Nat.succ_pos _), hbits, Nat.ceilDiv_eq_add_pred_div]
  omega

theorem isGreatest_slotsOfSize (l : Layout) (size : Nat) :
    IsGreatest {n | n * size + n ⌈/⌉ (8 : Nat) ≤ l.blockSize - linkBytes} (l.slotsOfSize size) :=
  ⟨le_slotsOfSize_iff.1 (Nat.le_refl _), fun _ h => le_slotsOfSize_iff.2 h⟩

theorem slots_le_of_check (h : l.check = .ok ()) (c : SizeClass) : l.slots c ≤ maxSlots := by
  obtain ⟨-, -, -, hindex⟩ := check_eq_ok.1 h
  unfold slots
  split
  · decide
  · exact (l.slotsOfSize_anti (c.bytes_slab ‹_›).1).trans hindex

end Layout

theorem Bitmap.takeFree?_cleared {slots : Nat} (h : 0 < slots) :
    (cleared slots).takeFree? = some (0, (cleared slots).set 0) := by
  rw [cleared_eq h, set_ofBits h]
  exact takeFree?_ofBits h rfl fun j hj => absurd hj (Nat.not_lt_zero j)

/-! ## Reserving -/

namespace PackedPool

variable {p q q' : PackedPool} {k k' : Nat} {place place' : Nat × Nat}

/-- The loop that reserves a slot, with the number of blocks that it adds, the slot that it comes to
and the pool that it leaves. -/
inductive Reserves : PackedPool → Nat → Nat × Nat → PackedPool → Prop
  | found {p q : PackedPool} {place : Nat × Nat} :
      p.scan = (some place, q) → Reserves p 0 place q
  | grown {p r q : PackedPool} {k : Nat} {place : Nat × Nat} :
      p.scan = (none, r) → Reserves r.grow k place q → Reserves p (k + 1) place q

theorem Reserves.unique (h : Reserves p k place q) (h' : Reserves p k' place' q') :
    k' = k ∧ place' = place ∧ q' = q := by
  induction h generalizing k' with
  | found hscan =>
    cases h' with
    | found hscan' =>
      obtain ⟨hplace, rfl⟩ := Prod.mk.inj (hscan'.symm.trans hscan)
      exact ⟨rfl, Option.some.inj hplace, rfl⟩
    | grown hscan' => cases hscan'.symm.trans hscan
  | grown hscan _ ih =>
    cases h' with
    | found hscan' => cases hscan'.symm.trans hscan
    | grown hscan' h' =>
      obtain ⟨-, rfl⟩ := Prod.mk.inj (hscan'.symm.trans hscan)
      obtain ⟨rfl, hrest⟩ := ih h'
      exact ⟨rfl, hrest⟩

/-- A search that comes to a slot, in a new block if need be, is a run of the loop with at most one
new block. -/
theorem reserves_of_reserve (h : p.reserve = (some place, q)) : ∃ k ≤ 1, Reserves p k place q := by
  unfold reserve at h
  cases hscan : p.scan with
  | mk place? r =>
    rw [hscan] at h
    cases place? with
    | some found =>
      obtain ⟨hplace, rfl⟩ := Prod.mk.inj h
      obtain rfl := Option.some.inj hplace
      exact ⟨0, Nat.zero_le 1, .found hscan⟩
    | none => exact ⟨1, Nat.le_refl 1, .grown hscan (.found h)⟩

theorem size_scan (p : PackedPool) : p.scan.2.blocks.size = p.blocks.size := by
  fun_induction scan p with
  | case1 p h slot b hb => exact Array.size_setIfInBounds
  | case2 p h hb ih => exact ih
  | case3 p h => rfl

theorem Reserves.size_blocks (h : Reserves p k place q) : q.blocks.size = p.blocks.size + k := by
  induction h with
  | @found p q place hscan => rw [← size_scan p, hscan, Nat.add_zero]
  | @grown p r q k place hscan _ ih =>
    have hsize := size_scan p
    rw [hscan] at hsize
    rw [ih, grow, Array.size_push, hsize]
    omega

end PackedPool

namespace Arena

variable {α : Type}

open PackedPool (Reserves)

theorem size_replay {layout : Layout} {t : List (Event α)} {a : Arena α} (r : Ran layout t a)
    (c : SizeClass) : (replay layout c t).blocks.size = (a.pool c).blocks := by
  rw [replay_eq_pack r, Pool.size_pack]

theorem check_of_ran {layout : Layout} {t : List (Event α)} {a : Arena α} (r : Ran layout t a) :
    layout.check = .ok () := by
  induction r with
  | start h => exact (create_eq_ok h).1
  | allocate _ _ _ _ ih | store _ _ _ _ _ ih | mark _ _ _ ih | clear _ ih => exact ih

/-- **Tight layout.** A block has as many slots as there is room for next to their bits. Where the
layout is accepted, every class has between 1 and 65535 of them, and a new block gives its slot 0.
In every run, allocating within the limit gives a slot that 16 bits can hold, and the loop that
reserves it ends, with one more block at most. -/
theorem layout_tight (l : Layout) :
    (∀ size, IsGreatest {n | n * size + n ⌈/⌉ (8 : Nat) ≤ l.blockSize - Layout.linkBytes}
      (l.slotsOfSize size)) ∧
    (l.check = .ok () → ∀ c,
      (1 ≤ l.slots c ∧ l.slots c ≤ 65535) ∧
      (Bitmap.cleared (l.slots c)).takeFree? = some (0, (Bitmap.cleared (l.slots c)).set 0)) ∧
    ∀ (t : List (Event α)) (a : Arena α), Ran l t a → ∀ size ≤ SizeClass.large.bytes, ∀ v,
      ∃ h b, a.allocate size v = .ok (h, b) ∧ h.slot < l.slots h.sizeClass ∧
        (UInt16.ofNat h.slot).toNat = h.slot ∧
        ∃ k ≤ 1, (b.pool h.sizeClass).blocks = (a.pool h.sizeClass).blocks + k ∧
          ∀ k' place q, Reserves (replay l h.sizeClass t) k' place q ↔
            k' = k ∧ place = (h.block, h.slot) ∧
              q = replay l h.sizeClass (.issued h v :: t) := by
  refine ⟨l.isGreatest_slotsOfSize, fun hcheck c => ?_, fun t a r size hsize v => ?_⟩
  · have hpos := slots_pos_of_check hcheck c
    exact ⟨⟨hpos, l.slots_le_of_check hcheck c⟩, Bitmap.takeFree?_cleared hpos⟩
  · obtain ⟨c, hc⟩ := SizeClass.exists_ofSize? hsize
    have hb := allocate_eq (a := a) hc v
    have r' : Ran l _ _ := .allocate size v r hb
    have hslot := slot_allocateIn_lt r c v
    have hfits : (a.allocateIn c v).1.slot < 2 ^ 16 :=
      Nat.lt_of_lt_of_le hslot ((l.slots_le_of_check (check_of_ran r) c).trans (by decide))
    obtain ⟨k, hk, hloop⟩ := PackedPool.reserves_of_reserve (reserve_replay r c v)
    refine ⟨_, _, hb, ?_⟩
    rw [(allocateIn_fst a c v).1]
    refine ⟨hslot, UInt16.toNat_ofNat_of_lt' hfits, k, hk, ?_, fun k' place q => ?_⟩
    · rw [← size_replay r c, ← size_replay r' c, hloop.size_blocks]
    · exact ⟨hloop.unique, fun ⟨hk, hplace, hq⟩ => hk ▸ hplace ▸ hq ▸ hloop⟩

/-- Three slots of 72 bytes fill a block of 256 bytes. When all three are live, the loop adds one
block and comes to its slot 0. -/
theorem layout_tight_narrow :
    IsGreatest {n | n * 72 + n ⌈/⌉ (8 : Nat) ≤ narrow.blockSize - Layout.linkBytes} 3 ∧
      narrow.check = .ok () ∧ (∀ c, 1 ≤ narrow.slots c ∧ narrow.slots c ≤ 65535) ∧
      ∃ (t : List (Event Nat)) (a : Arena Nat) (h : Handle) (b : Arena Nat), Ran narrow t a ∧
        72 ≤ SizeClass.large.bytes ∧ a.allocate 72 9 = .ok (h, b) ∧ h.block = 1 ∧ h.slot = 0 ∧
        Reserves (replay narrow h.sizeClass t) 1 (1, 0)
          (replay narrow h.sizeClass (.issued h 9 :: t)) := by
  obtain ⟨hgreatest, hcheck, hrun⟩ := layout_tight (α := Nat) narrow
  refine ⟨hgreatest 72, rfl, fun c => (hcheck rfl c).1, ?_⟩
  obtain ⟨c, t, a, hsize, r, hfull, hplace⟩ := ran_full
  obtain ⟨h, b, hb, -, -, k, hk, -, hloop⟩ := hrun t a r 72 (by decide) 9
  rw [sizeClass_of_allocate hsize hb] at hloop
  obtain ⟨k', hk', hruns⟩ := PackedPool.reserves_of_reserve (Prod.ext hplace rfl)
  obtain ⟨rfl, hgiven, hleft⟩ := (hloop _ _ _).1 hruns
  obtain ⟨hblock, hslot⟩ := Prod.mk.inj hgiven
  have hone : k' = 1 := by
    cases hruns with
    | found hscan =>
      rw [hscan] at hfull
      cases hfull
    | grown => omega
  subst hone
  refine ⟨t, a, h, b, r, by decide, hb, hblock.symm, hslot.symm, ?_⟩
  rw [sizeClass_of_allocate hsize hb, ← hleft]
  exact hruns

end Arena

end ObjectSpace
