import ObjectSpace.Proofs.Arena.Placing

/-!
# Runs of an arena

What was done to an arena is kept as a list of events, the latest first: handles issued for new
values, values stored through a handle, handles marked, and all marks cleared. `Ran` lists what an
arena can do; marking and storing go through handles that were issued before.

**Theorem (`handles_apart`).** In every run, two handles that were issued or marked since the marks
were last cleared name different slots, and each reads back what was last stored through it. A
handle that was issued at some time reads something exactly when the number of times that its slot
was handed out since is a multiple of 2^32.

The proof is an induction over the run with the invariant `Traced`: a cell carries as its
generation how often it was handed out, modulo 2^32, and holds a value once it was; the handles in
use have their bits set; and what a handle that was issued reads is what was last stored.
-/

namespace ObjectSpace.Arena

variable {α : Type}

/-- Something that happened to an arena. -/
inductive Event (α : Type) where
  | issued (h : Handle) (v : α)
  | stored (h : Handle) (v : α)
  | marked (h : Handle)
  | cleared

/-- Whether a handle was issued. -/
def Issued (h : Handle) (t : List (Event α)) : Prop := ∃ v, Event.issued h v ∈ t

/-- The arenas that a run reaches, with the events of the run. -/
inductive Ran (layout : Layout) : List (Event α) → Arena α → Prop
  | start {a : Arena α} : create layout = .ok a → Ran layout [] a
  | allocate {t : List (Event α)} {a b : Arena α} {h : Handle} (size : Nat) (v : α) :
      Ran layout t a → a.allocate size v = .ok (h, b) → Ran layout (.issued h v :: t) b
  | store {t : List (Event α)} {a b : Arena α} {h : Handle} {v : α} (f : α → α) :
      Ran layout t a → Issued h t → a.get? h = some v → a.update? h f = some b →
      Ran layout (.stored h (f v) :: t) b
  | mark {t : List (Event α)} {a b : Arena α} {h : Handle} {wasLive : Bool} :
      Ran layout t a → Issued h t → a.mark? h = some (wasLive, b) → Ran layout (.marked h :: t) b
  | clear {t : List (Event α)} {a : Arena α} :
      Ran layout t a → Ran layout (.cleared :: t) a.clearMarks

/-- The handles issued or marked since the marks were last cleared. -/
def inUse : List (Event α) → List Handle
  | [] => []
  | .issued h _ :: t => h :: inUse t
  | .stored _ _ :: t => inUse t
  | .marked h :: t => h :: inUse t
  | .cleared :: _ => []

/-- What was last stored through a handle. -/
def lastStored (h : Handle) : List (Event α) → Option α
  | [] => none
  | .issued g v :: t => if g = h then some v else lastStored h t
  | .stored g v :: t => if g = h then some v else lastStored h t
  | .marked _ :: t => lastStored h t
  | .cleared :: t => lastStored h t

/-- Whether two handles name one slot, whatever their generations. -/
def SameSlot (g h : Handle) : Prop :=
  g.sizeClass = h.sizeClass ∧ g.block = h.block ∧ g.slot = h.slot

instance (g h : Handle) : Decidable (SameSlot g h) := inferInstanceAs (Decidable (_ ∧ _ ∧ _))

/-- How often the slot of a handle was handed out. -/
def handouts (h : Handle) : List (Event α) → Nat
  | [] => 0
  | .issued g _ :: t => handouts h t + if SameSlot g h then 1 else 0
  | .stored _ _ :: t => handouts h t
  | .marked _ :: t => handouts h t
  | .cleared :: t => handouts h t

theorem handouts_append (h : Handle) (s t : List (Event α)) :
    handouts h (s ++ t) = handouts h s + handouts h t := by
  induction s with
  | nil => simp [handouts]
  | cons e s ih =>
    cases e with
    | issued g v =>
      simp only [List.cons_append, handouts, ih]
      omega
    | stored | marked | cleared => exact ih

/-- The cell at the slot of a handle, whatever its generation; a fresh one beyond the last block. -/
def slotOf (a : Arena α) (h : Handle) : Cell α :=
  (a.cellAt? h.sizeClass (a.position h)).getD {}

theorem slotOf_of_cell? {a : Arena α} {h : Handle} {x : Cell α} (hx : a.cell? h = some x) :
    a.slotOf h = x := by
  rw [slotOf, cellAt?_of_cell? hx, Option.getD_some]

/-- What is known of an arena after a run with the events `t`. -/
structure Traced (t : List (Event α)) (a : Arena α) : Prop where
  roomy : a.Roomy
  generation : ∀ h, h.slot < (a.pool h.sizeClass).slots →
    (a.slotOf h).generation = UInt32.ofNat (handouts h t)
  filled : ∀ h, h.slot < (a.pool h.sizeClass).slots →
    ((a.slotOf h).value.isSome ↔ 0 < handouts h t)
  issued : ∀ later h v earlier, t = later ++ .issued h v :: earlier →
    h.slot < (a.pool h.sizeClass).slots ∧ h.generation = UInt32.ofNat (handouts h earlier + 1)
  live : ∀ h ∈ inUse t, a.isLive h
  stored : ∀ h x, Issued h t → a.cell? h = some x → x.value = lastStored h t

/-! ## The start -/

theorem traced_start {layout : Layout} {a : Arena α} (h : create layout = .ok a) :
    Traced [] a := by
  obtain ⟨hr, hf⟩ := create_start h
  have hslot : ∀ h, a.slotOf h = {} := by
    intro h
    unfold slotOf
    rcases hc : a.cellAt? h.sizeClass (a.position h) with _ | x
    · rfl
    · exact hf _ _ _ hc
  exact
    { roomy := hr
      generation := fun h _ => by rw [hslot]; rfl
      filled := fun h _ => by rw [hslot]; simp [handouts]
      issued := fun later h v earlier he => by simp at he
      live := fun h hh => by cases hh
      stored := fun h x ⟨v, hv⟩ => by cases hv }

/-! ## Allocating -/

theorem sameSlot_iff {a : Arena α} {g h : Handle} (hg : g.slot < (a.pool g.sizeClass).slots)
    (hh : h.slot < (a.pool h.sizeClass).slots) :
    SameSlot g h ↔ g.sizeClass = h.sizeClass ∧ a.position g = a.position h := by
  constructor
  · rintro ⟨hc, hb, hs⟩
    exact ⟨hc, by rw [position, position, hc, hb, hs]⟩
  · rintro ⟨hc, hp⟩
    exact ⟨hc, block_slot_of_position hg hh hc hp⟩

theorem Placed.slotOf_of_sameSlot {a b : Arena α} {c : SizeClass} {v : α} {h g : Handle}
    {old : Option α} (p : Placed a c v h old b) (hs : SameSlot h g) :
    b.slotOf g = ⟨true, (a.slotOf g).generation + 1, some v⟩ := by
  have hpos : a.position g = a.position h := by
    rw [position, position, hs.1, hs.2.1, hs.2.2]
  have hc : g.sizeClass = c := hs.1.symm.trans p.sizeClass_eq
  rw [slotOf, slotOf, p.position_eq, hpos, hc, p.here, Option.getD_some, ← p.generation_eq]

theorem Placed.slotOf_of_not_sameSlot {a b : Arena α} {c : SizeClass} {v : α} {h g : Handle}
    {old : Option α} (p : Placed a c v h old b) (hg : g.slot < (a.pool g.sizeClass).slots)
    (hs : ¬ SameSlot h g) : b.slotOf g = a.slotOf g := by
  have hh : h.slot < (a.pool h.sizeClass).slots := by
    rw [p.sizeClass_eq]
    exact p.slot_lt
  have hne : ¬ (g.sizeClass = c ∧ a.position g = a.position h) := fun he =>
    hs ((sameSlot_iff hh hg).2 ⟨p.sizeClass_eq.trans he.1.symm, he.2.symm⟩)
  rw [slotOf, slotOf, p.position_eq]
  rcases p.elsewhere _ _ hne with he | ⟨hnone, he⟩
  · rw [he]
  · rw [he, hnone]
    rfl

theorem ofNat_succ_uint32 (n : Nat) : UInt32.ofNat n + 1 = UInt32.ofNat (n + 1) := by
  rw [UInt32.ofNat_add]
  rfl

theorem traced_allocate {t : List (Event α)} {a b : Arena α} {c : SizeClass} {v : α}
    {h : Handle} {old : Option α} (i : Traced t a) (p : Placed a c v h old b) :
    Traced (.issued h v :: t) b := by
  have hh : h.slot < (a.pool h.sizeClass).slots := by
    rw [p.sizeClass_eq]
    exact p.slot_lt
  have hfilled : ∀ g, g.slot < (b.pool g.sizeClass).slots →
      ((b.slotOf g).value.isSome ↔ 0 < handouts g (.issued h v :: t)) := by
    intro g hg
    rw [p.slots_eq] at hg
    by_cases hs : SameSlot h g
    · simp [p.slotOf_of_sameSlot hs, handouts, hs]
    · simp [p.slotOf_of_not_sameSlot hg hs, handouts, hs, i.filled g hg]
  refine
    { roomy := p.roomy i.roomy
      generation := fun g hg => ?_
      filled := hfilled
      issued := fun later g w earlier he => ?_
      live := fun g hg => ?_
      stored := fun g x hg hx => ?_ }
  · rw [p.slots_eq] at hg
    by_cases hs : SameSlot h g
    · rw [p.slotOf_of_sameSlot hs, handouts, if_pos hs, ← ofNat_succ_uint32, i.generation g hg]
    · rw [p.slotOf_of_not_sameSlot hg hs, handouts, if_neg hs, i.generation g hg, Nat.add_zero]
  · rw [p.slots_eq]
    cases later with
    | nil =>
      simp only [List.nil_append, List.cons.injEq, Event.issued.injEq] at he
      obtain ⟨⟨rfl, rfl⟩, rfl⟩ := he
      refine ⟨hh, ?_⟩
      rw [← ofNat_succ_uint32, ← i.generation h hh, p.generation_eq, slotOf, p.sizeClass_eq]
    | cons e later =>
      simp only [List.cons_append, List.cons.injEq] at he
      exact i.issued later g w earlier he.2
  · rcases List.mem_cons.1 hg with rfl | hg
    · exact p.isLive_self
    · exact p.isLive_iff.2 (.inr (i.live g hg))
  · by_cases hgh : g = h
    · subst hgh
      rw [p.cell?_self, Option.some.injEq] at hx
      rw [← hx, lastStored, if_pos rfl]
    · obtain ⟨w, hw⟩ := hg
      have hw : Event.issued g w ∈ t := by
        rcases List.mem_cons.1 hw with he | hw
        · exact absurd (Event.issued.inj he).1 hgh
        · exact hw
      rw [lastStored, if_neg (Ne.symm hgh)]
      rcases p.cell?_of_ne hx hgh with hcell | ⟨-, rfl⟩
      · exact i.stored g x ⟨w, hw⟩ hcell
      · -- A fresh cell was never handed out, but `g` was issued.
        obtain ⟨later, earlier, rfl⟩ := List.append_of_mem hw
        have hfresh := hfilled g (slot_lt_of_cell? hx)
        rw [slotOf_of_cell? hx] at hfresh
        simp [handouts, handouts_append, SameSlot] at hfresh

/-! ## Storing, marking, clearing -/

theorem slotOf_setMark {a : Arena α} {h : Handle} (g : Handle) :
    ((a.setMark h).slotOf g).generation = (a.slotOf g).generation ∧
      ((a.setMark h).slotOf g).value = (a.slotOf g).value := by
  unfold slotOf
  rw [position_setMark, cellAt?_setMark]
  split
  · rcases a.cellAt? g.sizeClass (a.position g) with _ | x <;> exact ⟨rfl, rfl⟩
  · exact ⟨rfl, rfl⟩

theorem slotOf_modify {a : Arena α} {h : Handle} (f : α → α) (g : Handle) :
    ((a.modify h f).slotOf g).generation = (a.slotOf g).generation ∧
      ((a.modify h f).slotOf g).value.isSome = (a.slotOf g).value.isSome := by
  unfold slotOf
  rw [position_modify, cellAt?_modify]
  split
  · rcases a.cellAt? g.sizeClass (a.position g) with _ | x <;> simp
  · exact ⟨rfl, rfl⟩

theorem slotOf_clearMarks {a : Arena α} (g : Handle) :
    (a.clearMarks.slotOf g).generation = (a.slotOf g).generation ∧
      (a.clearMarks.slotOf g).value = (a.slotOf g).value := by
  unfold slotOf
  rw [position_clearMarks, cellAt?_clearMarks]
  rcases a.cellAt? g.sizeClass (a.position g) with _ | x <;> exact ⟨rfl, rfl⟩

/-- An event that issues nothing leaves the counts and the handles issued as they were. -/
theorem issued_cons {t later earlier : List (Event α)} {e : Event α} {h : Handle} {v : α}
    (hne : ∀ g w, e ≠ .issued g w) (he : e :: t = later ++ .issued h v :: earlier) :
    ∃ later', t = later' ++ .issued h v :: earlier := by
  cases later with
  | nil => exact absurd (List.cons.inj he).1 (hne h v)
  | cons e' later => exact ⟨later, (List.cons.inj he).2⟩

theorem issued_of_cons {t : List (Event α)} {e : Event α} {h : Handle}
    (hne : ∀ g w, e ≠ .issued g w) (hi : Issued h (e :: t)) : Issued h t := by
  obtain ⟨v, hv⟩ := hi
  rcases List.mem_cons.1 hv with he | hv
  · exact absurd he.symm (hne h v)
  · exact ⟨v, hv⟩

theorem traced_store {t : List (Event α)} {a : Arena α} {h : Handle} {v : α} (f : α → α)
    (i : Traced t a) (hv : a.get? h = some v) :
    Traced (.stored h (f v) :: t) (a.modify h f) := by
  obtain ⟨x, hx, hval⟩ := get?_eq_some.1 hv
  have hcell := cell?_modify hx f
  refine
    { roomy := i.roomy.modify h f
      generation := fun g hg => ?_
      filled := fun g hg => ?_
      issued := fun later g w earlier he => ?_
      live := fun g hg => ?_
      stored := fun g y hg hy => ?_ }
  · rw [slots_modify] at hg
    rw [(slotOf_modify f g).1, i.generation g hg, handouts]
  · rw [slots_modify] at hg
    rw [(slotOf_modify f g).2, i.filled g hg, handouts]
  · obtain ⟨later', he⟩ := issued_cons (by simp) he
    rw [slots_modify]
    exact i.issued later' g w earlier he
  · obtain ⟨y, hy, hl⟩ := isLive_iff.1 (i.live g hg)
    refine isLive_iff.2 ?_
    rw [hcell]
    by_cases hgh : g = h
    · subst hgh
      rw [hx, Option.some.injEq] at hy
      exact ⟨_, if_pos rfl, by rw [← hy] at hl; exact hl⟩
    · exact ⟨y, by rw [if_neg hgh, hy], hl⟩
  · rw [hcell] at hy
    by_cases hgh : g = h
    · subst hgh
      rw [if_pos rfl, Option.some.injEq] at hy
      rw [← hy, lastStored, if_pos rfl, hval, Option.map_some]
    · rw [if_neg hgh] at hy
      rw [lastStored, if_neg (Ne.symm hgh)]
      exact i.stored g y (issued_of_cons (by simp) hg) hy

theorem traced_mark {t : List (Event α)} {a : Arena α} {h : Handle} {x : Cell α}
    (i : Traced t a) (hx : a.cell? h = some x) : Traced (.marked h :: t) (a.setMark h) := by
  have hcell := cell?_setMark hx
  refine
    { roomy := fun c => by rw [slots_setMark]; exact i.roomy c
      generation := fun g hg => ?_
      filled := fun g hg => ?_
      issued := fun later g w earlier he => ?_
      live := fun g hg => ?_
      stored := fun g y hg hy => ?_ }
  · rw [slots_setMark] at hg
    rw [(slotOf_setMark g).1, i.generation g hg, handouts]
  · rw [slots_setMark] at hg
    rw [(slotOf_setMark g).2, i.filled g hg, handouts]
  · obtain ⟨later', he⟩ := issued_cons (by simp) he
    rw [slots_setMark]
    exact i.issued later' g w earlier he
  · refine isLive_iff.2 ?_
    rw [hcell]
    by_cases hgh : g = h
    · exact ⟨_, if_pos hgh, rfl⟩
    · rcases List.mem_cons.1 hg with hg | hg
      · exact absurd hg hgh
      · obtain ⟨y, hy, hl⟩ := isLive_iff.1 (i.live g hg)
        exact ⟨y, by rw [if_neg hgh, hy], hl⟩
  · rw [hcell] at hy
    have hissued := issued_of_cons (by simp) hg
    by_cases hgh : g = h
    · subst hgh
      rw [if_pos rfl, Option.some.injEq] at hy
      rw [← hy]
      exact i.stored g x hissued hx
    · rw [if_neg hgh] at hy
      exact i.stored g y hissued hy

theorem traced_clear {t : List (Event α)} {a : Arena α} (i : Traced t a) :
    Traced (.cleared :: t) a.clearMarks := by
  refine
    { roomy := fun c => by rw [slots_clearMarks]; exact i.roomy c
      generation := fun g hg => ?_
      filled := fun g hg => ?_
      issued := fun later g w earlier he => ?_
      live := fun g hg => by cases hg
      stored := fun g y hg hy => ?_ }
  · rw [slots_clearMarks] at hg
    rw [(slotOf_clearMarks g).1, i.generation g hg, handouts]
  · rw [slots_clearMarks] at hg
    rw [(slotOf_clearMarks g).2, i.filled g hg, handouts]
  · obtain ⟨later', he⟩ := issued_cons (by simp) he
    rw [slots_clearMarks]
    exact i.issued later' g w earlier he
  · rw [cell?_clearMarks, Option.map_eq_some_iff] at hy
    obtain ⟨x, hx, rfl⟩ := hy
    exact i.stored g x (issued_of_cons (by simp) hg) hx

/-! ## Runs -/

theorem traced_of_ran {layout : Layout} {t : List (Event α)} {a : Arena α} (r : Ran layout t a) :
    Traced t a := by
  induction r with
  | start h => exact traced_start h
  | @allocate t a b h size v _ hb ih =>
    unfold allocate at hb
    split at hb
    · cases hb
    · rename_i c _
      obtain ⟨rfl, rfl⟩ := Prod.mk.inj (Except.ok.inj hb)
      exact traced_allocate ih (allocateIn_placed ih.roomy c v)
  | @store t a b h v f _ _ hv hb ih =>
    unfold update? at hb
    split at hb
    · rw [← Option.some.inj hb]
      exact traced_store f ih hv
    · cases hb
  | @mark t a b h wasLive _ _ hb ih =>
    obtain ⟨x, hx, he⟩ := Option.map_eq_some_iff.1 hb
    rw [← (Prod.mk.inj he).2]
    exact traced_mark ih hx
  | clear _ ih => exact traced_clear ih

/-- Equal words of 32 bits stand for numbers that differ by a multiple of 2^32. -/
theorem ofNat_add_eq_iff (m n : Nat) :
    UInt32.ofNat (n + m) = UInt32.ofNat m ↔ 2 ^ 32 ∣ n := by
  rw [← UInt32.toNat_inj, UInt32.toNat_ofNat', UInt32.toNat_ofNat']
  omega

theorem issued_of_mem_inUse {layout : Layout} {t : List (Event α)} {a : Arena α}
    (r : Ran layout t a) {h : Handle} (hh : h ∈ inUse t) : Issued h t := by
  have later : ∀ {t : List (Event α)} {e : Event α}, Issued h t → Issued h (e :: t) :=
    fun ⟨v, hv⟩ => ⟨v, List.mem_cons_of_mem _ hv⟩
  induction r with
  | start => cases hh
  | allocate size v _ _ ih =>
    rcases List.mem_cons.1 hh with rfl | hh
    · exact ⟨v, List.mem_cons_self⟩
    · exact later (ih hh)
  | store f _ _ _ _ ih => exact later (ih hh)
  | mark _ hi _ ih =>
    rcases List.mem_cons.1 hh with rfl | hh
    · exact later hi
    · exact later (ih hh)
  | clear => cases hh

/-- A handle in use reads what was last stored through it. -/
theorem get?_of_mem_inUse {layout : Layout} {t : List (Event α)} {a : Arena α}
    (r : Ran layout t a) {h : Handle} (hh : h ∈ inUse t) :
    ∃ v, lastStored h t = some v ∧ a.get? h = some v := by
  have i := traced_of_ran r
  have hi := issued_of_mem_inUse r hh
  obtain ⟨x, hx, -⟩ := isLive_iff.1 (i.live h hh)
  have hstored := i.stored h x hi hx
  have hsome : x.value.isSome := by
    obtain ⟨v, hv⟩ := hi
    obtain ⟨later, earlier, rfl⟩ := List.append_of_mem hv
    rw [← slotOf_of_cell? hx, i.filled h (slot_lt_of_cell? hx), handouts_append]
    simp only [handouts, SameSlot, and_self, if_true]
    omega
  obtain ⟨v, hv⟩ := Option.isSome_iff_exists.1 hsome
  exact ⟨v, hstored ▸ hv, get?_eq_some.2 ⟨x, hx, hv⟩⟩

/-- A handle reads something exactly when its slot came round to the handle's generation. -/
theorem get?_isSome_iff {layout : Layout} {later earlier : List (Event α)} {h : Handle} {v : α}
    {a : Arena α} (r : Ran layout (later ++ .issued h v :: earlier) a) :
    (a.get? h).isSome ↔ 2 ^ 32 ∣ handouts h later := by
  have i := traced_of_ran r
  obtain ⟨hslot, hgen⟩ := i.issued later h v earlier rfl
  have hcount : handouts h (later ++ .issued h v :: earlier) =
      handouts h later + (handouts h earlier + 1) := by
    simp [handouts_append, handouts, SameSlot]
  have hnow := i.generation h hslot
  rw [hcount] at hnow
  have hfilled : (a.slotOf h).value.isSome := (i.filled h hslot).2 (by omega)
  rw [← ofNat_add_eq_iff (handouts h earlier + 1), ← hnow, ← hgen]
  constructor
  · intro hsome
    obtain ⟨w, hw⟩ := Option.isSome_iff_exists.1 hsome
    obtain ⟨x, hx, -⟩ := get?_eq_some.1 hw
    rw [slotOf_of_cell? hx, generation_of_cell? hx]
  · intro he
    unfold slotOf at he hfilled
    rcases hc : a.cellAt? h.sizeClass (a.position h) with _ | x
    · rw [hc] at hfilled
      cases hfilled
    · rw [hc, Option.getD_some] at he hfilled
      rw [get?, cell?_eq_some.2 ⟨hslot, hc, he⟩]
      exact hfilled

/-- **Handles apart.** Handles issued or marked since the last clearing name different slots and
read back what was last stored through them; and a handle issued at any time reads something
exactly when its slot was handed out a multiple of 2^32 times since, so below that number when it
was not handed out again. -/
theorem handles_apart {layout : Layout} {t : List (Event α)} {a : Arena α}
    (r : Ran layout t a) :
    (∀ g ∈ inUse t, ∀ h ∈ inUse t, g ≠ h → ¬ SameSlot g h) ∧
      (∀ h ∈ inUse t, ∃ v, lastStored h t = some v ∧ a.get? h = some v ∧ a.fetch h = .ok v) ∧
      ∀ later h v earlier, t = later ++ .issued h v :: earlier →
        ((a.get? h).isSome ↔ 2 ^ 32 ∣ handouts h later) ∧
          (handouts h later < 2 ^ 32 → ((a.get? h).isSome ↔ handouts h later = 0)) := by
  refine ⟨fun g hg h hh hne hs => ?_, fun h hh => ?_, fun later h v earlier he => ?_⟩
  · have i := traced_of_ran r
    obtain ⟨x, hx, -⟩ := isLive_iff.1 (i.live g hg)
    obtain ⟨y, hy, -⟩ := isLive_iff.1 (i.live h hh)
    obtain ⟨hc, hp⟩ := (sameSlot_iff (slot_lt_of_cell? hx) (slot_lt_of_cell? hy)).1 hs
    exact hne (eq_of_cell? hx hy hc hp)
  · obtain ⟨v, hstored, hget⟩ := get?_of_mem_inUse r hh
    exact ⟨v, hstored, hget, fetch_eq_ok.2 hget⟩
  · subst he
    refine ⟨get?_isSome_iff r, fun hlt => ?_⟩
    rw [get?_isSome_iff r]
    omega

/-- A layout with three slots of the largest slab class in a block. -/
def narrow : Layout := { blockSize := 256, chunkSize := 512 }

/-- The handle of the first slot for large objects, in generation `n`. -/
def firstSlot (n : UInt32) : Handle :=
  { sizeClass := SizeClass.large, block := 0, slot := 0, generation := n }

theorem allocate_eq {a : Arena α} {size : Nat} {c : SizeClass}
    (hc : SizeClass.ofSize? size = some c) (v : α) :
    a.allocate size v = .ok ((a.allocateIn c v).1, (a.allocateIn c v).2.2) := by
  simp only [allocate, hc]

theorem handles_apart_reused :
    ∃ a : Arena Nat, Ran narrow [.issued (firstSlot 2) 9, .cleared, .issued (firstSlot 1) 7] a ∧
      a.get? (firstSlot 1) = none ∧ a.get? (firstSlot 2) = some 9 := by
  have hsize : SizeClass.ofSize? 100 = some SizeClass.large := by decide
  let a₁ : Arena Nat := ((empty narrow).allocateIn SizeClass.large 7).2.2
  have h₁ : ((empty narrow : Arena Nat).allocateIn SizeClass.large 7).1 = firstSlot 1 := by
    decide +kernel
  have h₂ : (a₁.clearMarks.allocateIn SizeClass.large 9).1 = firstSlot 2 := by decide +kernel
  have r : Ran narrow [.issued (firstSlot 2) 9, .cleared, .issued (firstSlot 1) 7]
      (a₁.clearMarks.allocateIn SizeClass.large 9).2.2 := by
    have r₁ : Ran narrow [.issued (firstSlot 1) 7] a₁ :=
      .allocate 100 7 (.start rfl) (by rw [allocate_eq hsize, h₁])
    exact .allocate 100 9 (.clear r₁) (by rw [allocate_eq hsize, h₂])
  obtain ⟨-, hread, hissued⟩ := handles_apart r
  refine ⟨_, r, ?_, ?_⟩
  · have hgone := (hissued [.issued (firstSlot 2) 9, .cleared] (firstSlot 1) 7 [] rfl).1
    rw [← Option.not_isSome_iff_eq_none, hgone]
    decide
  · obtain ⟨v, hv, hget, -⟩ := hread (firstSlot 2) (by simp [inUse])
    rw [hget, ← hv]
    rfl

end ObjectSpace.Arena
