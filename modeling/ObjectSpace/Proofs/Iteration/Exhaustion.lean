import ObjectSpace.Proofs.Execution.Iterating
import ObjectSpace.Proofs.Execution.Lists
import ObjectSpace.Proofs.Execution.Operations
import ObjectSpace.Proofs.Iteration.Remaining

/-!
# Exhausted iterators

**Theorem (`next_exhausted`).** Once `next` has given none, it gives none again after any turns on
live handles that keep the iterator live, as long as no list that it runs forward over has become
longer. So an iterator over anything else is exhausted for good: over a tuple, a text or bytes, a
range, a dict, its views or a set, backwards over anything, and numbering or pairing such
iterators.

A cursor over a list does not note that it came to the end. When the list grows, it goes on with
what was added (`next_exhausted_append`).

The proof follows the cursor that ended the iterator. It was at its end (`Firm.atEnd_of_next`),
cursors only move on, and what a cursor runs over is still the same object.
-/

namespace ObjectSpace

open Relation (ReflTransGen)

/-- An iterator runs forward over a sequence, or one that it draws on does. -/
def Heap.RunsOver (heap : Heap) (it u : Handle) : Prop :=
  ∃ w k position, ReflTransGen heap.Draws it w ∧
    heap.get? w = some (.iter (.forward u k position))

theorem Heap.RunsOver.draws {heap : Heap} {it u : Handle} (h : heap.RunsOver it u) :
    ReflTransGen heap.Draws it u := by
  obtain ⟨w, k, position, hw, hc⟩ := h
  exact hw.tail ⟨_, hc, List.mem_singleton_self u⟩

namespace Space

variable {s s₁ s₂ : Space} {it : Handle} {settings : Settings} {disk : Disk}

/-- The spaces that turns on live handles lead to which keep a handle live. -/
inductive Leads (it : Handle) (s : Space) : Space → Prop
  | refl : Leads it s s
  | turn {s' : Space} (t : Turn) : Leads it s s' →
      (∀ h ∈ t.handles, s'.heap.isLive h = true) → (t.leave s').heap.isLive it = true →
      Leads it s (t.leave s')

theorem Leads.run (l : Leads it s₁ s₂) (r : LiveRun settings disk s₁) :
    LiveRun settings disk s₂ := by
  induction l with
  | refl => exact r
  | turn t _ ht _ ih => exact .turn t ih ht

theorem live_draws_evolved (i : s₂.Sound) (hit : s₂.heap.isLive it = true)
    (he : ∀ w o, ReflTransGen s₁.heap.Draws it w → s₁.heap.get? w = some o →
      ∃ o', s₂.heap.get? w = some o' ∧ o.Evolves o') {w : Handle}
    (hw : ReflTransGen s₁.heap.Draws it w) : s₂.heap.isLive w = true := by
  induction hw with
  | refl => exact hit
  | @tail w p hw hp ih =>
    obtain ⟨o, ho, hm⟩ := hp
    obtain ⟨o', ho', hev⟩ := he w o hw ho
    refine i.live_restsOn ih ⟨o', ho', Object.mem_footing_of_draws ?_⟩
    rw [hev.draws_eq]
    exact hm

/-- What an iterator draws on names the same objects for as long as the iterator is live. -/
theorem Leads.evolved (l : Leads it s₁ s₂) (r : LiveRun settings disk s₁)
    (hit : s₁.heap.isLive it = true) {w : Handle} {o : Object}
    (hw : ReflTransGen s₁.heap.Draws it w) (ho : s₁.heap.get? w = some o) :
    ∃ o', s₂.heap.Has w o' ∧ o.Evolves o' := by
  induction l generalizing w o with
  | refl => exact ⟨o, ⟨r.firm.live_draws hit hw, ho⟩, .refl o⟩
  | @turn s' t l ht hkeep ih =>
    have i := sound_of_liveRun (l.run r)
    by_cases hc : t.Collects
    · have hsame := (Turn.leave_collect hc s').1
      have he : ∀ w o, ReflTransGen s₁.heap.Draws it w → s₁.heap.get? w = some o →
          ∃ o', (t.leave s').heap.get? w = some o' ∧ o.Evolves o' := fun w o hw ho => by
        obtain ⟨o', ho', hev⟩ := ih hw ho
        exact ⟨o', (hsame.get?_eq w).trans ho'.2, hev⟩
      obtain ⟨o', ho', hev⟩ := he w o hw ho
      exact ⟨o', ⟨live_draws_evolved (i.leave t ht) hkeep he hw, ho'⟩, hev⟩
    · obtain ⟨o', ho', hev⟩ := ih hw ho
      cases t with
      | operation op =>
        have later := Trust.later_leave (T := liveTrust) i op ht
        obtain ⟨p, hp, hev'⟩ := later.kept.has ho'
        exact ⟨p, hp, hev.trans hev'⟩
      | collectNow | collectIfDue => exact absurd trivial hc

theorem extent_le_of_evolves {a b : Heap} {u : Handle} {o o' : Object} (ho : a.get? u = some o)
    (ho' : b.get? u = some o') (he : o.Evolves o')
    (hlists : ∀ xs ys, o = .list xs → o' = .list ys → ys.size ≤ xs.size) :
    b.extent u ≤ a.extent u := by
  rw [Heap.extent_eq ho, Heap.extent_eq ho']
  cases he.evolution with
  | list xs ys => exact hlists xs ys rfl rfl
  | _ => exact Nat.le_refl _

end Space

open Space (Leads)

variable {settings : Settings} {disk : Disk} {s s₁ s₂ : Space} {it : Handle}

/-- **Exhausted iterators.** Once `next` has given none it gives none again, for as long as the
iterator is live and no list that it runs forward over has become longer. -/
theorem next_exhausted (r : LiveRun settings disk s) (hit : s.heap.isLive it = true)
    (h : Space.next it s = .ok none s₁) (l : Leads it s₁ s₂)
    (hlists : ∀ u xs ys, s₁.heap.RunsOver it u → s₁.heap.get? u = some (.list xs) →
      s₂.heap.get? u = some (.list ys) → ys.size ≤ xs.size) :
    ∃ s₃, Space.next it s₂ = .ok none s₃ := by
  have i := r.firm
  have hit₁ := (i.next_later hit h).1.ok_mono it hit
  have r₁ : LiveRun settings disk s₁ :=
    Space.leave_of_ok (.next it) rfl h ▸
      .turn (.operation (.next it)) r (List.forall_mem_singleton.2 hit)
  have i₁ := r₁.firm
  have i₂ := (l.run r₁).firm
  -- the cursor that ended the iterator is still at its end
  have hend : s₂.heap.LimitedBy (fun c => c.left s₂.heap ≤ 0) it := by
    refine (i.atEnd_of_next hit h).mono fun w c hw hc => ?_
    obtain ⟨o', ho', he⟩ := l.evolved r₁ hit₁ hw hc
    cases o' <;> simp only [Object.Evolves, reduceCtorEq] at he
    refine ⟨_, ho'.2, he, fun hatEnd => Nat.le_of_eq ?_⟩
    refine (hatEnd.onward he fun u k position hforward => ?_).left_eq
    subst hforward
    have hu : s₁.heap.RunsOver it u := ⟨w, k, position, hw, hc⟩
    obtain ⟨p, hp, -⟩ := i₁.sound.get? (i₁.live_draws hit₁ hu.draws)
    obtain ⟨q, hq, hpq⟩ := l.evolved r₁ hit₁ hu.draws hp
    refine Space.extent_le_of_evolves hp hq.2 hpq fun xs ys hxs hys => ?_
    exact hlists u xs ys hu (hxs ▸ hp) (hys ▸ hq.2)
  obtain ⟨c, hc⟩ : ∃ c, s₂.heap.get? it = some (.iter c) := by
    cases hend with
    | own hget | counted hget | left hget | right hget => exact ⟨_, hget⟩
  have hit₂ : s₂.heap.isLive it = true := by
    obtain ⟨o, ho, -⟩ := i₁.sound.get? hit₁
    obtain ⟨o', ho', -⟩ := l.evolved r₁ hit₁ .refl ho
    exact ho'.1
  obtain ⟨q, s₃, hq⟩ := i₂.next_total hit₂ hc
  cases q with
  | none => exact ⟨s₃, hq⟩
  | some v =>
    obtain ⟨k, hk, -⟩ := i₂.limited_next hit₂ hq hend
    cases hk

/-! ## A list of two elements -/

namespace Space.Leads

theorem after {α : Type} [Carries α] {a : α} {act : Action α} (l : Leads it s s₁) (op : Operation)
    (hop : op.run = Operation.returned act) (hg : ∀ h ∈ op.handles, s₁.heap.isLive h = true)
    (h : act s₁ = .ok a s₂) (hit : s₂.heap.isLive it = true) : Leads it s s₂ := by
  have hleave := leave_of_ok op hop h
  rw [← hleave] at hit ⊢
  exact .turn (.operation op) l hg hit

theorem append (leads : Leads it s s₁) (i : s₁.Steady) {l v : Handle} {items : Array Handle}
    (hl : s₁.heap.Has l (.list items)) (hv : s₁.heap.isLive v = true)
    (hit : s₁.heap.isLive it = true) :
    ∃ s₂, Leads it s s₂ ∧ Frame [l] s₁ s₂ ∧ s₂.heap.Has l (.list (items.push v)) := by
  obtain ⟨q, s₂, h, f, hl₂⟩ := append_frame noCode s₁.noneValue i hl hv
  obtain ⟨m, s', hm, h⟩ := bind_eq_ok.1 h
  have hr := (Trust.runs_getAttribute (T := liveTrust) "append" hl.1).result i.ordered.sound
  rw [hm] at hr
  have hlive := hr.1.ok_mono
  have leads' := leads.after (.getAttribute l "append") rfl (List.forall_mem_singleton.2 hl.1) hm
    (hlive it hit)
  have hnone : s'.heap.isLive s₁.noneValue = true := hlive _ i.nothing.1
  have hm : s'.heap.isLive m = true := (Trust.ok_handle m).1 hr.2
  have hv : s'.heap.isLive v = true := hlive v hv
  refine ⟨s₂, leads'.after (.callWith s₁.noneValue m [v]) rfl ?_ h (f.live hit), f, hl₂⟩
  simp [Operation.handles, hnone, hm, hv]

end Space.Leads

theorem run_to_end :
    ∃ s s₁ l it zero one, LiveRun {} {} s ∧ s.heap.isLive it = true ∧
      Space.next it s = .ok none s₁ ∧ LiveRun {} {} s₁ ∧ s₁.heap.Has zero (.int 0) ∧
      s₁.heap.Has one (.int 1) ∧ s₁.heap.Has l (.list #[zero, one]) ∧
      s₁.heap.Has it (.iter (.forward l .listIterator 2)) := by
  obtain ⟨s₀, h₀⟩ := Space.create_ok {} rfl {}
  obtain ⟨zero, s₁, r₁, -, hzero⟩ := (LiveRun.start h₀).newInt 0
  obtain ⟨one, s₂, r₂, f₂, hone⟩ := r₁.newInt 1
  have hlive : ∀ g ∈ (#[zero, one] : Array Handle).toList, s₂.heap.isLive g = true := by
    simp [f₂.live hzero.1, hone.1]
  obtain ⟨l, s₃, r₃, f₃, hl⟩ := r₂.newList hlive
  obtain ⟨it, s₄, hs₄, f₄, hit⟩ := Space.iter_list (Space.steady_of_liveRun r₃) hl
  have r₄ := r₃.after (.iter l) rfl (List.forall_mem_singleton.2 hl.1) hs₄
  have hl₄ := f₄.keep hl
  -- both elements are given
  obtain ⟨s₅, hs₅, f₅, hit₅⟩ := Space.next_item f₄.steady hl₄ hit (v := zero) rfl
  have r₅ := r₄.after (.next it) rfl (List.forall_mem_singleton.2 hit.1) hs₅
  have hl₅ := f₅.other hit hl₄ nofun
  obtain ⟨s₆, hs₆, f₆, hit₆⟩ := Space.next_item f₅.steady hl₅ hit₅ (v := one) rfl
  have r₆ := r₅.after (.next it) rfl (List.forall_mem_singleton.2 hit₅.1) hs₆
  have hl₆ := f₆.other hit₅ hl₅ nofun
  -- and then nothing
  have hstep : (Cursor.forward l .listIterator 2).step s₆.heap =
      .ok (none, .forward l .listIterator 2) := Heap.bind_of_ok (Heap.get_eq_ok.2 hl₆.2)
  obtain ⟨s₇, hs₇, f₇, hit₇⟩ := Space.next_frame f₆.steady hit₆ trivial hstep
  have r₇ := r₆.after (.next it) rfl (List.forall_mem_singleton.2 hit₆.1) hs₇
  have f := ((f₅.again f₆).again f₇)
  have hzero₇ := f.other hit (f₄.keep (f₃.keep (f₂.keep hzero))) nofun
  have hone₇ := f.other hit (f₄.keep (f₃.keep hone)) nofun
  exact ⟨s₆, s₇, l, it, zero, one, r₆, hit₆.1, hs₇, r₇, hzero₇, hone₇,
    f₇.other hit₆ hl₆ nofun, hit₇⟩

/-- After 0 and 1 were read, 0 is taken out of the list and put in behind 1. The list is as long as
it was, and the iterator gives none again. -/
theorem next_exhausted_rotated :
    ∃ s s₁ s₂ it l zero one, LiveRun {} {} s ∧ Space.next it s = .ok none s₁ ∧
      s₁.heap.Has l (.list #[zero, one]) ∧ s₁.heap.Has it (.iter (.forward l .listIterator 2)) ∧
      Leads it s₁ s₂ ∧ s₂.heap.Has l (.list #[one, zero]) ∧
      ∃ s₃, Space.next it s₂ = .ok none s₃ := by
  obtain ⟨s, s₁, l, it, zero, one, r, hit, h, r₁, hzero, hone, hl, hit₁⟩ := run_to_end
  have i₁ := Space.steady_of_liveRun r₁
  have hplace : place? 0 2 = some 0 := by decide
  have hdelete : (ListOp.deleteItem zero).Effect s₁ [zero, one] [] ([zero, one].eraseIdx 0) :=
    .deleteItem (n := 0) ⟨_, 0, hzero, rfl, rfl⟩ hplace
  obtain ⟨s', hs', hleaves⟩ := (Space.refines_deleteItem i₁ hl hzero.1).complete hdelete
  obtain ⟨_, hs', -⟩ := Space.exists_of_returned hs'
  have hother : ∀ v o, v ≠ l → s₁.heap.Has v o → s'.heap.Has v o := fun v o hv =>
    hleaves.others v o hv (by rintro ⟨_, ⟨⟩⟩)
  have hit' := hother it _ (hit₁.ne hl (by simp)) hit₁
  have hgiven : ∀ h ∈ (Operation.deleteItem l zero).handles, s₁.heap.isLive h = true := by
    simp [Operation.handles, hl.1, hzero.1]
  have leads' : Leads it s₁ s' := Leads.refl.after (.deleteItem l zero) rfl hgiven hs' hit'.1
  have hzero' := hother zero _ (hzero.ne hl (by simp)) hzero
  obtain ⟨s₂, leads, f₂, hl₂⟩ := leads'.append (Space.steady_of_liveRun (leads'.run r₁))
    hleaves.list hzero'.1 hit'.1
  refine ⟨s, s₁, s₂, it, l, zero, one, r, h, hl, hit₁, leads, hl₂,
    next_exhausted r hit h leads fun u xs ys hu hxs hys => ?_⟩
  by_cases hul : u = l
  · subst hul
    obtain rfl := Object.list.inj (Option.some.inj (hxs.symm.trans hl.2))
    obtain rfl := Object.list.inj (Option.some.inj (hys.symm.trans hl₂.2))
    exact Nat.le_refl _
  · have hlive := r₁.firm.live_draws hit₁.1 hu.draws
    have hkeep := (f₂.has u _ (by simpa using hul) (hother u _ hul ⟨hlive, hxs⟩)).2
    obtain rfl := Object.list.inj (Option.some.inj (hys.symm.trans hkeep))
    exact Nat.le_refl _

/-- After an element was appended the iterator goes on. -/
theorem next_exhausted_append :
    ∃ s s₁ s₂ s₃ it v, LiveRun {} {} s ∧ s.heap.isLive it = true ∧
      Space.next it s = .ok none s₁ ∧ Leads it s₁ s₂ ∧ Space.next it s₂ = .ok (some v) s₃ := by
  obtain ⟨s, s₁, l, it, zero, one, r, hit, h, r₁, hzero, -, hl, hit₁⟩ := run_to_end
  obtain ⟨s₂, leads, f₂, hl₂⟩ :=
    Leads.refl.append (Space.steady_of_liveRun r₁) hl hzero.1 hit₁.1
  have hit₂ := f₂.other hl hit₁ nofun
  obtain ⟨s₃, h₃, -⟩ := Space.next_item f₂.steady hl₂ hit₂ (v := zero) rfl
  exact ⟨s, s₁, s₂, s₃, it, zero, r, hit, h, leads, h₃⟩

end ObjectSpace
