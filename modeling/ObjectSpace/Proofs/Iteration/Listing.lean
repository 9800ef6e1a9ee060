import ObjectSpace.Proofs.Iteration.Remaining

/-!
# Listing what an iterable gives

**Theorem (`Space.Firm.drain_total`).** What a live iterator still gives can be listed within the
number of steps that `Heap.stepsWithin` counts.

**Values that do not contain themselves.** A value is `Tame` when neither it nor anything it draws
on contains itself; a live value is, unless it is `Circular` (`Firm.tame_of_not_circular`). It stays
tame while iterators move (`Firm.tame_moved`), and everything that it gives is grounded
(`Firm.grounded_nextWithin`, `Firm.grounded_collect`): it is made of parts of what was drawn on.
-/

namespace ObjectSpace

open Grounded (Part)
open Relation (ReflTransGen TransGen)

/-! ## Tame values -/

namespace Heap

/-- Neither a value nor anything that it draws on contains itself. -/
def Tame (heap : Heap) (v : Handle) : Prop :=
  ∀ w, ReflTransGen heap.Draws v w → Grounded (seeLive heap) w

/-- Among the parts of a value, or of what it draws on, is one that contains itself. -/
def Circular (heap : Heap) (v : Handle) : Prop :=
  ∃ u w, ReflTransGen heap.Draws v u ∧ ReflTransGen (Part heap.get?) u w ∧
    TransGen (Part heap.get?) w w

variable {a b heap : Heap} {v p : Handle} {o : Object} {c : Cursor}

theorem Tame.grounded (h : heap.Tame v) : Grounded (seeLive heap) v := h v .refl

theorem Tame.drawn (h : heap.Tame v) (hd : heap.Draws v p) : heap.Tame p :=
  fun w hw => h w (.head hd hw)

theorem Tame.child (h : heap.Tame v) (hv : heap.get? v = some (.iter c)) (hp : p ∈ c.children) :
    heap.Tame p := h.drawn ⟨_, hv, hp⟩

/-- A live value is tame when its parts are grounded and what it draws on is tame. -/
theorem tame_of_has (hv : heap.Has v o) (hparts : ∀ p ∈ o.parts, Grounded (seeLive heap) p)
    (hdraws : ∀ p ∈ o.draws, heap.Tame p) : heap.Tame v := by
  intro w hw
  rcases ReflTransGen.cases_head hw with rfl | ⟨p, ⟨q, hq, hp⟩, hw⟩
  · exact .intro (seeLive_eq_some.2 hv) hparts
  · obtain rfl := Option.some.inj (hv.2.symm.trans hq)
    exact hdraws p hp w hw

theorem grounded_parts (g : Grounded (seeLive heap) v) (hv : heap.get? v = some o) :
    ∀ p ∈ o.parts, Grounded (seeLive heap) p := by
  obtain ⟨ho, hp⟩ := g
  obtain rfl := Option.some.inj ((seeLive_eq_some.1 ho).2.symm.trans hv)
  exact hp

theorem Moved.grounded (m : a.Moved b) (g : Grounded (seeLive a) v) : Grounded (seeLive b) v := by
  induction g with
  | @intro v o ho _ ih =>
    have hv := seeLive_eq_some.1 ho
    obtain ⟨o', ho', he, hsame⟩ := m v o hv
    refine .intro (seeLive_eq_some.2 ho') fun p hp => ih p ?_
    cases o with
    | iter c =>
      obtain ⟨c', rfl, -⟩ := he.of_iter
      cases hp
    | _ => exact hsame (by rintro _ ⟨⟩) ▸ hp

theorem moved_of_has (h : ∀ v o, a.Has v o → b.Has v o) : a.Moved b :=
  fun v o hv => ⟨o, h v o hv, .refl o, fun _ => rfl⟩

end Heap

namespace Cursor

variable {heap : Heap} {c c' : Cursor} {y : Yield} {o : Object}

theorem handles_elementAt? {position p : Nat} (h : elementAt? position o = some (y, p)) :
    ∀ g ∈ y.handles, g ∈ o.parts := by
  cases o with
  | list items | tuple items =>
    obtain ⟨x, hx, he⟩ := Option.map_eq_some_iff.1 h
    obtain ⟨rfl, -⟩ := Prod.mk.inj he
    exact List.forall_mem_singleton.2 (Trust.mem_of_getElem? hx)
  | str t hash? | bytes bs =>
    obtain ⟨x, -, he⟩ := Option.map_eq_some_iff.1 h
    obtain ⟨rfl, -⟩ := Prod.mk.inj he
    exact List.forall_mem_nil _
  | _ => cases h

theorem handles_elementBefore? {position p : Nat} (h : elementBefore? position o = some (y, p)) :
    ∀ g ∈ y.handles, g ∈ o.parts := by
  cases o with
  | list items | tuple items =>
    simp only [elementBefore?, Option.ite_none_left_eq_some] at h
    obtain ⟨x, hx, he⟩ := Option.map_eq_some_iff.1 h.2
    obtain ⟨rfl, -⟩ := Prod.mk.inj he
    exact List.forall_mem_singleton.2 (Trust.mem_of_getElem? hx)
  | str t hash? | bytes bs =>
    simp only [elementBefore?, Option.ite_none_left_eq_some] at h
    obtain ⟨x, -, he⟩ := Option.map_eq_some_iff.1 h.2
    obtain ⟨rfl, -⟩ := Prod.mk.inj he
    exact List.forall_mem_nil _
  | _ => cases h

theorem handles_showEntry {part : ViewPart} {k w g : Handle}
    (h : g ∈ (showEntry part k w).handles) : g = k ∨ g = w := by
  cases part <;> simp only [showEntry, Yield.handles, List.mem_cons, List.not_mem_nil,
    or_false] at h <;> tauto

/-- What a step gives are parts of what the cursor draws on. -/
theorem handles_step (h : c.step heap = .ok (some y, c')) :
    ∀ g ∈ y.handles, ∃ u ∈ c.children, ∃ o, heap.get? u = some o ∧ g ∈ o.parts := by
  cases c with
  | forward u k position =>
    obtain ⟨o, ho, h⟩ := Heap.bind_eq_ok.1 h
    obtain ⟨-, h⟩ := Heap.unless_eq_ok.1 h
    rcases he : elementAt? position o with _ | ⟨z, p⟩ <;> rw [he] at h
    · cases h
    · obtain ⟨hz, -⟩ := Prod.mk.inj (Heap.pure_eq_ok.1 h)
      obtain rfl := Option.some.inj hz
      exact fun g hg => ⟨u, List.mem_singleton_self u, o, Heap.get_eq_ok.1 ho,
        handles_elementAt? he g hg⟩
  | backward u position =>
    obtain ⟨o, ho, h⟩ := Heap.bind_eq_ok.1 h
    obtain ⟨-, h⟩ := Heap.unless_eq_ok.1 h
    rcases he : elementBefore? position o with _ | ⟨z, p⟩ <;> rw [he] at h
    · cases h
    · obtain ⟨hz, -⟩ := Prod.mk.inj (Heap.pure_eq_ok.1 h)
      obtain rfl := Option.some.inj hz
      exact fun g hg => ⟨u, List.mem_singleton_self u, o, Heap.get_eq_ok.1 ho,
        handles_elementBefore? he g hg⟩
  | range n d remaining =>
    by_cases hr : remaining = 0 <;> simp only [step, hr, if_true, if_false] at h
    · cases h
    · obtain ⟨hz, -⟩ := Prod.mk.inj (Heap.pure_eq_ok.1 h)
      obtain rfl := Option.some.inj hz
      exact List.forall_mem_nil _
  | entries d part hash place done =>
    cases done with
    | true => cases h
    | false =>
      obtain ⟨t, ht, h⟩ := Heap.bind_eq_ok.1 h
      rcases he : t.nextFrom? hash place with _ | ⟨g, i, k, w⟩ <;> rw [he] at h
      · cases h
      · obtain ⟨hz, -⟩ := Prod.mk.inj (Heap.pure_eq_ok.1 h)
        obtain rfl := Option.some.inj hz
        have hm : (k, w) ∈ t.toList := Table.mem_toList.2 ⟨g, Table.mem_of_nextFrom? he⟩
        intro x hx
        refine ⟨d, List.mem_singleton_self d, _, Heap.dict_eq_ok.1 ht, ?_⟩
        rcases handles_showEntry hx with rfl | rfl
        · exact List.mem_flatMap.2 ⟨_, hm, List.mem_cons_self⟩
        · exact List.mem_flatMap.2 ⟨_, hm, List.mem_cons_of_mem _ List.mem_cons_self⟩
  | members u hash place done =>
    cases done with
    | true => cases h
    | false =>
      obtain ⟨t, ht, h⟩ := Heap.bind_eq_ok.1 h
      rcases he : t.nextFrom? hash place with _ | ⟨g, i, k⟩ <;> rw [he] at h
      · cases h
      · obtain ⟨hz, -⟩ := Prod.mk.inj (Heap.pure_eq_ok.1 h)
        obtain rfl := Option.some.inj hz
        have hm : k ∈ t.toList := Table.mem_toList.2 ⟨g, Table.mem_of_nextFrom? he⟩
        exact List.forall_mem_singleton.2 ⟨u, List.mem_singleton_self u, _, Heap.set_eq_ok.1 ht, hm⟩
  | enumerate | zip => cases h

end Cursor

namespace Space

variable {s s' s₁ : Space} {it v : Handle} {c c' : Cursor} {z : Yield} {n m : Nat}

theorem grounded_emit (hr : s.heap.Roomy) (he : emit z s = .ok v s')
    (hz : ∀ p ∈ z.handles, Grounded (seeLive s.heap) p) : Grounded (seeLive s'.heap) v := by
  have halloc : ∀ {o : Object} {s s' : Space} {v : Handle}, s.heap.Roomy →
      alloc o s = .ok v s' → (∀ p ∈ o.parts, Grounded (seeLive s.heap) p) →
      s.heap.Moved s'.heap ∧ s'.heap.Roomy ∧ Grounded (seeLive s'.heap) v := by
    intro o s s' v hr he ho
    obtain ⟨g, old, heap, p, heq⟩ := Trust.alloc_placed hr o
    obtain ⟨rfl, rfl⟩ := EStateM.Result.ok.inj (heq.symm.trans he)
    have hm : s.heap.Moved heap := Heap.moved_of_has fun _ _ => p.has
    exact ⟨hm, p.roomy hr, .intro (seeLive_eq_some.2 p.has_self) fun x hx => hm.grounded (ho x hx)⟩
  cases z with
  | handle h =>
    obtain ⟨rfl, rfl⟩ := EStateM.Result.ok.inj he
    exact hz h (List.mem_singleton_self h)
  | int | str => exact (halloc hr he (List.forall_mem_nil _)).2.2
  | pair a b => exact (halloc hr he hz).2.2
  | numbered n w =>
    obtain ⟨i, s₁, hi, he⟩ := bind_eq_ok.1 he
    obtain ⟨hm, hr, hg⟩ := halloc hr hi (List.forall_mem_nil _)
    refine (halloc hr he fun p hp => ?_).2.2
    rcases List.mem_pair.1 hp with rfl | rfl
    · exact hg
    · exact hm.grounded (hz p (List.mem_singleton_self p))

theorem grounded_advance (hr : s.heap.Roomy) (hit : s.heap.Has it (.iter c)) (hc : c.Onward c')
    (h : advance it c' (some z) s = .ok (some v) s')
    (hz : ∀ p ∈ z.handles, Grounded (seeLive s.heap) p) : Grounded (seeLive s'.heap) v := by
  obtain ⟨_, s₁, hu, h⟩ := bind_eq_ok.1 h
  obtain ⟨w, s₂, he, h⟩ := bind_eq_ok.1 h
  obtain ⟨hw, rfl⟩ := EStateM.Result.ok.inj h
  obtain rfl := Option.some.inj hw
  -- so far the iterator has been moved, as by an advance that gives nothing
  have hm := advance_moved hr hit hc (y := none) (bind_eq_ok.2 ⟨_, s₁, hu, rfl⟩)
  obtain ⟨-, rfl⟩ := EStateM.Result.ok.inj ((Trust.update_eq hit.2 _).symm.trans hu)
  exact grounded_emit (hr.modify _ _) he fun p hp => hm.grounded (hz p hp)

namespace Firm

theorem live_part (i : s.Firm) (hv : s.heap.Has v o) : ∀ p ∈ o.parts, s.heap.isLive p = true :=
  fun _ hp => i.sound.live_child hv.1 hv.2 (o.parts_subset hp)

theorem live_parts (i : s.Firm) (hv : s.heap.isLive v = true)
    (h : ReflTransGen (Part s.heap.get?) v w) : s.heap.isLive w = true := by
  induction h with
  | refl => exact hv
  | tail _ hp ih =>
    obtain ⟨o, ho, hm⟩ := hp
    exact i.live_part ⟨ih, ho⟩ _ hm

/-- A live value is grounded when following its parts comes to an end. -/
theorem grounded_of_acc (i : s.Firm) (h : Acc (flip (Part s.heap.get?)) v)
    (hv : s.heap.isLive v = true) : Grounded (seeLive s.heap) v := by
  induction h with
  | intro v _ ih =>
    obtain ⟨o, ho, -⟩ := i.sound.get? hv
    exact .intro (seeLive_eq_some.2 ⟨hv, ho⟩) fun p hp =>
      ih p ⟨o, ho, hp⟩ (i.live_part ⟨hv, ho⟩ p hp)

theorem tame_of_not_circular (i : s.Firm) (hv : s.heap.isLive v = true)
    (h : ¬ s.heap.Circular v) : s.heap.Tame v := by
  intro u hu
  have hlive := i.live_draws hv hu
  refine i.grounded_of_acc (acc_of_finite ?_ fun w hw hloop => h ⟨u, w, hu, hw, hloop⟩) hlive
  -- there are finitely many handles that can be read
  exact (Arena.ncard_current_le s.heap).1.subset fun w hw => i.sound.current (i.live_parts hlive hw)

theorem tame_moved (i : s.Firm) (hv : s.heap.isLive v = true) (m : s.heap.Moved s'.heap)
    (h : s.heap.Tame v) : s'.heap.Tame v := by
  intro w hw
  have hback : ReflTransGen s.heap.Draws v w := by
    induction hw with
    | refl => exact .refl
    | @tail w p _ hp ih =>
      have hlive := i.live_draws hv ih
      obtain ⟨o, ho, -⟩ := i.sound.get? hlive
      obtain ⟨o', ho', he, -⟩ := m w o ⟨hlive, ho⟩
      obtain ⟨q, hq, hm⟩ := hp
      obtain rfl := Option.some.inj (ho'.2.symm.trans hq)
      exact ih.tail ⟨o, ho, he.draws_eq ▸ hm⟩
  exact m.grounded (h w hback)

/-- **Given values.** What a tame iterator gives is grounded. -/
theorem grounded_nextWithin (i : s.Firm) (hit : s.heap.isLive it = true) (ht : s.heap.Tame it)
    (h : nextWithin n it s = .ok (some v) s') : Grounded (seeLive s'.heap) v := by
  induction n generalizing s it v s' with
  | zero => cases h
  | succ n ih =>
    cases i.nextWithin_cases hit h with
    | @own c c' y hget ho hstep f =>
      obtain ⟨z, rfl⟩ := Option.isSome_iff_exists.1 f.isSome.symm
      refine grounded_advance i.sound.roomy ⟨hit, hget⟩ (Cursor.onward_step hstep) f.run ?_
      intro p hp
      obtain ⟨u, hu, o, ho, hpart⟩ := Cursor.handles_step hstep p hp
      exact Heap.grounded_parts (ht.child hget hu).grounded ho p hpart
    | @counted inner k k' q s₁ hget hinner hq l f =>
      obtain ⟨w, rfl⟩ : ∃ w, q = some w :=
        Option.isSome_iff_exists.1 (by simpa using f.isSome.symm)
      obtain ⟨d, hd, hon⟩ := l.kept.iter ⟨hit, hget⟩
      have hw := ih i hinner (ht.child hget (List.mem_singleton_self inner)) hq
      refine grounded_advance (firmTrust.roomy l.holds) hd ?_ f.run (List.forall_mem_singleton.2 hw)
      cases d <;> simp only [Cursor.Onward] at hon ⊢
      exact hon.symm
    | ended _ _ _ _ f => exact absurd f.isSome Bool.false_ne_true.symm
    | @paired left right a q s₁ s₂ hget hleft hright hq l₁ hq' l₂ f =>
      obtain ⟨w, rfl⟩ : ∃ w, q = some w :=
        Option.isSome_iff_exists.1 (by simpa using f.isSome.symm)
      obtain ⟨d, hd, hon⟩ := (l₁.trans l₂).kept.iter ⟨hit, hget⟩
      have hright₁ := l₁.ok_mono _ hright
      have m₁ := (i.nextWithin_later hleft hq).2.2
      have m₂ := (l₁.holds.nextWithin_later hright₁ hq').2.2
      have ha := m₂.grounded (ih i hleft (ht.child hget List.mem_cons_self) hq)
      have hw := ih l₁.holds hright₁ (i.tame_moved hright m₁
        (ht.child hget (List.mem_cons_of_mem _ List.mem_cons_self))) hq'
      refine grounded_advance (firmTrust.roomy l₂.holds) hd ?_ f.run fun p hp => ?_
      · cases d <;> simp only [Cursor.Onward] at hon ⊢
        exact ⟨hon.1.symm, hon.2.symm⟩
      · rcases List.mem_pair.1 hp with rfl | rfl
        · exact ha
        · exact hw

theorem grounded_next (i : s.Firm) (hit : s.heap.isLive it = true) (ht : s.heap.Tame it)
    (h : next it s = .ok (some v) s') : Grounded (seeLive s'.heap) v := by
  rw [next, ask_bind_of_ok (Heap.depth_eq_ok.2 rfl)] at h
  exact i.grounded_nextWithin hit ht h

/-! ## Steps counted -/

/-- The steps that an iterator can still be advanced can be counted, and they limit it. -/
theorem stepsWithin_total (i : s.Firm) (hit : s.heap.isLive it = true)
    (hget : s.heap.get? it = some (.iter c)) (hn : Nested s.heap.RestsOn n it) :
    ∃ m, Heap.stepsWithin n it s.heap = .ok m ∧
      s.heap.LimitedBy (fun c => c.left s.heap ≤ m) it := by
  induction n generalizing it c with
  | zero => exact hn.elim
  | succ n ih =>
    have hcur : Heap.cursor it s.heap = .ok c :=
      Heap.bind_eq_ok.2 ⟨_, Heap.get_eq_ok.2 hget, rfl⟩
    have hs := i.standing.cursors it c ⟨hit, hget⟩
    have hread : ∀ g ∈ c.children, ∃ o, s.heap.get? g = some o := fun g hg => by
      obtain ⟨o, ho, -⟩ := i.sound.get? (i.drawn hit hget hg)
      exact ⟨o, ho⟩
    have hinner : ∀ p ∈ c.children, ¬ c.Plain → ∃ m, Heap.stepsWithin n p s.heap = .ok m ∧
        s.heap.LimitedBy (fun c => c.left s.heap ≤ m) p := by
      intro p hp hown
      obtain ⟨d, hd⟩ := i.iter_of_drawn hit hget hown hp
      exact ih (i.drawn hit hget hp) hd (hn p ⟨_, hget, hp⟩)
    rw [Heap.stepsWithin, Heap.bind_of_ok hcur]
    cases c with
    | forward u k position =>
      obtain ⟨o, ho⟩ := hread u (List.mem_singleton_self u)
      refine ⟨_, Heap.bind_of_ok (Heap.get_eq_ok.2 ho), .own hget trivial ?_⟩
      simp only [Cursor.left, Heap.extent_eq ho]
      omega
    | backward u position =>
      obtain ⟨o, ho⟩ := hread u (List.mem_singleton_self u)
      refine ⟨_, Heap.bind_of_ok (Heap.get_eq_ok.2 ho), .own hget trivial ?_⟩
      simp only [Cursor.left, Heap.extent_eq ho]
      omega
    | range => exact ⟨_, rfl, .own hget trivial (Nat.le_refl _)⟩
    | entries d part hash place done =>
      cases done with
      | true => exact ⟨0, rfl, .own hget trivial (Nat.le_refl 0)⟩
      | false =>
        obtain ⟨o, ho⟩ := hread d (List.mem_singleton_self d)
        obtain ⟨t, rfl⟩ : ∃ t, o = .dict t := hs d (List.mem_singleton_self d) o ho
        refine ⟨t.toList.length, Heap.bind_of_ok (Heap.dict_eq_ok.2 ho), .own hget trivial ?_⟩
        simp only [Cursor.left, Bool.false_eq_true, if_false, Heap.ahead, ho]
        omega
    | members u hash place done =>
      cases done with
      | true => exact ⟨0, rfl, .own hget trivial (Nat.le_refl 0)⟩
      | false =>
        obtain ⟨o, ho⟩ := hread u (List.mem_singleton_self u)
        obtain ⟨t, rfl⟩ : ∃ t, o = .set t := hs u (List.mem_singleton_self u) o ho
        refine ⟨t.toList.length, Heap.bind_of_ok (Heap.set_eq_ok.2 ho), .own hget trivial ?_⟩
        simp only [Cursor.left, Bool.false_eq_true, if_false, Heap.ahead, ho]
        omega
    | enumerate inner k =>
      obtain ⟨m, hm, hl⟩ := hinner inner (List.mem_singleton_self inner) id
      exact ⟨m, hm, .counted hget hl⟩
    | zip left right =>
      obtain ⟨m, hm, hl⟩ := hinner left List.mem_cons_self id
      exact ⟨m, hm, .left hget hl⟩

/-- **Listing.** What a live iterator still gives can be listed in more steps than limit it. -/
theorem drain_total (i : s.Firm) (hit : s.heap.isLive it = true)
    (hl : s.heap.LimitedBy (fun c => c.left s.heap ≤ m) it) (hmn : m < n) (done : Array Handle) :
    ∃ items s', drain it done n s = .ok items s' := by
  induction n generalizing s m done with
  | zero => omega
  | succ n ih =>
    obtain ⟨c, hget⟩ : ∃ c, s.heap.get? it = some (.iter c) := by
      cases hl with
      | own hget | counted hget | left hget | right hget => exact ⟨_, hget⟩
    obtain ⟨r, s₁, h⟩ := i.next_total hit hget
    have l := (i.next_later hit h).1
    rw [drain, bind_of_ok h]
    cases r with
    | none => exact ⟨done, s₁, rfl⟩
    | some v =>
      obtain ⟨k, rfl, hk⟩ := i.limited_next hit h hl
      exact ih l.holds (l.ok_mono it hit) hk (by omega) (done.push v)

theorem grounded_drain (i : s.Firm) (hit : s.heap.isLive it = true) (ht : s.heap.Tame it)
    {done items : Array Handle} (hd : ∀ x ∈ done.toList, Grounded (seeLive s.heap) x)
    (h : drain it done n s = .ok items s') : ∀ x ∈ items.toList, Grounded (seeLive s'.heap) x := by
  induction n generalizing s done with
  | zero => cases h
  | succ n ih =>
    obtain ⟨r, s₁, hr, h⟩ := bind_eq_ok.1 h
    obtain ⟨l, -, hm⟩ := i.next_later hit hr
    cases r with
    | none =>
      obtain ⟨rfl, rfl⟩ := EStateM.Result.ok.inj h
      exact fun x hx => hm.grounded (hd x hx)
    | some v =>
      refine ih l.holds (l.ok_mono it hit) (i.tame_moved hit hm ht) (fun x hx => ?_) h
      rw [Array.toList_push, List.mem_append, List.mem_singleton] at hx
      rcases hx with hx | rfl
      · exact hm.grounded (hd x hx)
      · exact i.grounded_next hit ht hr

/-! ## Iterables -/

/-- The iterator for a tame value is tame. -/
theorem tame_iter (i : s.Firm) (hv : s.heap.isLive v = true) (ht : s.heap.Tame v)
    (h : iter v s = .ok it s') : s'.heap.Tame it := by
  have hr := (Trust.runs_iter (T := firmTrust) hv).result i
  have hsp := sparing_iter v s i.sound.roomy
  rw [h] at hr hsp
  have hm := moved_of_spares hr.1 hsp
  obtain ⟨o, s₁, hget, h⟩ := bind_eq_ok.1 h
  obtain ⟨ho, rfl⟩ := ask_eq_ok.1 hget
  rw [Heap.get_eq_ok] at ho
  split at h
  · obtain ⟨rfl, rfl⟩ := EStateM.Result.ok.inj h
    exact ht
  · cases hof : Cursor.ofObject? v o with
    | none =>
      simp only [hof] at h
      obtain ⟨_, _, -, h⟩ := bind_eq_ok.1 h
      cases h
    | some c =>
      simp only [hof] at h
      obtain ⟨g, old, heap, p, heq⟩ := Trust.alloc_placed i.sound.roomy (.iter c)
      obtain ⟨rfl, rfl⟩ := EStateM.Result.ok.inj (heq.symm.trans h)
      refine Heap.tame_of_has p.has_self (List.forall_mem_nil _) fun w hw => ?_
      -- the cursor draws on the value, or on the dict that a view draws on
      have hw : w = v ∨ s.heap.Draws v w := by
        cases Cursor.starts_of_ofObject? hof with
        | range => cases hw
        | view => exact .inr ⟨_, ho, hw⟩
        | _ => exact .inl (List.mem_singleton.1 hw)
      rcases hw with rfl | hw
      · exact i.tame_moved hv hm ht
      · exact i.tame_moved (i.sound.live_restsOn hv hw.restsOn) hm (ht.drawn hw)

/-- **Listed values.** Everything that a tame value gives is grounded. -/
theorem grounded_collect (i : s.Firm) (hv : s.heap.isLive v = true) (ht : s.heap.Tame v)
    {items : Array Handle} (h : collect v s = .ok items s') :
    ∀ x ∈ items.toList, Grounded (seeLive s'.heap) x := by
  obtain ⟨o, s₁, hget, h⟩ := bind_eq_ok.1 h
  obtain ⟨ho, rfl⟩ := ask_eq_ok.1 hget
  rw [Heap.get_eq_ok] at ho
  have hparts := Heap.grounded_parts ht.grounded ho
  split at h
  · obtain ⟨rfl, rfl⟩ := EStateM.Result.ok.inj h
    exact hparts
  · obtain ⟨rfl, rfl⟩ := EStateM.Result.ok.inj h
    exact hparts
  · obtain ⟨rfl, rfl⟩ := EStateM.Result.ok.inj h
    exact hparts
  · obtain ⟨it, s₁, hit, h⟩ := bind_eq_ok.1 h
    have hr := (Trust.runs_iter (T := firmTrust) hv).result i
    have htame := i.tame_iter hv ht hit
    rw [hit] at hr
    obtain ⟨d, s₂, hd, h⟩ := bind_eq_ok.1 h
    obtain ⟨-, rfl⟩ := ask_eq_ok.1 hd
    obtain ⟨m, s₃, hm, h⟩ := bind_eq_ok.1 h
    obtain ⟨-, rfl⟩ := ask_eq_ok.1 hm
    exact hr.1.holds.grounded_drain ((Trust.ok_handle it).1 hr.2) htame (List.forall_mem_nil _) h

end Firm

end Space

end ObjectSpace
