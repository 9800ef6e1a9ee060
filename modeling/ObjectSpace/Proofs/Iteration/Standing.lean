import ObjectSpace.Proofs.Value.Always

/-!
# What iterators and views rest on

An iterator draws on sequences, tables and other iterators, and a view on its dict. What an object
draws on is settled when it is made, as the items of a tuple are: `Object.footing` lists both, and
it stays as it is (`Object.Evolves.footing_eq`). So nothing comes to rest on itself.

**Theorem (`LiveRun.firm`).** In a run on live handles live views are views of dicts, live iterators
stand (`Cursor.Stands`), and there is no endless chain of handles that rest one on the next
(`Heap.Standing`).
-/

namespace ObjectSpace

/-! ## Footing -/

namespace Object

/-- What an iterator or a view draws on. -/
def draws : Object → List Handle
  | iter c => c.children
  | view d _ => [d]
  | _ => []

/-- The handles in an object that stay as they are. -/
def footing : Object → List Handle
  | tuple items => items.toList
  | o => o.draws

variable {o o' : Object}

theorem Evolves.draws_eq (h : o.Evolves o') : o'.draws = o.draws := by
  cases h.evolution with
  | iter hc => exact hc.children_eq
  | _ => rfl

theorem Evolves.footing_eq (h : o.Evolves o') : o'.footing = o.footing := by
  have hdraws := h.draws_eq
  cases h.evolution with
  | same => rfl
  | _ => exact hdraws

theorem mem_footing_of_draws {v : Handle} (h : v ∈ o.draws) : v ∈ o.footing := by
  cases o with
  | tuple => cases h
  | _ => exact h

theorem mem_children_of_footing {v : Handle} (h : v ∈ o.footing) : v ∈ o.children := by
  cases o with
  | tuple | iter | view => exact h
  | _ => cases h

theorem settles_footing : Settles footing := ⟨Evolves.footing_eq, mem_children_of_footing⟩

end Object

namespace Heap

/-- What one handle names rests on another one. -/
def RestsOn (heap : Heap) (v p : Handle) : Prop := ∃ o, heap.get? v = some o ∧ p ∈ o.footing

/-- What one handle names draws on another one. -/
def Draws (heap : Heap) (v p : Handle) : Prop := ∃ o, heap.get? v = some o ∧ p ∈ o.draws

variable {a b heap : Heap} {v p : Handle} {c : Cursor}

theorem Draws.restsOn (h : heap.Draws v p) : heap.RestsOn v p := by
  obtain ⟨o, ho, hp⟩ := h
  exact ⟨o, ho, Object.mem_footing_of_draws hp⟩

/-- What could be read before rests on the same handles. -/
theorem Kept.restsOn_back (k : Kept a b) (hv : a.isCurrent v = true) (h : b.RestsOn v p) :
    a.RestsOn v p :=
  k.via_back Object.settles_footing hv h

/-! ## Standing -/

/-- Live views are views of dicts, live iterators stand, and no live handle begins an endless chain
of handles that rest one on the next. -/
structure Standing (heap : Heap) : Prop where
  views : ∀ v d part, heap.Has v (.view d part) → ∃ t, heap.get? d = some (.dict t)
  cursors : ∀ v c, heap.Has v (.iter c) → c.Stands heap
  founded : ∀ v, heap.isLive v = true → Acc (flip heap.RestsOn) v

end Heap

theorem Cursor.Suits.evolves {c : Cursor} {o o' : Object} (h : c.Suits o) (he : o.Evolves o') :
    c.Suits o' := by
  cases c with
  | range => trivial
  | forward u k position | backward u position =>
    cases he.evolution with
    | same => exact h
    | _ => rfl
  | entries | members | enumerate | zip =>
    obtain ⟨x, rfl⟩ := h
    cases he.evolution <;> exact ⟨_, rfl⟩

namespace Heap

variable {a b : Heap} {v : Handle} {c : Cursor}

/-- A cursor over what could be read stands for as long as it is there. -/
theorem Kept.stands (k : Kept a b) (hc : ∀ g ∈ c.children, a.isCurrent g = true)
    (h : c.Stands a) : c.Stands b := by
  intro g hg o' ho'
  obtain ⟨o, ho⟩ := Arena.isCurrent_iff.1 (hc g hg)
  exact (h g hg o ho).evolves (k.evolves ho ho')

end Heap

namespace Space

variable {s s' : Space} {v : Handle} {o : Object}

theorem Sound.live_restsOn (i : s.Sound) (hv : s.heap.isLive v = true) {p : Handle}
    (h : s.heap.RestsOn v p) : s.heap.isLive p = true :=
  i.live_via Object.settles_footing hv h

/-- Steps on live handles keep all standing. -/
theorem Sound.standing_step (i : s.Sound) (st : Step liveTrust.ok s s')
    (h : s.heap.Standing) : s'.heap.Standing := by
  have hkept := st.kept
  have hdict : ∀ {d : Handle} {t}, s.heap.isLive d = true → s.heap.get? d = some (.dict t) →
      ∃ t, s'.heap.get? d = some (.dict t) := fun hd ht => by
    obtain ⟨o', ho', he⟩ := hkept.has ⟨hd, ht⟩
    cases he.evolution <;> exact ⟨_, ho'.2⟩
  refine ⟨fun v d part ho' => ?_, fun v c' ho' => ?_,
    i.founded_step Object.settles_footing st h.founded⟩
  · rcases st.object ho'.2 with ⟨o, ho, hch, -⟩ | ⟨-, hp, hc⟩
    · have hv := live_back st ho'.1 ho
      cases hch.evolves.evolution
      obtain ⟨t, ht⟩ := h.views v d part ⟨hv, ho⟩
      exact hdict (i.live_child hv ho (List.mem_singleton_self d)) ht
    · have hd : s.heap.isLive d = true := hc d (List.mem_singleton_self d)
      obtain ⟨o, ho, -⟩ := i.get? hd
      obtain ⟨t, rfl⟩ := hp o ho
      exact hdict hd ho
  · rcases st.object ho'.2 with ⟨o, ho, hch, -⟩ | ⟨-, hp, hc⟩
    · have hv := live_back st ho'.1 ho
      have hstands : c'.Stands s.heap := by
        cases hch with
        | same => exact h.cursors v c' ⟨hv, ho⟩
        | advance hadv => exact hadv.stands (h.cursors v _ ⟨hv, ho⟩)
      refine hkept.stands (fun g hg => i.current (i.live_child hv ho ?_)) hstands
      have hdraws : c'.children = o.draws := hch.evolves.draws_eq
      exact Object.mem_children_of_footing (Object.mem_footing_of_draws (hdraws ▸ hg))
    · refine hkept.stands (fun g hg => i.current (hc g hg)) ?_
      rcases hp with hp | ⟨w, d, part, hw, hget, rfl⟩
      · exact hp
      · intro g hg o ho
        obtain rfl := List.mem_singleton.1 hg
        obtain ⟨t, ht⟩ := h.views w g part ⟨hw, hget⟩
        exact ⟨t, Option.some.inj (ho.symm.trans ht)⟩

theorem create_standing {settings : Settings} {disk : Disk}
    (h : create settings disk = .ok s) : s.heap.Standing := by
  obtain ⟨a, -, hf, hs, -⟩ := create_sown h
  have hpermanent : ∀ v o, s.heap.get? v = some o → o.Permanent := fun v o ho =>
    hs.permanent hf ho
  exact ⟨fun v d part ho => (hpermanent v _ ho.2).elim, fun v c ho =>
    (hpermanent v _ ho.2).elim, create_founded Object.settles_footing h⟩

end Space

/-- Where nothing becomes live and nothing else changes, all stay standing. -/
theorem Heap.Standing.cleared {a b : Heap} (h : a.Standing) (hsame : Arena.SameObjects a b)
    (hback : ∀ v, b.isLive v = true → a.isLive v = true) : b.Standing := by
  refine ⟨fun v d part ho => ?_, fun v c ho g hg o hget => ?_, ?_⟩
  · rw [hsame.get?_eq]
    exact h.views v d part ⟨hback v ho.1, hsame.get?_eq v ▸ ho.2⟩
  · exact h.cursors v c ⟨hback v ho.1, hsame.get?_eq v ▸ ho.2⟩ g hg o (hsame.get?_eq g ▸ hget)
  · exact Heap.Founded.cleared (F := Object.footing) h.founded hsame hback

/-! ## Runs -/

/-- What holds between the steps of a run on live handles, with all that iteration rests on. -/
structure Space.Firm (s : Space) : Prop extends s.Ordered where
  standing : s.heap.Standing

/-- The trust in live handles where all stand. -/
def firmTrust : Trust where
  holds := Space.Firm
  ok heap h := heap.isLive h = true
  roomy i := i.sound.roomy
  root i := liveTrust.root i.sound
  child i := liveTrust.child i.sound
  step i st := ⟨orderedTrust.step i.toOrdered st, i.sound.standing_step st i.standing⟩
  ok_step i := liveTrust.ok_step i.sound
  ok_placed i := liveTrust.ok_placed i.sound

/-- In runs on live handles all stand. -/
theorem LiveRun.firm {settings : Settings} {disk : Disk} {s : Space}
    (r : LiveRun settings disk s) : s.Firm where
  toOrdered := ordered_of_liveRun r
  standing := r.always (I := fun s => s.heap.Standing) (fun _ => Space.create_standing)
    (fun _ _ i st => i.standing_step st) fun _ _ hsame hback h => h.cleared hsame hback

namespace Space.Firm

variable {s : Space} {v : Handle}

/-- What a live value rests on is nested at most as deep as the heap has cells. -/
theorem nested (i : s.Firm) (hv : s.heap.isLive v = true) :
    Nested s.heap.RestsOn s.heap.capacity v :=
  i.sound.nested_via Object.settles_footing i.standing.founded hv

end Space.Firm

end ObjectSpace
