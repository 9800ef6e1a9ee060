import ObjectSpace.Proofs.Heap.Depth
import ObjectSpace.Proofs.Value.Keyed
import ObjectSpace.Proofs.Value.Runs

/-!
# Invariants of runs

What a new space has, primitive steps keep and collections keep holds in every state that a run
reaches (`LiveRun.always`, `Ran.always`). A collection changes no object, and on live handles it
makes none live.

**Theorem (`LiveRun.oneNothing`, `Ran.oneNothing`).** There is never more than one handle that names
None: none is placed after the first one, and an object does not become None.
-/

namespace ObjectSpace

variable {settings : Settings} {disk : Disk} {s s' : Space}

/-! ## Steps and turns -/

theorem Trust.Later.always {T : Trust} {I : Space → Prop} (l : T.Later s s') (hs : T.holds s)
    (hstep : ∀ s s', T.holds s → Step T.ok s s' → I s → I s') (i : I s) : I s' := by
  have h : T.holds s' ∧ I s' := by
    have hsteps := l.steps
    clear l
    induction hsteps with
    | refl => exact ⟨hs, i⟩
    | tail _ st ih => exact ⟨T.step ih.1 st, hstep _ _ ih.1 st ih.2⟩
  exact h.2

/-- An operation leads to a later state, also when it stops half-way. -/
theorem Trust.later_leave {T : Trust} (hs : T.holds s) (op : Operation)
    (h : ∀ g ∈ op.handles, T.ok s.heap g) : T.Later s ((Turn.operation op).leave s) := by
  have hr := (Trust.runs_operation op h).result hs
  rw [Turn.leave, Turn.run]
  cases ho : op.run s with
  | ok hs s' | error e s' =>
    rw [ho] at hr
    exact hr.1

theorem LiveRun.always {I : Space → Prop} (r : LiveRun settings disk s)
    (hnew : ∀ s, Space.create settings disk = .ok s → I s)
    (hstep : ∀ s s', s.Sound → Step liveTrust.ok s s' → I s → I s')
    (hcollect : ∀ s s', Arena.SameObjects s.heap s'.heap →
      (∀ v, s'.heap.isLive v = true → s.heap.isLive v = true) → I s → I s') : I s := by
  induction r with
  | start h => exact hnew _ h
  | @turn s t r ht ih =>
    have i := Space.sound_of_liveRun r
    by_cases hc : t.Collects
    · exact hcollect _ _ (Turn.leave_collect hc s).1 (i.live_of_collect hc ht) ih
    · cases t with
      | operation op => exact (Trust.later_leave (T := liveTrust) i op ht).always i hstep ih
      | collectNow | collectIfDue => exact absurd trivial hc

theorem Ran.always {I : Space → Prop} {lost : Set Handle} (r : Ran settings disk s lost)
    (hnew : ∀ s, Space.create settings disk = .ok s → I s)
    (hstep : ∀ ok s s', Step ok s s' → I s → I s')
    (hcollect : ∀ s s', Arena.SameObjects s.heap s'.heap → I s → I s') : I s := by
  induction r with
  | start h => exact hnew _ h
  | @turn s lost t r ht ih =>
    have b := between_of_ran r
    by_cases hc : t.Collects
    · exact hcollect _ _ (Turn.leave_collect hc s).1 ih
    · cases t with
      | operation op =>
        have l := Trust.later_leave (T := (Issued.sight s.heap lost).toTrust) b.holds op
          fun v hv => (ht v hv).imp_right .inl
        exact l.always b.holds (fun s s' _ => hstep _ s s') ih
      | collectNow | collectIfDue => exact absurd trivial hc

/-! ## None -/

/-- All handles that name None are the same. -/
def Heap.OneNothing (heap : Heap) : Prop :=
  ∀ u v, heap.get? u = some .nothing → heap.get? v = some .nothing → u = v

theorem Heap.OneNothing.mono {a b : Heap} (h : a.OneNothing)
    (hback : ∀ v, b.get? v = some .nothing → a.get? v = some .nothing) : b.OneNothing :=
  fun u v hu hv => h u v (hback u hu) (hback v hv)

theorem Step.oneNothing {ok : Heap → Handle → Prop} (st : Step ok s s')
    (h : s.heap.OneNothing) : s'.heap.OneNothing := by
  refine h.mono fun v hv => ?_
  rcases st.object hv with ⟨o, ho, hch, -⟩ | ⟨-, hp, -⟩
  · cases hch.evolves.evolution
    exact ho
  · exact hp.elim

theorem Space.create_oneNothing (h : Space.create settings disk = .ok s) :
    s.heap.OneNothing := by
  have hfirst : ∀ v, s.heap.get? v = some .nothing → v = s.noneValue := fun v hv => by
    simpa using Space.create_single h hv trivial
  exact fun u v hu hv => (hfirst u hu).trans (hfirst v hv).symm

theorem Arena.SameObjects.oneNothing {a b : Heap} (h : SameObjects a b) (hn : a.OneNothing) :
    b.OneNothing := hn.mono fun v hv => h.get?_eq v ▸ hv

theorem LiveRun.oneNothing (r : LiveRun settings disk s) : s.heap.OneNothing :=
  r.always (I := fun s => s.heap.OneNothing) (fun _ => Space.create_oneNothing)
    (fun _ _ _ st => st.oneNothing) fun _ _ h _ => h.oneNothing

theorem Ran.oneNothing {lost : Set Handle} (r : Ran settings disk s lost) : s.heap.OneNothing :=
  r.always (I := fun s => s.heap.OneNothing) (fun _ => Space.create_oneNothing)
    (fun _ _ _ st => st.oneNothing) fun _ _ h => h.oneNothing

end ObjectSpace

/-!
## What objects are made with

Some of the handles in an object are settled when it is made (`Object.Settles`): the items of a
tuple, what an iterator draws on, the parent of a context. They name objects that were there before
it.

**Theorem (`LiveRun.wellFounded`).** In a run on live handles there is no endless chain of objects
that were made with one another. From a live handle, such a chain is no longer than the heap has
cells (`LiveRun.nested_via`).

A step of a run keeps it so (`Space.Sound.acc_step`): what was there is made with the same handles
as before, also where it changes, and what is new is made with live handles, which name what was
there. A cell that is used again has a new handle, so no chain passes from what was in it before to
what is in it now.
-/

namespace ObjectSpace

open Relation (ReflTransGen TransGen)

variable {F : Object → List Handle}

/-- Handles in an object that it is made with and keeps. -/
structure Object.Settles (F : Object → List Handle) : Prop where
  evolves : ∀ {o o' : Object}, o.Evolves o' → F o' = F o
  children : ∀ {o : Object} {v : Handle}, v ∈ F o → v ∈ o.children

namespace Heap

/-- What one handle names was made with another one. -/
def Via (F : Object → List Handle) (heap : Heap) (v p : Handle) : Prop :=
  ∃ o, heap.get? v = some o ∧ p ∈ F o

/-- No live handle begins an endless chain of objects that were made with one another. -/
def Founded (F : Object → List Handle) (heap : Heap) : Prop :=
  ∀ v, heap.isLive v = true → Acc (flip (heap.Via F)) v

variable {a b : Heap} {v p : Handle}

/-- What could be read before was made with the same handles. -/
theorem Kept.via_back (hF : Object.Settles F) (k : Kept a b) (hv : a.isCurrent v = true)
    (h : b.Via F v p) : a.Via F v p := by
  obtain ⟨o, ho⟩ := Arena.isCurrent_iff.1 hv
  obtain ⟨o', ho', hp⟩ := h
  exact ⟨o, ho, hF.evolves (k.evolves ho ho') ▸ hp⟩

/-- Where what was there was made with nothing new, no endless chain comes about. -/
theorem acc_via {P : Handle → Prop} (hP : ∀ v p, P v → b.Via F v p → a.Via F v p ∧ P p)
    (h : Acc (flip (a.Via F)) v) (hv : P v) : Acc (flip (b.Via F)) v := by
  induction h with
  | intro v _ ih =>
    refine .intro v fun p hp => ?_
    obtain ⟨hvia, hPp⟩ := hP v p hv hp
    exact ih p hvia hPp

theorem via_back (h : Arena.SameObjects a b) (hv : b.Via F v p) : a.Via F v p := by
  obtain ⟨o, ho, hp⟩ := hv
  exact ⟨o, h.get?_eq v ▸ ho, hp⟩

/-- Where nothing becomes live and nothing else changes, no endless chain comes about. -/
theorem Founded.cleared (h : a.Founded F) (hsame : Arena.SameObjects a b)
    (hback : ∀ v, b.isLive v = true → a.isLive v = true) : b.Founded F :=
  fun v hv => acc_via (P := fun _ => True) (fun _ _ _ hp => ⟨via_back hsame hp, trivial⟩)
    (h v (hback v hv)) trivial

end Heap

namespace Space

variable {s s' : Space} {v p : Handle} {o : Object}

theorem Sound.live_child (i : s.Sound) (hv : s.heap.isLive v = true)
    (ho : s.heap.get? v = some o) (hp : p ∈ o.children) : s.heap.isLive p = true := by
  obtain ⟨w, hw, hlive⟩ := i.get? hv
  exact hlive p (Option.some.inj (ho.symm.trans hw) ▸ hp)

variable (hF : Object.Settles F)

include hF

theorem Sound.live_via (i : s.Sound) (hv : s.heap.isLive v = true) (h : s.heap.Via F v p) :
    s.heap.isLive p = true := by
  obtain ⟨o, ho, hp⟩ := h
  exact i.live_child hv ho (hF.children hp)

theorem Sound.nested_via (i : s.Sound) (h : s.heap.Founded F) (hv : s.heap.isLive v = true) :
    Nested (s.heap.Via F) s.heap.capacity v := by
  refine nested_of_acc (h v hv) fun p hp => i.current ?_
  induction hp with
  | refl => exact hv
  | tail _ hp ih => exact i.live_via hF ih hp

/-- What begins no endless chain begins none after a step: what the step places has chains of older
objects. -/
theorem Sound.acc_step (i : s.Sound) (st : Step liveTrust.ok s s') (h : s.heap.Founded F)
    (hv : Acc (flip (s.heap.Via F)) v) : Acc (flip (s'.heap.Via F)) v := by
  have hlive : ∀ v p, s.heap.isLive v = true → s'.heap.Via F v p →
      s.heap.Via F v p ∧ s.heap.isLive p = true := by
    intro v p hv hp
    have hold := st.kept.via_back hF (i.current hv) hp
    exact ⟨hold, i.live_via hF hv hold⟩
  -- the induction follows the chains there were; a new object can only come before them
  induction hv with
  | intro v _ ih =>
    refine .intro v ?_
    rintro p ⟨o', ho', hp⟩
    rcases st.object ho' with ⟨o, ho, hch, -⟩ | ⟨-, -, hc⟩
    · exact ih p ⟨o, ho, hF.evolves hch.evolves ▸ hp⟩
    · have hp := hc p (hF.children hp)
      exact Heap.acc_via hlive (h p hp) hp

theorem Sound.founded_step (i : s.Sound) (st : Step liveTrust.ok s s') (h : s.heap.Founded F) :
    s'.heap.Founded F := by
  intro v hv
  obtain ⟨o', ho'⟩ := Arena.isCurrent_iff.1 ((i.step st).current hv)
  rcases st.object ho' with ⟨o, ho, -, -⟩ | ⟨-, -, hc⟩
  · exact i.acc_step hF st h (h v (live_back st hv ho))
  · refine .intro v ?_
    rintro p ⟨o, ho, hp⟩
    obtain rfl := Option.some.inj (ho'.symm.trans ho)
    exact i.acc_step hF st h (h p (hc p (hF.children hp)))

theorem create_wellFounded {settings : Settings} {disk : Disk}
    (h : create settings disk = .ok s) : WellFounded (flip (s.heap.Via F)) := by
  obtain ⟨a, -, hf, hs, -⟩ := create_sown h
  refine ⟨fun v => .intro v fun p ⟨o, ho, hp⟩ => ?_⟩
  have hc := hF.children hp
  rw [(hs.permanent hf ho).children_eq] at hc
  cases hc

theorem create_founded {settings : Settings} {disk : Disk} (h : create settings disk = .ok s) :
    s.heap.Founded F :=
  fun v _ => (create_wellFounded hF h).apply v

end Space

variable {settings : Settings} {disk : Disk} {s : Space} {v : Handle}

/-- **Well-founded.** In a run there are no endless chains, whether their handles are live or not:
what the collector is about to free and what it has not found yet are no exception. -/
theorem LiveRun.wellFounded (r : LiveRun settings disk s) (hF : Object.Settles F) :
    WellFounded (flip (s.heap.Via F)) := by
  refine r.always (I := fun s => WellFounded (flip (s.heap.Via F)))
    (fun _ => Space.create_wellFounded hF) (fun s s' i st h => ⟨fun v => ?_⟩)
    (fun s s' hsame _ h => ?_)
  · exact i.acc_step hF st (fun v _ => h.apply v) (h.apply v)
  · refine ⟨fun v => Heap.acc_via (P := fun _ => True) (fun v p _ hp => ⟨?_, trivial⟩)
      (h.apply v) trivial⟩
    exact Heap.via_back hsame hp

/-- **Founded.** In a run no live handle begins an endless chain. -/
theorem LiveRun.founded (r : LiveRun settings disk s) (hF : Object.Settles F) :
    s.heap.Founded F :=
  fun v _ => (r.wellFounded hF).apply v

theorem LiveRun.nested_via (r : LiveRun settings disk s) (hF : Object.Settles F)
    (hv : s.heap.isLive v = true) : Nested (s.heap.Via F) s.heap.capacity v :=
  (Space.sound_of_liveRun r).nested_via hF (r.founded hF) hv

end ObjectSpace
