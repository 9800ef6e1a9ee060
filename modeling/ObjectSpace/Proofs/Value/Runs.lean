import ObjectSpace.Proofs.Run.Live
import ObjectSpace.Proofs.Value.Equivalence

/-!
# Equality in runs

**Theorem (`equal_equivalence`).** In every state that a run reaches, equality answers on valid
values that do not contain themselves, and it is an equivalence relation on them. A value is valid
when its handle and those of its parts name the objects they were issued for. There are two ways to
be sure of that: the handles were never lost in a run in which any issued handle may be used, or
they are live in a run in which only live handles are used.

In a run of the first kind a turn may be given any handle that was issued before, whether or not its
object is live or was even replaced. A handle is lost when its slot is handed out again; one that
was issued and is not lost names the object it was issued for. In every state of such a run texts
carry their own hash and, as far as handles that are not lost show them, tables are filed
(`Ran.legible`).

A lost handle can read something again: after its slot was handed out 2^32 times, and then it reads
another object. Keys that were filed through it are then keys of nothing that was filed. This is
why the view leaves lost handles out.
-/

namespace ObjectSpace

/-! ## Issued handles -/

open Classical in
/-- What handles that are not lost read. -/
noncomputable def seeKept (lost : Set Handle) (heap : Heap) (v : Handle) : Option Object :=
  if v ∈ lost then none else heap.get? v

theorem seeKept_eq_some {lost : Set Handle} {heap : Heap} {v : Handle} {o : Object} :
    seeKept lost heap v = some o ↔ v ∉ lost ∧ heap.get? v = some o := by
  unfold seeKept
  split <;> simp_all

/-- The spaces that runs lead to in which every handle given was issued, with the handles that were
lost on the way. -/
inductive Ran (settings : Settings) (disk : Disk) : Space → Set Handle → Prop
  | start {s : Space} : Space.create settings disk = .ok s → Ran settings disk s ∅
  | turn {s : Space} {lost : Set Handle} (t : Turn) : Ran settings disk s lost →
      (∀ v ∈ t.handles, s.heap.isCurrent v = true ∨ v ∈ lost) →
      Ran settings disk (t.leave s) (lost ∪
        {v | s.heap.isCurrent v = true ∧ ¬ (t.leave s).heap.isCurrent v = true})

namespace Issued

/-- The handles issued before a turn from `start` or in it. -/
def ok (start : Heap) (lost : Set Handle) (heap : Heap) (v : Handle) : Prop :=
  heap.isCurrent v = true ∨ v ∈ lost ∨ start.isCurrent v = true

/-- What holds in a turn that begins at `start`: only issued handles are about, and what was issued
in the turn is live. -/
structure Holds (start : Heap) (lost : Set Handle) (s : Space) : Prop where
  roomy : s.heap.Roomy
  kept : Heap.Kept start s.heap
  young : ∀ v, s.heap.isCurrent v = true → start.isCurrent v = true ∨ s.heap.isLive v = true
  roots : ∀ v ∈ s.permanentRoots, ok start lost s.heap v
  closed : ∀ v o, s.heap.get? v = some o → ∀ c ∈ o.children, ok start lost s.heap c

variable {start : Heap} {lost : Set Handle} {s s' : Space} {v : Handle}

/-- What is not live can be read after a step if it can be read at all. -/
theorem current_step (st : Step (ok start lost) s s') (hv : s.heap.isCurrent v = true) :
    s'.heap.isCurrent v = true ∨ s.heap.isLive v = false := by
  obtain ⟨o, ho⟩ := Arena.isCurrent_iff.1 hv
  obtain ⟨x, hx, hxv⟩ := Arena.get?_eq_some.1 ho
  rcases st.kept v x hx with ⟨y, hy, -, hyv⟩ | ⟨hdead, -⟩
  · obtain ⟨o', ho', -⟩ := hyv o hxv
    exact .inl (Arena.isCurrent_iff.2 ⟨o', Arena.get?_eq_some.2 ⟨y, hy, ho'⟩⟩)
  · refine .inr ?_
    rw [Arena.isLive, hx, Option.any_some, hdead]

theorem Holds.ok_step (i : Holds start lost s) (st : Step (ok start lost) s s')
    (hv : ok start lost s.heap v) : ok start lost s'.heap v := by
  rcases hv with hv | hv
  · rcases current_step st hv with hv' | hdead
    · exact .inl hv'
    · rcases i.young v hv with hstart | hlive
      · exact .inr (.inr hstart)
      · rw [hdead] at hlive
        cases hlive
  · exact .inr hv

theorem live_of_new (st : Step (ok start lost) s s') {o' : Object}
    (h : s'.heap.get? v = some o') (hnone : s.heap.get? v = none) : s'.heap.isLive v = true := by
  cases st with
  | alloc p =>
    rcases p.get?_eq h with ⟨rfl, -⟩ | ⟨-, hv⟩
    · exact p.isLive_self
    · rw [hnone] at hv
      cases hv
  | update ho =>
    rw [Arena.get?_modify ho] at h
    split at h
    · rename_i hv
      rw [hv, ho] at hnone
      cases hnone
    · rw [hnone] at h
      cases h
  | _ =>
    rw [hnone] at h
    cases h

theorem Holds.step (i : Holds start lost s) (st : Step (ok start lost) s s') :
    Holds start lost s' := by
  refine
    { roomy := st.roomy i.roomy
      kept := i.kept.trans st.kept
      young := fun v hv => ?_
      roots := fun v hv => i.ok_step st ((st.root hv).elim (i.roots v) id)
      closed := fun v o' h => ?_ }
  · obtain ⟨o', ho'⟩ := Arena.isCurrent_iff.1 hv
    rcases st.object ho' with ⟨o, ho, -, -⟩ | ⟨hnone, -, -⟩
    · exact (i.young v (Arena.isCurrent_iff.2 ⟨o, ho⟩)).imp_right st.kept.live
    · exact .inr (live_of_new st ho' hnone)
  · rcases st.object h with ⟨o, ho, -, rfl | hc⟩ | ⟨-, -, hc⟩
    · exact fun c hm => i.ok_step st (i.closed v o' ho c hm)
    · exact fun c hm => i.ok_step st (hc c hm)
    · exact fun c hm => i.ok_step st (hc c hm)

/-- Issued handles, read as long as they are not lost. -/
noncomputable def sight (start : Heap) (lost : Set Handle) : Sight where
  holds := Holds start lost
  ok := ok start lost
  roomy i := i.roomy
  root i hh := i.roots _ hh
  child i _ ho hc := i.closed _ _ ho _ hc
  step i st := i.step st
  ok_step i st hv := i.ok_step st hv
  ok_placed _ p := .inl (Arena.isCurrent_iff.2 ⟨_, p.get?_self⟩)
  see := seeKept lost
  shows _ _ _ h := (seeKept_eq_some.1 h).2
  back {s s' v o'} i st hv h := by
    obtain ⟨hl, ho'⟩ := seeKept_eq_some.1 h
    rcases st.object ho' with ⟨o, ho, -⟩ | ⟨hnone, -, -⟩
    · exact ⟨o, seeKept_eq_some.2 ⟨hl, ho⟩⟩
    · have hstart : start.isCurrent v = true := by
        rcases hv with hv | hv | hv
        · rw [Arena.isCurrent, hnone] at hv
          cases hv
        · exact absurd hv hl
        · exact hv
      obtain ⟨w, hw⟩ := Arena.isCurrent_iff.1 hstart
      obtain ⟨x, hx, hxv⟩ := Arena.get?_eq_some.1 hw
      rcases i.kept v x hx with ⟨y, hy, -, hyv⟩ | ⟨-, ht⟩
      · obtain ⟨o, ho, -⟩ := hyv w hxv
        exact ⟨o, seeKept_eq_some.2 ⟨hl, Arena.get?_eq_some.2 ⟨y, hy, ho⟩⟩⟩
      · have hcell := Heap.cell?_of_taken (st.kept.live ht)
        rw [Arena.get?, hcell] at ho'
        cases ho'
  ok_back _ _ _ ho := .inl (Arena.isCurrent_iff.2 ⟨_, ho⟩)

/-- What holds between turns. -/
structure Between (lost : Set Handle) (s : Space) : Prop where
  holds : Holds s.heap lost s
  tidy : (sight s.heap lost).Tidy s.heap

/-- At the end of a turn the handles that it lost join those that were lost before. -/
theorem between_of_holds (i : Holds start lost s) (t : (sight start lost).Tidy s.heap)
    (hsame : Arena.SameObjects s.heap s'.heap) (hroots : s'.permanentRoots = s.permanentRoots) :
    Between (lost ∪ {v | start.isCurrent v = true ∧ ¬ s'.heap.isCurrent v = true}) s' := by
  have hcur : ∀ v, s'.heap.isCurrent v = s.heap.isCurrent v := fun v => by
    rw [Arena.isCurrent, Arena.isCurrent, hsame.get?_eq]
  have hok : ∀ v, ok start lost s.heap v → ok s'.heap
      (lost ∪ {v | start.isCurrent v = true ∧ ¬ s'.heap.isCurrent v = true}) s'.heap v := by
    intro v hv
    by_cases hv' : s'.heap.isCurrent v = true
    · exact .inl hv'
    · refine .inr (.inl ?_)
      rcases hv with hv | hv | hv
      · exact absurd ((hcur v).trans hv) hv'
      · exact .inl hv
      · exact .inr ⟨hv, hv'⟩
  refine ⟨⟨hsame.roomy i.roomy, .refl _, fun _ => .inl, fun v hv => ?_, fun v o h c hc => ?_⟩, ?_⟩
  · exact hok v (i.roots v (hroots ▸ hv))
  · exact hok c (i.closed v o (hsame.get?_eq v ▸ h) c hc)
  · refine t.congr hsame.get?_eq (fun v o _ h => .inl (Arena.isCurrent_iff.2 ⟨o, h⟩))
      fun v o h => ?_
    obtain ⟨hl, h⟩ := seeKept_eq_some.1 h
    exact seeKept_eq_some.2 ⟨fun hm => hl (.inl hm), hsame.get?_eq v ▸ h⟩

theorem between_of_create {settings : Settings} {disk : Disk}
    (h : Space.create settings disk = .ok s) : Between ∅ s := by
  have i := Space.create_sound h
  obtain ⟨a, hr, hf, hs, -⟩ := Space.create_sown h
  refine ⟨⟨i.roomy, .refl _, fun _ => .inl, fun v hv => .inl (i.current (i.roots v hv)),
    fun v o h c hc => ?_⟩, Sight.tidy_of_permanent fun v o h => hs.permanent hf h⟩
  rw [(hs.permanent hf h).children_eq] at hc
  cases hc

/-- A turn on issued handles keeps what holds between turns. -/
theorem Between.turn (b : Between lost s) (t : Turn)
    (ht : ∀ v ∈ t.handles, s.heap.isCurrent v = true ∨ v ∈ lost) :
    Between (lost ∪ {v | s.heap.isCurrent v = true ∧ ¬ (t.leave s).heap.isCurrent v = true})
      (t.leave s) := by
  by_cases hc : t.Collects
  · obtain ⟨hsame, hroots⟩ := Turn.leave_collect hc s
    exact between_of_holds b.holds b.tidy hsame hroots
  · cases t with
    | operation op =>
      have hr := (Trust.runs_operation (T := (sight s.heap lost).filing) op fun v hv =>
        (ht v hv).imp_right .inl).result ⟨b.holds, b.tidy⟩
      rw [Turn.leave, Turn.run]
      cases ho : op.run s with
      | ok hs s' | error e s' =>
        rw [ho] at hr
        obtain ⟨i, t⟩ := hr.1.holds
        exact between_of_holds i t (.refl _) rfl
    | collectNow | collectIfDue => exact absurd trivial hc

end Issued

theorem between_of_ran {settings : Settings} {disk : Disk} {s : Space} {lost : Set Handle}
    (r : Ran settings disk s lost) : Issued.Between lost s := by
  induction r with
  | start h => exact Issued.between_of_create h
  | turn t _ ht ih => exact ih.turn t ht

theorem Ran.legible {settings : Settings} {disk : Disk} {s : Space} {lost : Set Handle}
    (r : Ran settings disk s lost) : Legible s.heap (seeKept lost s.heap) := by
  have b := between_of_ran r
  refine ⟨fun v o h => (seeKept_eq_some.1 h).2, b.tidy.texts, b.tidy.trim, fun v o h => ?_⟩
  have hget := (seeKept_eq_some.1 h).2
  exact b.tidy.filed v o (.inl (Arena.isCurrent_iff.2 ⟨o, hget⟩)) hget

/-! ## Live handles -/

/-- What live handles read. -/
def seeLive (heap : Heap) (v : Handle) : Option Object :=
  if heap.isLive v then heap.get? v else none

theorem seeLive_eq_some {heap : Heap} {v : Handle} {o : Object} :
    seeLive heap v = some o ↔ heap.isLive v = true ∧ heap.get? v = some o := by
  unfold seeLive
  split <;> simp_all

/-- A step that makes a handle live makes it a new one. -/
theorem live_back {s s' : Space} {v : Handle} {o : Object}
    (st : Step (fun heap g => heap.isLive g = true) s s') (hv : s'.heap.isLive v = true)
    (ho : s.heap.get? v = some o) : s.heap.isLive v = true := by
  cases st with
  | alloc p =>
    rcases p.isLive_iff.1 hv with rfl | hv
    · rw [p.get?_new] at ho
      cases ho
    · exact hv
  | update h => rwa [Arena.isLive_modify h] at hv
  | _ => exact hv

/-- Live handles, read as long as they are live. -/
def liveSight : Sight where
  toTrust := liveTrust
  see := seeLive
  shows _ _ _ h := (seeLive_eq_some.1 h).2
  back i _ hv _ := by
    obtain ⟨o, ho, -⟩ := Space.Sound.get? i hv
    exact ⟨o, seeLive_eq_some.2 ⟨hv, ho⟩⟩
  ok_back _ st hv ho := live_back st hv ho

theorem tidy_of_liveRun {settings : Settings} {disk : Disk} {s : Space}
    (r : LiveRun settings disk s) : liveSight.Tidy s.heap := by
  induction r with
  | start h =>
    obtain ⟨a, -, hf, hs, -⟩ := Space.create_sown h
    exact Sight.tidy_of_permanent fun v o h => hs.permanent hf h
  | @turn s t r ht ih =>
    have i := Space.sound_of_liveRun r
    by_cases hc : t.Collects
    · obtain ⟨hsame, -⟩ := Turn.leave_collect hc s
      have hback := i.live_of_collect hc ht
      refine ih.congr hsame.get?_eq (fun v _ hv _ => hback v hv) fun v o h => ?_
      obtain ⟨hv, h⟩ := seeLive_eq_some.1 h
      exact seeLive_eq_some.2 ⟨hback v hv, hsame.get?_eq v ▸ h⟩
    · cases t with
      | operation op =>
        have hr := (Trust.runs_operation (T := liveSight.filing) op ht).result ⟨i, ih⟩
        rw [Turn.leave, Turn.run]
        cases ho : op.run s with
        | ok hs s' | error e s' =>
          rw [ho] at hr
          exact hr.1.holds.2
      | collectNow | collectIfDue => exact absurd trivial hc

theorem LiveRun.legible {settings : Settings} {disk : Disk} {s : Space}
    (r : LiveRun settings disk s) : Legible s.heap (seeLive s.heap) := by
  have t := tidy_of_liveRun r
  refine ⟨fun v o h => (seeLive_eq_some.1 h).2, t.texts, t.trim, fun v o h => ?_⟩
  obtain ⟨hv, h⟩ := seeLive_eq_some.1 h
  exact t.filed v o hv h

/-- **Equality in runs.** It is an equivalence relation on the grounded values of handles that are
not lost, whatever issued handles the run used, and on those of live handles, if the run used live
handles only. -/
theorem equal_equivalence {settings : Settings} {disk : Disk} {s : Space} :
    (∀ lost, Ran settings disk s lost → EqualityOn s.heap (Grounded (seeKept lost s.heap))) ∧
      (LiveRun settings disk s → EqualityOn s.heap (Grounded (seeLive s.heap))) :=
  ⟨fun _ r => r.legible.equality, fun r => r.legible.equality⟩

/-! ## Two equal integers -/

theorem leave_alloc {s : Space} (hr : s.heap.Roomy) (op : Operation) {o : Object}
    (hop : op.run = Operation.returned (Space.alloc o)) :
    ∃ v old, Arena.Placed s.heap o.sizeClass o v old ((Turn.operation op).leave s).heap := by
  obtain ⟨v, old, heap, p, heq⟩ := Trust.alloc_placed hr o
  refine ⟨v, old, ?_⟩
  rw [Turn.leave, Turn.run, hop, Space.leftBy_returned, heq]
  exact p

theorem leave_newInt {s : Space} (hr : s.heap.Roomy) (n : Int64) :
    ∃ v old, Arena.Placed s.heap (Object.int n).sizeClass (.int n) v old
      ((Turn.operation (.newInt n)).leave s).heap :=
  leave_alloc hr (.newInt n) rfl

/-- A turn does not lose a handle that named nothing before, nor one that can be read after it. -/
theorem not_lost (t : Turn) {s : Space} {lost : Set Handle} {v : Handle} (hl : v ∉ lost)
    (hv : s.heap.get? v = none ∨ (t.leave s).heap.isCurrent v = true) :
    v ∉ lost ∪ {v | s.heap.isCurrent v = true ∧ ¬ (t.leave s).heap.isCurrent v = true} := by
  rintro (h | ⟨hbefore, hafter⟩)
  · exact hl h
  · rcases hv with hv | hv
    · rw [Arena.isCurrent, hv] at hbefore
      cases hbefore
    · exact hafter hv

/-- Two integers of one value, made one after the other, are equal both ways and to themselves. -/
theorem equal_equivalence_ints :
    ∃ s lost a b, a ≠ b ∧ Ran {} {} s lost ∧ LiveRun {} {} s ∧
      (∀ v, v = a ∨ v = b → Grounded (seeKept lost s.heap) v ∧ Grounded (seeLive s.heap) v) ∧
      Heap.equal a b s.heap = .ok true ∧ Heap.equal b a s.heap = .ok true ∧
      Heap.equal a a s.heap = .ok true := by
  obtain ⟨s₀, h₀⟩ := Space.create_ok {} rfl {}
  have hr := (Space.create_sound h₀).roomy
  let t : Turn := .operation (.newInt 7)
  obtain ⟨a, x, pa⟩ := leave_newInt hr 7
  obtain ⟨b, y, pb⟩ := leave_newInt (pa.roomy hr) 7
  have r := Ran.turn t (.turn t (.start h₀) nofun) nofun
  have l := LiveRun.turn t (.turn t (.start h₀) nofun) nofun
  have hb := pb.get?_self
  have ha := pb.get?_of_live pa.isLive_self
  rw [pa.get?_self] at ha
  have hab : a ≠ b := by
    rintro rfl
    have hnew := pb.get?_new
    rw [pa.get?_self] at hnew
    cases hnew
  have hground : ∀ see : Handle → Option Object, see a = some (.int 7) → see b = some (.int 7) →
      ∀ v, v = a ∨ v = b → Grounded see v := by
    rintro see ha hb v (rfl | rfl)
    · exact .intro ha nofun
    · exact .intro hb nofun
  have hla := not_lost t (Set.notMem_empty a) (.inl pa.get?_new)
  have hlb := not_lost t (Set.notMem_empty b) (.inl (pa.get?_new_before pb))
  have hkept := hground (seeKept _ (t.leave (t.leave s₀)).heap)
    (seeKept_eq_some.2 ⟨not_lost t hla (.inr (Arena.isCurrent_iff.2 ⟨_, ha⟩)), ha⟩)
    (seeKept_eq_some.2 ⟨not_lost t hlb (.inr (Arena.isCurrent_iff.2 ⟨_, hb⟩)), hb⟩)
  have hlive := hground (seeLive (t.leave (t.leave s₀)).heap)
    (seeLive_eq_some.2 ⟨pb.isLive_iff.2 (.inr pa.isLive_self), ha⟩)
    (seeLive_eq_some.2 ⟨pb.isLive_self, hb⟩)
  have heq : Heap.equal a b (t.leave (t.leave s₀)).heap = .ok true := by
    refine Heap.bind_eq_ok.2 ⟨_, Heap.depth_eq_ok.2 rfl, ?_⟩
    rw [Heap.equalWithin_succ ha hb, if_neg hab]
    exact Heap.sameContent_eq_true.2 (.number rfl rfl)
  have hba := (equal_equivalence.1 _ r).symm a b (hkept a (.inl rfl)) (hkept b (.inr rfl)) heq
  have haa := (equal_equivalence.2 l).trans a b a (hlive a (.inl rfl)) (hlive b (.inr rfl))
    (hlive a (.inl rfl)) heq hba
  exact ⟨_, _, a, b, hab, r, l, fun v hv => ⟨hkept v hv, hlive v hv⟩, heq, hba, haa⟩

end ObjectSpace
