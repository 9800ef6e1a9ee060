import ObjectSpace.Proofs.Value.Always
import ObjectSpace.Proofs.Value.Arrivals
import ObjectSpace.Proofs.Value.Keyed

/-!
# Histories of tables

A run comes to a state by primitive steps and collections. A history lists the states in between,
the latest first (`History`), and with them what a dict or a set had filed at each moment.

**Theorem (`History.filed_eq`).** What a dict or a set has filed is the stable sort by hash of what
came into it, in the order in which it came.

From one moment to the next nothing changes its order under a hash, and what comes in comes behind
all that is there (`Step.follows`).
-/

namespace ObjectSpace

variable {settings : Settings} {disk : Disk} {s s' : Space} {v : Handle} {o : Object}
  {past : List Space}

theorem Object.filings_sorted (o : Object) : o.filings.Pairwise fun a b => a.1 ≤ b.1 := by
  cases o with
  | dict t | set t => exact List.pairwise_map.2 t.sorted
  | _ => exact .nil

namespace Space

/-- The hashes and keys of a live dict or set. -/
def filed (s : Space) (v : Handle) : List (UInt64 × Handle) :=
  (seeLive s.heap v).elim [] Object.filings

theorem filed_of_has (hv : s.heap.Has v o) : s.filed v = o.filings := by
  rw [filed, seeLive_eq_some.2 hv, Option.elim_some]

theorem filed_cases (s : Space) (v : Handle) :
    s.filed v = [] ∨ ∃ o, s.heap.Has v o ∧ s.filed v = o.filings := by
  cases h : seeLive s.heap v with
  | none => exact .inl (by rw [filed, h, Option.elim_none])
  | some o => exact .inr ⟨o, seeLive_eq_some.1 h, by rw [filed, h, Option.elim_some]⟩

theorem filed_sorted (s : Space) (v : Handle) :
    (s.filed v).Pairwise fun a b => a.1 ≤ b.1 := by
  rcases s.filed_cases v with h | ⟨o, -, h⟩
  · exact h ▸ .nil
  · exact h ▸ o.filings_sorted

/-- Nothing is filed twice. -/
theorem Ordered.nodup_filed (i : s.Ordered) (v : Handle) : (s.filed v).Nodup := by
  rcases s.filed_cases v with h | ⟨o, hv, h⟩
  · exact h ▸ .nil
  · rw [h]
    refine (i.tidy.filed v o hv.1 hv.2).apart.imp_of_mem fun {e f} he _ hne hef => ?_
    obtain ⟨κ, k⟩ := i.stored v o hv e he
    obtain ⟨n, hn⟩ := k.reads
    exact hne n κ hn (hef ▸ hn)

end Space

/-! ## From one moment to the next -/

/-- A step leaves what stands under a hash in its order, with what comes behind it. -/
theorem Step.follows (st : Step (fun heap g => heap.isLive g = true) s s') (v : Handle)
    (hash : UInt64) : Follows (under (s.filed v) hash) (under (s'.filed v) hash) := by
  rcases s'.filed_cases v with h | ⟨o', hv', h⟩
  · rw [h]
    exact .of_sublist (List.nil_sublist _)
  rw [h]
  rcases st.object hv'.2 with ⟨o, ho, hch, -⟩ | ⟨hnone, -, -⟩
  · rw [Space.filed_of_has ⟨live_back st hv'.1 ho, ho⟩]
    exact hch.follows hash
  · rcases s.filed_cases v with h | ⟨o, hv, -⟩
    · rw [h]
      exact .of_nil _
    · have hget := hv.2
      rw [hnone] at hget
      cases hget

theorem Space.Sound.follows_collect {t : Turn} (i : s.Sound) (hc : t.Collects)
    (ht : ∀ h ∈ t.handles, s.heap.isLive h = true) (v : Handle) (hash : UInt64) :
    Follows (under (s.filed v) hash) (under ((t.leave s).filed v) hash) := by
  rcases (t.leave s).filed_cases v with h | ⟨o, hv, h⟩
  · rw [h]
    exact .of_sublist (List.nil_sublist _)
  · have hget := (Turn.leave_collect hc s).1.get?_eq v
    rw [h, filed_of_has ⟨i.live_of_collect hc ht v hv.1, hget.symm.trans hv.2⟩]
    exact .of_sublist (.refl _)

/-! ## Histories -/

/-- The spaces that a run on live handles comes through between its primitive steps and its
collections, the latest first. -/
inductive History (settings : Settings) (disk : Disk) : List Space → Prop
  | start {s : Space} : Space.create settings disk = .ok s → History settings disk [s]
  | step {s s' : Space} {past : List Space} : History settings disk (s :: past) →
      Step (fun heap g => heap.isLive g = true) s s' → History settings disk (s' :: s :: past)
  | collect {s : Space} {past : List Space} (t : Turn) : History settings disk (s :: past) →
      t.Collects → (∀ h ∈ t.handles, s.heap.isLive h = true) →
      History settings disk (t.leave s :: s :: past)

theorem Space.Ordered.leave_collect {t : Turn} (i : s.Ordered) (hc : t.Collects)
    (ht : ∀ h ∈ t.handles, s.heap.isLive h = true) : (t.leave s).Ordered :=
  i.cleared (i.sound.leave t ht) (Turn.leave_collect hc s).1 (i.sound.live_of_collect hc ht)

theorem History.ordered {l : List Space} (h : History settings disk l) : ∀ s ∈ l, s.Ordered := by
  induction h with
  | start h => exact List.forall_mem_singleton.2 (ordered_of_liveRun (.start h))
  | step _ st ih =>
    exact List.forall_mem_cons.2 ⟨orderedTrust.step (ih _ List.mem_cons_self) st, ih⟩
  | collect t _ hc ht ih =>
    exact List.forall_mem_cons.2 ⟨(ih _ List.mem_cons_self).leave_collect hc ht, ih⟩

theorem History.came {l : List Space} (h : History settings disk l) (v : Handle) :
    Came (l.map (·.filed v)) := by
  refine ⟨?_, List.forall_mem_map.2 fun s hs => (h.ordered s hs).nodup_filed v⟩
  induction h with
  | start => exact .singleton _
  | step _ st ih => exact .cons_cons (st.follows v) ih
  | collect t h hc ht ih =>
    exact .cons_cons ((h.ordered _ List.mem_cons_self).sound.follows_collect hc ht v) ih

/-- **The order of a table in runs.** It has what came into it, sorted by hash, in the order in
which it came. -/
theorem History.filed_eq (h : History settings disk (s :: past)) (v : Handle) :
    s.filed v =
      (arrivals ((s :: past).map (·.filed v))).mergeSort fun a b => a.1 ≤ b.1 :=
  (h.came v).eq_mergeSort (s.filed_sorted v)

theorem LiveRun.history (r : LiveRun settings disk s) :
    ∃ past, History settings disk (s :: past) := by
  induction r with
  | start h => exact ⟨[], .start h⟩
  | @turn s t r ht ih =>
    by_cases hc : t.Collects
    · obtain ⟨past, h⟩ := ih
      exact ⟨s :: past, .collect t h hc ht⟩
    · cases t with
      | operation op =>
        have l := Trust.later_leave (T := liveTrust) (Space.sound_of_liveRun r) op ht
        exact l.always (I := fun s => ∃ past, History settings disk (s :: past))
          (Space.sound_of_liveRun r) (fun _ _ _ st ⟨_, h⟩ => ⟨_, .step h st⟩) ih
      | collectNow | collectIfDue => exact absurd trivial hc

end ObjectSpace
