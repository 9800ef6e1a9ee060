import ObjectSpace.Proofs.Execution.Operations
import ObjectSpace.Proofs.Execution.Values
import ObjectSpace.Proofs.Iteration.Listing
import ObjectSpace.Proofs.Value.Stability

/-!
# Sorting in runs

**Theorem (`sort_stable`).** In runs, sorting puts values in their only stable order if they can be
compared with each other and ties are transitive. The values of a run on live handles may contain
themselves. Whatever the values are, sorting gives a permutation of them if it gives anything. And
the method `sort` changes its list only at the end: where it fails, all is as it was.
-/

namespace ObjectSpace

namespace Space

variable {s s' : Space} {l : Handle} {args : List Handle} {e : Halt}

theorem ask_eq_error {α : Type} {q : Query α} (h : (liftM q : Action α) s = .error e s') :
    q s.heap = .error e ∧ s' = s := by
  rw [Trust.ask_eq] at h
  cases hq : q s.heap with
  | ok a =>
    rw [hq] at h
    cases h
  | error e' =>
    rw [hq] at h
    cases h
    exact ⟨rfl, rfl⟩

theorem listSort_eq {items : Array Handle} (hl : s.heap.get? l = some (.list items)) :
    runMethod (.list .sort) l [] s =
      ((liftM (Heap.sort items.toList) : Action (List Handle)) >>= fun sorted =>
        updateList l (fun _ => sorted.toArray) >>= fun _ => nothing) s := by
  rw [runMethod]
  exact ask_bind_of_ok (Heap.get_eq_ok.2 hl)

theorem listSort_error (h : runMethod (.list .sort) l args s = .error e s') : s' = s := by
  rw [runMethod] at h
  change ((liftM (Heap.get l) : Action Object) >>= _) s = _ at h
  rcases bind_eq_error.1 h with h | ⟨o, s₁, hget, h⟩
  · exact (ask_eq_error h).2
  obtain ⟨ho, rfl⟩ := ask_eq_ok.1 hget
  cases o with
  | list items =>
    change ((liftM ((Method.list .sort).noArgument args) : Action Unit) >>= fun _ =>
      (liftM (Heap.sort items.toList) : Action (List Handle)) >>= fun sorted =>
        updateList l (fun _ => sorted.toArray) >>= fun _ => nothing) s = _ at h
    cases hcheck : (Method.list .sort).noArgument args with
    | error d =>
      rw [check_bind_of_error hcheck] at h
      cases h
      rfl
    | ok _ =>
      rw [check_bind_of_ok hcheck] at h
      rcases bind_eq_error.1 h with h | ⟨sorted, s₁, hs, h⟩
      · exact (ask_eq_error h).2
      obtain ⟨-, rfl⟩ := ask_eq_ok.1 hs
      -- the list is there, so the update does not fail
      have hl := Heap.get_eq_ok.1 ho
      rw [updateList, bind_assoc, ask_bind_of_ok (Heap.list_of_get? hl),
        bind_of_ok (Trust.update_eq hl _)] at h
      cases h
  | _ => exact (ask_eq_error h).2

variable {items : Array Handle} {code : Code} {ctx r : Handle}

theorem callMethod_sort_error (i : s.Steady) (hl : s.heap.Has l (.list items))
    (h : Program.callMethod code ctx l "sort" [] s = .error e s') :
    Frame [] s s' ∧ s'.heap.Has l (.list items) := by
  obtain ⟨s₁, f, h₁⟩ := callMethod_frame code ctx i hl (.list .sort) rfl (List.forall_mem_nil _)
  rw [show "sort" = (Method.list .sort).name from rfl, h₁] at h
  obtain rfl := listSort_error h
  exact ⟨f, f.keep hl⟩

theorem callMethod_sort_ok (i : s.Steady) (hl : s.heap.Has l (.list items))
    (h : Program.callMethod code ctx l "sort" [] s = .ok r s') :
    ∃ sorted : List Handle, sorted.Perm items.toList ∧ Frame [l] s s' ∧
      s'.heap.Has l (.list sorted.toArray) := by
  obtain ⟨s₁, f₁, h₁⟩ := callMethod_frame code ctx i hl (.list .sort) rfl (List.forall_mem_nil _)
  have hl₁ := f₁.keep hl
  rw [show "sort" = (Method.list .sort).name from rfl, h₁, listSort_eq hl₁.2] at h
  obtain ⟨sorted, s₂, hs, h⟩ := bind_eq_ok.1 h
  obtain ⟨hsort, rfl⟩ := ask_eq_ok.1 hs
  have hperm := Heap.sort_perm hsort
  obtain ⟨s₂, h₂, f₂, hl₂⟩ := updateList_frame f₁.steady hl₁ (fun _ => sorted.toArray)
    fun g hg => f₁.live (i.children hl g (hperm.subset hg))
  rw [bind_of_ok h₂] at h
  cases h
  exact ⟨sorted, hperm, (f₁.trans f₂).mono (by simp), hl₂⟩

end Space

open Space

variable {settings : Settings} {disk : Disk} {s : Space}

/-- **Sorting.** Values that can be compared with each other, ties among which are transitive, are
put in their only stable order; whatever is sorted, the result is a permutation of it; and where the
method `sort` fails, it has changed nothing. -/
theorem sort_stable :
    (∀ lost items, Ran settings disk s lost → (∀ x ∈ items, Grounded (seeKept lost s.heap) x) →
      s.heap.Sortable items → s.heap.SortsStably items) ∧
    (∀ items, LiveRun settings disk s → (∀ x ∈ items, s.heap.isLive x = true) →
      s.heap.Sortable items → s.heap.SortsStably items) ∧
    (∀ items sorted, Heap.sort items s.heap = .ok sorted → sorted.Perm items) ∧
    (∀ l args e s', runMethod (.list .sort) l args s = .error e s' → s' = s) ∧
    ∀ code ctx l items, LiveRun settings disk s → s.heap.Has l (.list items) →
      (∀ e s', Program.callMethod code ctx l "sort" [] s = .error e s' →
        Space.Frame [] s s' ∧ s'.heap.Has l (.list items)) ∧
      ∀ r s', Program.callMethod code ctx l "sort" [] s = .ok r s' →
        ∃ sorted : List Handle, sorted.Perm items.toList ∧ Space.Frame [l] s s' ∧
          s'.heap.Has l (.list sorted.toArray) := by
  refine ⟨fun lost items r => ?kept, fun items r => ?live, fun _ _ => Heap.sort_perm,
    fun _ _ _ _ => listSort_error, fun code ctx l items r hl => ?list⟩
  case kept => exact Legible.sortsStably r.legible (readable_grounded _)
  case live => exact Legible.sortsStably r.legible (ordered_of_liveRun r).readable
  case list =>
    have i := steady_of_liveRun r
    exact ⟨fun _ _ => callMethod_sort_error i hl, fun _ _ => callMethod_sort_ok i hl⟩

section Numbers

variable {heap : Heap} {a b : Handle} {x y : Object} {i j : Int64} {items : List Handle}

theorem lessThan_numbers (hx : heap.Has a x) (hy : heap.Has b y) (hi : x.asInt? = some i)
    (hj : y.asInt? = some j) : Heap.lessThan a b heap = .ok (decide (i < j)) := by
  have h : Heap.lessThan a b heap = .ok (Comparison.lt.holds (compare i j)) :=
    compares_numbers hx.2 hy.2 hi hj
  exact h.trans (congrArg Except.ok (Comparison.holds_lt i j))

theorem less_numbers (hx : heap.Has a x) (hy : heap.Has b y) (hi : x.asInt? = some i)
    (hj : y.asInt? = some j) : heap.Less a b ↔ i < j := by
  rw [Heap.Less, lessThan_numbers hx hy hi hj, Except.ok.injEq, decide_eq_true_iff]

theorem sortable_numbers (h : ∀ v ∈ items, ∃ o n, heap.Has v o ∧ o.asInt? = some n) :
    heap.Sortable items := by
  refine ⟨List.pairwise_of_forall_mem_list fun v hv w hw => ?_, fun u hu v hv w hw huv hvw => ?_⟩
  · obtain ⟨x, i, hx, hi⟩ := h v hv
    obtain ⟨y, j, hy, hj⟩ := h w hw
    exact ⟨⟨_, lessThan_numbers hx hy hi hj⟩, _, lessThan_numbers hy hx hj hi⟩
  · obtain ⟨x, i, hx, hi⟩ := h u hu
    obtain ⟨y, j, hy, hj⟩ := h v hv
    obtain ⟨z, k, hz, hk⟩ := h w hw
    rw [Heap.Ties, less_numbers hx hy hi hj, less_numbers hy hx hj hi] at huv
    rw [Heap.Ties, less_numbers hy hz hj hk, less_numbers hz hy hk hj] at hvw
    rw [Heap.Ties, less_numbers hx hz hi hk, less_numbers hz hx hk hi]
    clear h hu hv hw
    simp only [Int64.lt_iff_toInt_lt] at huv hvw ⊢
    omega

end Numbers

/-- A list of None and something else that is not None is not sorted. -/
theorem sort_nothing {heap : Heap} {a b : Handle} {x : Object} (ha : heap.Has a .nothing)
    (hb : heap.Has b x) : ∃ e, Heap.sort [a, b] heap = .error e := by
  obtain ⟨e, he⟩ : ∃ e, (Heap.unsupported Comparison.lt.name b a : Query Bool) heap = .error e :=
    Heap.unsupported_error _ b a
  have hless : Heap.lessThan b a heap = .error e := by
    refine (Heap.bind_of_ok (Heap.depth_eq_ok.2 rfl)).trans ?_
    rw [Heap.orderedWithin, Heap.bind_of_ok (Heap.get_eq_ok.2 hb.2),
      Heap.bind_of_ok (Heap.get_eq_ok.2 ha.2)]
    cases x <;> exact he
  refine ⟨e, ?_⟩
  simp [Heap.sort, Heap.merge, Heap.bind_of_error hless]

/-- The stable order of True, 1 and False: False comes first, and the other two, which tie, stay in
their order. -/
theorem stableOrder_truths {heap : Heap} {a b c : Handle} (ha : heap.Has a (.bool false))
    (hb : heap.Has b (.bool true)) (hc : heap.Has c (.int 1)) :
    heap.Sortable [b, c, a] ∧ heap.StableOrder [b, c, a] [2, 0, 1] := by
  have hperm : ([2, 0, 1] : List (Fin 3)).Perm (List.finRange 3) := by decide
  refine ⟨sortable_numbers ?_, hperm, ?_, ?_⟩
  · simp only [List.forall_mem_cons, List.not_mem_nil]
    exact ⟨⟨_, _, hb, rfl⟩, ⟨_, _, hc, rfl⟩, ⟨_, _, ha, rfl⟩, nofun⟩
  · simp [less_numbers hb ha rfl rfl, less_numbers hc ha rfl rfl, less_numbers hc hb rfl rfl]
  · simp [Heap.Ties, less_numbers ha hb rfl rfl, less_numbers hb ha rfl rfl,
      less_numbers ha hc rfl rfl, less_numbers hc ha rfl rfl]

/-- Of True, 1 and False, sorting brings False to the front and leaves the other two, which tie; a
list of None and True is not sorted and stays as it is. -/
theorem sort_stable_ties :
    ∃ s lost a b c, Ran {} {} s lost ∧ LiveRun {} {} s ∧ s.heap.Has a (.bool false) ∧
      s.heap.Has b (.bool true) ∧ s.heap.Has c (.int 1) ∧ s.heap.SortsStably [b, c, a] ∧
      Heap.sort [b, c, a] s.heap = .ok [a, b, c] ∧ [a, b, c].Perm [b, c, a] ∧
      ∃ s₁ l n e s₂, LiveRun {} {} s₁ ∧ s₁.heap.Has n .nothing ∧ s₁.heap.Has l (.list #[n, b]) ∧
        Program.callMethod noCode c l "sort" [] s₁ = .error e s₂ ∧
        s₂.heap.Has l (.list #[n, b]) := by
  obtain ⟨s₀, h₀⟩ := Space.create_ok {} rfl {}
  obtain ⟨n, -⟩ := Space.create_new h₀
  let t : Turn := .operation (.newInt 1)
  obtain ⟨c, x, p⟩ := leave_newInt (Space.create_sound h₀).roomy 1
  have r := Ran.turn t (.start h₀) nofun
  have l := LiveRun.turn t (.start h₀) nofun
  have ha : Arena.Has _ s₀.falseValue (Object.bool false) := p.has (n.boolean false)
  have hb : Arena.Has _ s₀.trueValue (Object.bool true) := p.has (n.boolean true)
  have hc := p.has_self
  have hitems : ∀ v ∈ [s₀.trueValue, c, s₀.falseValue],
      ∃ o, Arena.Has (t.leave s₀).heap v o ∧ o.parts = [] := by
    simp only [List.forall_mem_cons, List.not_mem_nil]
    exact ⟨⟨_, hb, rfl⟩, ⟨_, hc, rfl⟩, ⟨_, ha, rfl⟩, nofun⟩
  obtain ⟨hsortable, hstable⟩ := stableOrder_truths ha hb hc
  obtain ⟨hkept, hlive, hperm, -⟩ := @sort_stable {} {} (t.leave s₀)
  obtain ⟨order, -, hunique, hsort⟩ := hkept _ _ r (fun v hv => by
    obtain ⟨o, ho, hp⟩ := hitems v hv
    exact .intro (seeKept_eq_some.2
      ⟨not_lost t (Set.notMem_empty v) (.inr ho.current), ho.2⟩) (by simp [hp])) hsortable
  have hsorts := hlive _ l (fun v hv => by
    obtain ⟨o, ho, -⟩ := hitems v hv
    exact ho.1) hsortable
  obtain rfl := hunique _ hstable
  -- a list that cannot be sorted
  have hnone := (steady_of_liveRun l).nothing
  have hmembers : ∀ g ∈ #[(t.leave s₀).noneValue, s₀.trueValue].toList,
      (t.leave s₀).heap.isLive g = true :=
    List.forall_mem_cons.2 ⟨hnone.1, List.forall_mem_singleton.2 hb.1⟩
  obtain ⟨ls, s₁, r₁, f₁, hls⟩ := l.newList hmembers
  obtain ⟨s₂, f₂, h₂⟩ := callMethod_frame noCode c (steady_of_liveRun r₁) hls (.list .sort) rfl
    (List.forall_mem_nil _)
  obtain ⟨e, he⟩ := sort_nothing (f₂.keep (f₁.keep hnone)) (f₂.keep (f₁.keep hb))
  have hfails : Program.callMethod noCode c ls "sort" [] s₁ = .error e s₂ := by
    refine h₂.trans ?_
    rw [listSort_eq (f₂.keep hls).2]
    exact bind_of_error (ask_of_error he)
  have hstays := ((@sort_stable {} {} s₁).2.2.2.2 noCode c ls _ r₁ hls).1 e s₂ hfails
  exact ⟨_, _, s₀.falseValue, s₀.trueValue, c, r, l, ha, hb, hc, hsorts, hsort, hperm _ _ hsort,
    s₁, ls, _, e, s₂, r₁, f₁.keep hnone, hls, hfails, hstays.2⟩

end ObjectSpace
