import ObjectSpace.Proofs.Execution.Calling
import ObjectSpace.Proofs.Execution.Iterating
import ObjectSpace.Proofs.Execution.Values
import ObjectSpace.Proofs.Iteration.Advancing
import ObjectSpace.Proofs.Number.Slices
import ObjectSpace.Proofs.Safety.Containers

/-!
# Numbering elements

**Theorem (`enumerate_numbers`).** An iterator that numbers the elements of an iterable from a start
on advances an iterator over that iterable, of any type and nested to any depth, and pairs what it
gives with a number. That is the start plus the number of pairs given before, exactly, as long as it
is a 64-bit integer, whatever turns are taken in between.

The number is kept in the cursor and counts one up for every pair (`Advanced.cursor`). At the
largest integer it stays, so the pairs behind it have that number too (`enumerate_numbers_repeats`).

One step is one step of the inner iterator (`next_numbers`). That is advanced to a smaller depth
than when it is advanced for itself, which makes no difference (`nextWithin_succ`).
-/

namespace ObjectSpace

open Integer (IsWord)

namespace Space

variable {s s' s₁ : Space} {e it v w : Handle} {n : Int64} {m : ℕ} {o : Object}
  {r q : Option Handle}

/-! ## The number -/

theorem toInt_successor (n : Int64) :
    (successor n).toInt = min (n.toInt + 1) Int64.maxValue.toInt := by
  have hmax : Int64.maxValue.toInt = 2 ^ 63 - 1 := Int64.toInt_maxValue
  obtain ⟨hle, hlt⟩ := Integer.isWord_toInt n
  by_cases h : IsWord (n.toInt + 1)
  · rw [successor, Integer.ofInt?_of_isWord h, Option.getD_some, Integer.toInt_ofInt h]
    have := h.2
    omega
  · rw [successor, Integer.ofInt?_of_not_isWord h, Option.getD_none]
    unfold IsWord at h
    omega

/-! ## One step -/

/-- What the next step of `e` does, which numbers what `it` gives: it is the next step of `it`, and
when that gives something, it makes a pair of the number and this. -/
inductive Numbering (s : Space) (e it : Handle) (n : Int64) : Prop
  | ended {s₁ s' : Space} : next it s = .ok none s₁ → next e s = .ok none s' → Frame [e] s₁ s' →
      s'.heap.Has e (.iter (.enumerate it n)) → Numbering s e it n
  | paired {s₁ s' : Space} {x p i : Handle} : next it s = .ok (some x) s₁ →
      next e s = .ok (some p) s' → Frame [e] s₁ s' → s'.heap.Has i (.int n) →
      s'.heap.Has p (.tuple #[i, x]) → s'.heap.Has e (.iter (.enumerate it (successor n))) →
      Numbering s e it n

theorem emit_numbered (i : s.Steady) (n : Int64) (hv : s.heap.isLive v = true) :
    ∃ p m s', emit (.numbered n v) s = .ok p s' ∧ Frame [] s s' ∧ s'.heap.Has m (.int n) ∧
      s'.heap.Has p (.tuple #[m, v]) := by
  obtain ⟨m, s₁, h₁, f₁, hm⟩ := newInt_frame i n
  have hlive : ∀ g ∈ #[m, v].toList, s₁.heap.isLive g = true :=
    List.forall_mem_cons.2 ⟨hm.1, List.forall_mem_singleton.2 (f₁.live hv)⟩
  obtain ⟨p, s₂, h₂, f₂, hp⟩ := newTuple_frame f₁.steady hlive
  exact ⟨p, m, s₂, (bind_of_ok h₁).trans h₂, f₁.again f₂, f₂.keep hm, hp⟩

end Space

open Space

variable {settings : Settings} {disk : Disk} {s s' s₁ : Space} {ctx callee e it v w : Handle}
  {n k : Int64} {x y : Object}

theorem next_numbers (r : LiveRun settings disk s)
    (he : s.heap.Has e (.iter (.enumerate it n))) : s.Numbering e it n := by
  have i := r.firm
  have hit : s.heap.isLive it = true := i.drawn he.1 he.2 (List.mem_singleton_self it)
  obtain ⟨c, hc⟩ := i.iter_of_drawn he.1 he.2 id (List.mem_singleton_self it)
  obtain ⟨q, s₁, hq⟩ := i.nextWithin_total hit hc (i.nested hit)
  have hnext : next it s = .ok q s₁ := by
    rw [next, ask_bind_of_ok (Heap.depth_eq_ok.2 rfl)]
    exact nextWithin_succ hq
  obtain ⟨l, hok, -⟩ := i.next_later hit hnext
  have i₁ := steady_of_liveRun (r.after (.next it) rfl (List.forall_mem_singleton.2 hit) hnext)
  -- `e` draws on the inner iterator still, and is counted on
  obtain ⟨d, hd, hon⟩ := l.kept.iter he
  have hmove : ∀ m, ∃ s', update e (Object.moveTo (.enumerate it m)) s₁ = .ok () s' ∧
      Space.Frame [e] s₁ s' ∧ s'.heap.Has e (.iter (.enumerate it m)) := by
    intro m
    cases hon.alike with
    | enumerate inner inner' count count' =>
      obtain rfl : inner' = it := hon
      exact update_frame i₁ hd (.advance (.count inner' count' m))
        (fun g hg => i₁.children hd g hg) (by simp [Object.Writes, Object.moveTo])
  have hstep : next e s = (nextWithin s.heap.capacity it >>= fun q => do
      update e (Object.moveTo (.enumerate it (if q.isSome then successor n else n)))
      (q.map (.numbered n)).mapM emit) s := by
    rw [next, ask_bind_of_ok (Heap.depth_eq_ok.2 rfl), nextWithin, ask_bind_of_ok (cursor_eq he)]
    dsimp only
    rw [bind_of_ok hq, bind_of_ok hq]
    cases q <;> rfl
  rw [bind_of_ok hq] at hstep
  cases q with
  | none =>
    obtain ⟨s', h', f, he'⟩ := hmove n
    exact .ended hnext (hstep.trans (bind_of_ok h')) f he'
  | some x =>
    obtain ⟨s₂, h₂, f₂, he₂⟩ := hmove (successor n)
    have hx : s₁.heap.isLive x = true := (Trust.ok_handle x).1 ((Trust.ok_some x).1 hok)
    obtain ⟨p, m, s₃, h₃, f₃, hm, hp⟩ := emit_numbered f₂.steady n (f₂.live hx)
    refine .paired hnext (hstep.trans ?_) ((f₂.trans f₃).mono (by simp)) hm hp (f₃.keep he₂)
    refine (bind_of_ok h₂).trans ?_
    show (emit (.numbered n x) >>= fun p => pure (some p)) s₂ = _
    rw [bind_of_ok h₃]
    rfl

theorem next_numbered_item {l : Handle} {kind : Kind} {j : ℕ} {items : Array Handle}
    (r : LiveRun settings disk s) (hl : s.heap.Has l y) (hitems : y.asSequence? = some items)
    (hit : s.heap.Has it (.iter (.forward l kind j)))
    (he : s.heap.Has e (.iter (.enumerate it n))) (hv : items[j]? = some v) :
    ∃ p i s', next e s = .ok (some p) s' ∧ s'.heap.Has i (.int n) ∧
      s'.heap.Has p (.tuple #[i, v]) ∧ s'.heap.Has e (.iter (.enumerate it (successor n))) ∧
      s'.heap.Has it (.iter (.forward l kind (j + 1))) ∧ s'.heap.Has l y := by
  have hfixed : ∀ c, y ≠ .iter c := by
    rintro c rfl
    cases hitems
  obtain ⟨s₁, hnext, f₁, hit₁⟩ := next_element (steady_of_liveRun r) hl hitems hit hv
  have hl₁ := f₁.other hit hl (hfixed _)
  have he₁ := f₁.other hit he nofun
  cases next_numbers r he with
  | ended h => cases (EStateM.Result.ok.inj (h.symm.trans hnext)).1
  | paired h hgives f hi hp he' =>
    obtain ⟨hx, rfl⟩ := EStateM.Result.ok.inj (h.symm.trans hnext)
    obtain rfl := Option.some.inj hx
    exact ⟨_, _, _, hgives, hi, hp, he', f.other he₁ hit₁ nofun, f.other he₁ hl₁ (hfixed _)⟩

/-! ## Runs -/

/-- The spaces in which an iterator has given a number of values, with turns on live handles in
between that leave it where it stands. -/
inductive Advanced (e : Handle) (s : Space) : ℕ → Space → Prop
  | start : Advanced e s 0 s
  | turn {j : ℕ} {s' : Space} (t : Turn) : Advanced e s j s' →
      (∀ h ∈ t.handles, s'.heap.isLive h = true) →
      (∀ o, s'.heap.Has e o → (t.leave s').heap.Has e o) → Advanced e s j (t.leave s')
  | next {j : ℕ} {s₁ s₂ : Space} {v : Handle} : Advanced e s j s₁ →
      next e s₁ = .ok (some v) s₂ → Advanced e s (j + 1) s₂

/-- The cursor has the start and the number of values given, up to the largest integer. -/
theorem Advanced.cursor {j : ℕ} (h : Advanced e s j s') (r : LiveRun settings disk s)
    (he : s.heap.Has e (.iter (.enumerate it k))) :
    LiveRun settings disk s' ∧ ∃ n : Int64, s'.heap.Has e (.iter (.enumerate it n)) ∧
      n.toInt = min (k.toInt + j) Int64.maxValue.toInt := by
  induction h with
  | start =>
    have := (Integer.isWord_toInt k).2
    have hmax : Int64.maxValue.toInt = 2 ^ 63 - 1 := Int64.toInt_maxValue
    exact ⟨r, k, he, by omega⟩
  | turn t _ ht hkeep ih =>
    obtain ⟨r', n, hn, hcount⟩ := ih
    exact ⟨r'.turn t ht, n, hkeep _ hn, hcount⟩
  | @next j s₁ s₂ v _ hnext ih =>
    obtain ⟨r', n, hn, hcount⟩ := ih
    refine ⟨r'.after (.next e) rfl (List.forall_mem_singleton.2 hn.1) hnext, successor n, ?_, ?_⟩
    · cases next_numbers r' hn with
      | ended _ h => cases (EStateM.Result.ok.inj (h.symm.trans hnext)).1
      | paired _ h _ _ _ he' =>
        obtain ⟨-, rfl⟩ := EStateM.Result.ok.inj (h.symm.trans hnext)
        exact he'
    · rw [toInt_successor, hcount]
      push_cast
      omega

/-! ## Making the iterator -/

theorem iter_iterable (i : s.Steady) (hv : s.heap.Has v y) (hy : y.Iterable) :
    ∃ it c s', iter v s = .ok it s' ∧ Space.Frame [] s s' ∧ s'.heap.Has it (.iter c) := by
  have hnew : ∀ {c}, Cursor.ofObject? v y = some c →
      ∃ it c s', iter v s = .ok it s' ∧ Space.Frame [] s s' ∧ s'.heap.Has it (.iter c) := by
    intro c hc
    obtain ⟨it, s', h, -, f, hit⟩ := iter_frame i hv hc
    exact ⟨it, c, s', h, f, hit⟩
  cases y with
  | iter c => exact ⟨v, c, s, iter_self hv.2, .refl i, hv⟩
  | list | tuple | str | bytes | range | dict | view | set => exact hnew rfl
  | _ => exact hy.elim

theorem construct_enumerate (i : s.Steady) (hv : s.heap.Has v y) (hy : y.Iterable)
    (hw : s.heap.Has w x) (hx : x.asInt? = some k) :
    ∃ it s₁ e s', iter v s = .ok it s₁ ∧ construct .enumerate [v, w] none s = .ok e s' ∧
      Space.Frame [] s s₁ ∧ Space.Frame [] s₁ s' ∧ s'.heap.Has e (.iter (.enumerate it k)) := by
  obtain ⟨it, c, s₁, h₁, f₁, hit⟩ := iter_iterable i hv hy
  have hstands : (Cursor.enumerate it k).Stands s₁.heap := by
    intro g hg o ho
    obtain rfl := List.mem_singleton.1 hg
    exact ⟨c, Option.some.inj (ho.symm.trans hit.2)⟩
  obtain ⟨e, s₂, h₂, f₂, he⟩ := alloc_frame f₁.steady (o := .iter (.enumerate it k))
    (.inl hstands) (List.forall_mem_singleton.2 hit.1) nofun
  refine ⟨it, s₁, e, s₂, h₁, ?_, f₁, f₂, he⟩
  have hcount : ([w].head?.mapM fun n => (liftM (Heap.expectInt n "enumerate") : Action Int64)) s =
      .ok (some k) s := by
    show ((liftM (Heap.expectInt w "enumerate") : Action Int64) >>= fun n => pure (some n)) s = _
    rw [ask_bind_of_ok (Heap.expectInt_eq hw hx _)]
    rfl
  show (([w].head?.mapM fun n => (liftM (Heap.expectInt n "enumerate") : Action Int64)) >>= _) s = _
  rw [bind_of_ok hcount, bind_of_ok h₁]
  exact h₂

/-- **Numbering.** The number in the pair that `enumerate` gives is the start plus the number of
pairs given before, exactly, if that is a 64-bit integer. -/
theorem enumerate_numbers (r : LiveRun settings disk s) (hctx : s.heap.isLive ctx = true)
    (hcallee : s.heap.Has callee (.type .enumerate)) (hv : s.heap.Has v y) (hy : y.Iterable)
    (hw : s.heap.Has w x) (hx : x.asInt? = some k) :
    ∃ s₁ it s₂ e s₃, Space.Frame [] s s₁ ∧ iter v s₁ = .ok it s₂ ∧ Space.Frame [] s₂ s₃ ∧
      callWith noCode ctx callee [v, w] s = .ok e s₃ ∧
      ∀ j s', Advanced e s₃ j s' → ∃ n : Int64, s'.Numbering e it n ∧
        (k.toInt + j ≤ Int64.maxValue.toInt → n.toInt = k.toInt + j) ∧
        (Int64.maxValue.toInt < k.toInt + j → n = Int64.maxValue) := by
  have i := steady_of_liveRun r
  have hargs : ∀ a ∈ [v, w], s.heap.isLive a = true :=
    List.forall_mem_cons.2 ⟨hv.1, List.forall_mem_singleton.2 hw.1⟩
  obtain ⟨s₁, f₁, hcall⟩ := callWith_type noCode ctx i hcallee hargs
  obtain ⟨it, s₂, e, s₃, hiter, hmake, -, f₃, he⟩ :=
    construct_enumerate f₁.steady (f₁.keep hv) hy (f₁.keep hw) hx
  have r₃ := r.after (.callWith ctx callee [v, w]) rfl
    (by simp [Operation.handles, hctx, hcallee.1, hv.1, hw.1]) (hcall.trans hmake)
  refine ⟨s₁, it, s₂, e, s₃, f₁, hiter, f₃, hcall.trans hmake, fun j s' h => ?_⟩
  obtain ⟨r', n, hn, hcount⟩ := h.cursor r₃ he
  refine ⟨n, next_numbers r' hn, fun hle => ?_, fun hlt => ?_⟩
  · rw [hcount, min_eq_left hle]
  · rw [min_eq_right (Int.le_of_lt hlt)] at hcount
    exact Int64.toInt_inj.1 hcount

theorem pair_to_number (k : Int64) :
    ∃ s callee l w, LiveRun {} {} s ∧ s.heap.isLive s.noneValue = true ∧
      s.heap.Has callee (.type .enumerate) ∧
      s.heap.Has l (.list #[s.noneValue, s.noneValue]) ∧ s.heap.Has w (.int k) := by
  obtain ⟨s₀, h₀⟩ := create_ok {} rfl {}
  have hnone := (create_steady h₀).nothing.1
  have hitems : ∀ g ∈ #[s₀.noneValue, s₀.noneValue].toList, s₀.heap.isLive g = true :=
    List.forall_mem_cons.2 ⟨hnone, List.forall_mem_singleton.2 hnone⟩
  obtain ⟨l, s₁, r₁, f₁, hl⟩ := (LiveRun.start h₀).newList hitems
  obtain ⟨w, s, r, f, hw⟩ := r₁.newInt k
  have i := steady_of_liveRun r
  refine ⟨s, _, l, w, r, i.nothing.1, i.types Kind.enumerate.index, ?_, hw⟩
  rw [f.noneValue, f₁.noneValue]
  exact f.keep hl

theorem enumerate_numbers_second :
    ∃ s callee l w e s₁ p s₂ it, LiveRun {} {} s ∧ s.heap.Has callee (.type .enumerate) ∧
      s.heap.Has l (.list #[s.noneValue, s.noneValue]) ∧ s.heap.Has w (.int 5) ∧
      callWith noCode s.noneValue callee [l, w] s = .ok e s₁ ∧ next e s₁ = .ok (some p) s₂ ∧
      s₂.Numbering e it 6 := by
  obtain ⟨s, callee, l, w, r, hctx, hcallee, hl, hw⟩ := pair_to_number 5
  obtain ⟨s₁, it, s₂, e, s₃, f, hiter, f', hcall, hnumbers⟩ :=
    enumerate_numbers r hctx hcallee hl trivial hw rfl
  obtain ⟨it', s₂', hiter', f₂, hit⟩ := iter_list f.steady (f.keep hl)
  obtain ⟨rfl, rfl⟩ := EStateM.Result.ok.inj (hiter'.symm.trans hiter)
  obtain ⟨s₄, hnext, -⟩ := next_item f'.steady (f'.keep (f₂.keep (f.keep hl))) (f'.keep hit)
    (v := s.noneValue) rfl
  obtain ⟨n, hfirst, -⟩ := hnumbers 0 s₃ .start
  cases hfirst with
  | ended h => cases (EStateM.Result.ok.inj (h.symm.trans hnext)).1
  | paired _ hgives =>
    obtain ⟨m, hsecond, hexact, -⟩ := hnumbers 1 _ (.next .start hgives)
    obtain rfl : m = 6 := Int64.toInt_inj.1 (hexact (by decide))
    exact ⟨s, callee, l, w, e, s₃, _, _, _, r, hcallee, hl, hw, hcall, hgives, hsecond⟩

/-- From the largest integer on, the second pair has the number of the first. -/
theorem enumerate_numbers_repeats :
    ∃ s callee l w e s₁ p s₂ q s₃ i, LiveRun {} {} s ∧ s.heap.Has callee (.type .enumerate) ∧
      s.heap.Has l (.list #[s.noneValue, s.noneValue]) ∧ s.heap.Has w (.int Int64.maxValue) ∧
      callWith noCode s.noneValue callee [l, w] s = .ok e s₁ ∧ next e s₁ = .ok (some p) s₂ ∧
      next e s₂ = .ok (some q) s₃ ∧ s₃.heap.Has q (.tuple #[i, s.noneValue]) ∧
      s₃.heap.Has i (.int Int64.maxValue) := by
  obtain ⟨s, callee, l, w, r, hctx, hcallee, hl, hw⟩ := pair_to_number Int64.maxValue
  have hargs : ∀ a ∈ [l, w], s.heap.isLive a = true :=
    List.forall_mem_cons.2 ⟨hl.1, List.forall_mem_singleton.2 hw.1⟩
  obtain ⟨s₁, f, hcall⟩ := callWith_type noCode s.noneValue (steady_of_liveRun r) hcallee hargs
  obtain ⟨it, s₂, e, s₃, hiter, hmake, -, f', he₃⟩ :=
    construct_enumerate f.steady (f.keep hl) trivial (f.keep hw) rfl
  obtain ⟨it', s₂', hiter', f₂, hit⟩ := iter_list f.steady (f.keep hl)
  obtain ⟨rfl, rfl⟩ := EStateM.Result.ok.inj (hiter'.symm.trans hiter)
  have r₃ := r.after (.callWith s.noneValue callee [l, w]) rfl
    (by simp [Operation.handles, hctx, hcallee.1, hl.1, hw.1]) (hcall.trans hmake)
  obtain ⟨p, i, s₄, hp, -, -, he, hit, hl'⟩ := next_numbered_item r₃
    (f'.keep (f₂.keep (f.keep hl))) rfl (f'.keep hit) he₃ (v := s.noneValue) rfl
  have r₄ := r₃.after (.next e) rfl (List.forall_mem_singleton.2 he₃.1) hp
  obtain ⟨q, j, s₅, hq, hj, hq', -⟩ := next_numbered_item r₄ hl' rfl hit he (v := s.noneValue) rfl
  exact ⟨s, callee, l, w, e, s₃, p, s₄, q, s₅, j, r, hcallee, hl, hw, hcall.trans hmake, hp, hq,
    hq', hj⟩

end ObjectSpace
