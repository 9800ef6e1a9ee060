import ObjectSpace.Proofs.Execution.Operations

/-!
# Loops of a program

Advancing an iterator touches the iterator alone (`next_frame`). A loop that does something with
every element keeps what each round keeps, and it ends because its rounds are as many as the
elements (`eachRound_rule`).
-/

namespace ObjectSpace

namespace Space

variable {s s' : Space} {ctx it l v : Handle} {o : Object} {c c' : Cursor} {y : Option Yield}
  {items : Array Handle} {j n : Nat} {kind : Kind}

/-! ## Advancing an iterator -/

theorem cursor_eq (hit : s.heap.Has it (.iter c)) : Heap.cursor it s.heap = .ok c :=
  Heap.bind_of_ok (Heap.get_eq_ok.2 hit.2)

theorem next_eq (hit : s.heap.Has it (.iter c)) (hc : c.Plain)
    (h : c.step s.heap = .ok (y, c')) :
    next it s = (update it (Object.moveTo c') >>= fun _ => y.mapM emit) s := by
  rw [next, ask_bind_of_ok (Heap.depth_eq_ok.2 rfl), nextWithin, ask_bind_of_ok (cursor_eq hit)]
  dsimp only
  split
  · exact hc.elim
  · exact hc.elim
  · rw [ask_bind_of_ok h]

/-- Advancing an iterator moves its cursor and makes what the step yields. -/
theorem next_frame (i : s.Steady) (hit : s.heap.Has it (.iter c)) (hc : c.Plain)
    (h : c.step s.heap = .ok (y, c')) :
    ∃ s', next it s = (y.mapM emit) s' ∧ Frame [it] s s' ∧ s'.heap.Has it (.iter c') := by
  have hchildren := (Cursor.onward_step h).children_eq
  have hlive : ∀ g ∈ (Object.iter c').children, s.heap.isLive g = true := by
    intro g hg
    refine i.children hit g ?_
    rwa [Object.children, hchildren] at hg
  obtain ⟨s', hs', f, hit'⟩ := update_frame i hit (f := Object.moveTo c')
    (.advance (.step h)) hlive (by simp [Object.Writes, Object.moveTo])
  exact ⟨s', (next_eq hit hc h).trans (bind_of_ok hs'), f, hit'⟩

/-- Advancing an iterator gives the value that is made of what the step yields. -/
theorem next_emit {R : Heap → Handle → Prop} {y : Yield} (i : s.Steady)
    (hit : s.heap.Has it (.iter c)) (hc : c.Plain) (h : c.step s.heap = .ok (some y, c'))
    (hemit : ∀ s', Frame [it] s s' →
      ∃ v s'', emit y s' = .ok v s'' ∧ Frame [] s' s'' ∧ R s''.heap v) :
    ∃ v s', next it s = .ok (some v) s' ∧ Frame [it] s s' ∧ R s'.heap v ∧
      s'.heap.Has it (.iter c') := by
  obtain ⟨s₁, h₁, f₁, hit₁⟩ := next_frame i hit hc h
  obtain ⟨v, s₂, h₂, f₂, hv⟩ := hemit s₁ f₁
  refine ⟨v, s₂, h₁.trans ?_, (f₁.trans f₂).mono (by simp), hv, f₂.keep hit₁⟩
  show (emit y >>= fun v => pure (some v)) s₁ = _
  rw [bind_of_ok h₂]
  rfl

/-- A new iterator has a cursor at the start. -/
theorem iter_frame (i : s.Steady) (hv : s.heap.Has v o) (hc : Cursor.ofObject? v o = some c) :
    ∃ it s', iter v s = .ok it s' ∧ s.heap.get? it = none ∧ Frame [] s s' ∧
      s'.heap.Has it (.iter c) := by
  have ho : steadyTrust.Ok s o := i.children hv
  obtain ⟨it, s', hs', f, hit⟩ := alloc_frame i (o := .iter c)
    (Trust.placeable_ofObject? (T := steadyTrust) hv.1 hv.2 hc)
    (Trust.ok_ofObject? (T := steadyTrust) hv.1 ho hc) nofun
  refine ⟨it, s', ?_, alloc_new i hs', f, hit⟩
  rw [iter, get_bind_of_has hv]
  cases o with
  | iter => cases hc
  | _ =>
    dsimp only
    rw [hc]
    exact hs'

/-- The iterator over an iterator is that iterator. -/
theorem iter_self (hit : s.heap.get? it = some (.iter c)) : iter it s = .ok it s := by
  rw [iter, ask_bind_of_ok (Heap.get_eq_ok.2 hit)]
  rfl

/-- An iterator is collected by draining it, for as many steps as it has left at most. -/
theorem collect_iterator (hit : s.heap.get? it = some (.iter c)) :
    collect it s = ((liftM Heap.depth : Action Nat) >>= fun n => do
      let steps ← Heap.stepsWithin n it
      drain it #[] (steps + 1)) s := by
  rw [collect, ask_bind_of_ok (Heap.get_eq_ok.2 hit)]
  dsimp only
  rw [bind_of_ok (iter_self hit)]

/-- Draining an iterator, given what advancing it gives as long as something is left. -/
theorem drain_of_left {α : Type} {R : Heap → Handle → α → Prop} {L : List α → Space → Prop}
    (hkeep : ∀ {s s' v a}, Frame [it] s s' → R s.heap v a → R s'.heap v a)
    (hend : ∀ s, L [] s → ∃ s', next it s = .ok none s' ∧ Frame [it] s s')
    (hnext : ∀ a as s, L (a :: as) s → ∃ v s', next it s = .ok (some v) s' ∧ Frame [it] s s' ∧
      R s'.heap v a ∧ L as s') {as : List α} (h : L as s) (done : Array Handle) :
    ∃ items s', (∀ n, as.length < n → drain it done n s = .ok (done ++ items) s') ∧
      Frame [it] s s' ∧ List.Forall₂ (R s'.heap) items.toList as := by
  induction as generalizing s done with
  | nil =>
    obtain ⟨s', hs', f⟩ := hend s h
    refine ⟨#[], s', fun n hn => ?_, f, .nil⟩
    obtain ⟨n, rfl⟩ := Nat.exists_eq_succ_of_ne_zero (Nat.ne_of_gt hn)
    rw [drain, bind_of_ok hs', Array.append_empty]
    rfl
  | cons a as ih =>
    obtain ⟨v, s₁, hs₁, f₁, hv, hleft⟩ := hnext a as s h
    obtain ⟨items, s₂, hs₂, f₂, hitems⟩ := ih hleft (done.push v)
    refine ⟨#[v] ++ items, s₂, fun n hn => ?_, f₁.again f₂, ?_⟩
    · obtain ⟨n, rfl⟩ := Nat.exists_eq_succ_of_ne_zero (Nat.ne_of_gt (Nat.zero_lt_of_lt hn))
      rw [drain, bind_of_ok hs₁]
      simpa [← Array.append_assoc] using hs₂ n (Nat.lt_of_succ_lt_succ hn)
    · rw [Array.toList_append]
      exact .cons (hkeep f₂ hv) hitems

/-! ## Lists and tuples -/

theorem iter_list (i : s.Steady) (hl : s.heap.Has l (.list items)) :
    ∃ it s', iter l s = .ok it s' ∧ Frame [] s s' ∧
      s'.heap.Has it (.iter (.forward l .listIterator 0)) := by
  obtain ⟨it, s', hs', -, f, hit⟩ := iter_frame i hl rfl
  exact ⟨it, s', hs', f, hit⟩

theorem stepsWithin_list (hl : s.heap.Has l (.list items))
    (hit : s.heap.Has it (.iter (.forward l kind j))) :
    Heap.stepsWithin (n + 1) it s.heap = .ok items.size := by
  rw [Heap.stepsWithin, Heap.bind_of_ok (cursor_eq hit)]
  exact Heap.bind_of_ok (Heap.get_eq_ok.2 hl.2)

theorem next_element (i : s.Steady) (hl : s.heap.Has l o) (ho : o.asSequence? = some items)
    (hit : s.heap.Has it (.iter (.forward l kind j))) (hv : items[j]? = some v) :
    ∃ s', next it s = .ok (some v) s' ∧ Frame [it] s s' ∧
      s'.heap.Has it (.iter (.forward l kind (j + 1))) := by
  have hstep : (Cursor.forward l kind j).step s.heap =
      .ok (some (.handle v), .forward l kind (j + 1)) := by
    cases o with
    | list | tuple =>
      obtain rfl := Option.some.inj ho
      rw [Cursor.step, Heap.bind_of_ok (Heap.get_eq_ok.2 hl.2), Cursor.elementAt?, hv]
      rfl
    | _ => cases ho
  exact next_frame i hit trivial hstep

/-- An iterator at the end of a sequence or behind it. -/
theorem next_beyond (i : s.Steady) (hl : s.heap.Has l o) (ho : o.asSequence? = some items)
    (hit : s.heap.Has it (.iter (.forward l kind j))) (hj : items.size ≤ j) :
    ∃ s', next it s = .ok none s' ∧ Frame [it] s s' := by
  have hstep : (Cursor.forward l kind j).step s.heap = .ok (none, .forward l kind j) := by
    cases o with
    | list | tuple =>
      obtain rfl := Option.some.inj ho
      rw [Cursor.step, Heap.bind_of_ok (Heap.get_eq_ok.2 hl.2), Cursor.elementAt?,
        Array.getElem?_eq_none hj]
      rfl
    | _ => cases ho
  obtain ⟨s', hs', f, -⟩ := next_frame i hit trivial hstep
  exact ⟨s', hs', f⟩

theorem next_no_element (i : s.Steady) (hl : s.heap.Has l o) (ho : o.asSequence? = some items)
    (hit : s.heap.Has it (.iter (.forward l kind items.size))) :
    ∃ s', next it s = .ok none s' ∧ Frame [it] s s' :=
  next_beyond i hl ho hit (Nat.le_refl _)

theorem next_item (i : s.Steady) (hl : s.heap.Has l (.list items))
    (hit : s.heap.Has it (.iter (.forward l kind j))) (hv : items[j]? = some v) :
    ∃ s', next it s = .ok (some v) s' ∧ Frame [it] s s' ∧
      s'.heap.Has it (.iter (.forward l kind (j + 1))) :=
  next_element i hl rfl hit hv

theorem next_none (i : s.Steady) (hl : s.heap.Has l (.list items))
    (hit : s.heap.Has it (.iter (.forward l kind items.size))) :
    ∃ s', next it s = .ok none s' ∧ Frame [it] s s' :=
  next_no_element i hl rfl hit

/-! ## Ranges -/

/-- The range of the integers from zero to a bound. -/
theorem Module.range {ctx : Handle} {c : Context} (m : Module s ctx c) (i : s.Steady) {k : Int64}
    (hv : s.heap.Has v (.int k)) :
    ∃ r s', Program.callName ctx "range" [v] s = .ok r s' ∧ Frame [] s s' ∧
      s'.heap.Has r (.range ⟨0, k, 1, by decide⟩) := by
  obtain ⟨s₁, f₁, h₁⟩ := m.callType (k := .range) i (by decide) (List.forall_mem_singleton.2 hv.1)
  obtain ⟨r, s₂, h₂, f₂, hr⟩ := alloc_frame f₁.steady (o := .range ⟨0, k, 1, by decide⟩) trivial
    nofun nofun
  refine ⟨r, s₂, h₁.trans ?_, f₁.again f₂, hr⟩
  show ([v].mapM (fun v => (liftM (Heap.expectInt v "range") : Action Int64)) >>= _) s₁ = _
  rw [List.mapM_cons, List.mapM_nil]
  simp only [bind_assoc, pure_bind]
  rw [ask_bind_of_ok (Heap.expectInt_int (f₁.keep hv) "range")]
  show newRange 0 k 1 s₁ = _
  rw [newRange, dif_neg (by decide), h₂]

theorem iter_range (i : s.Steady) {p : Progression} (hv : s.heap.Has v (.range p)) :
    ∃ it s', iter v s = .ok it s' ∧ Frame [] s s' ∧
      s'.heap.Has it (.iter (.range p.start p.step p.length)) := by
  obtain ⟨it, s', hs', -, f, hit⟩ := iter_frame i hv rfl
  exact ⟨it, s', hs', f, hit⟩

theorem stepsWithin_range {m k : Int64} {rest : Nat}
    (hit : s.heap.Has it (.iter (.range m k rest))) :
    Heap.stepsWithin (n + 1) it s.heap = .ok rest := by
  rw [Heap.stepsWithin, Heap.bind_of_ok (cursor_eq hit)]
  rfl

theorem next_term (i : s.Steady) {m k : Int64} {rest : Nat}
    (hit : s.heap.Has it (.iter (.range m k (rest + 1)))) :
    ∃ v s', next it s = .ok (some v) s' ∧ Frame [it] s s' ∧ s'.heap.Has v (.int m) ∧
      s'.heap.Has it (.iter (.range (m + k) k rest)) := by
  refine next_emit (R := fun heap v => heap.Has v (.int m)) (y := .int m) i hit trivial rfl ?_
  intro s' f
  exact newInt_frame f.steady m

theorem next_no_term (i : s.Steady) {m k : Int64} (hit : s.heap.Has it (.iter (.range m k 0))) :
    ∃ s', next it s = .ok none s' ∧ Frame [it] s s' := by
  obtain ⟨s', hs', f, -⟩ := next_frame (y := none) i hit trivial rfl
  exact ⟨s', hs', f⟩

/-! ## Loops -/

/-- What holds before the first round and is kept by every round holds at the end. -/
theorem eachRound_rule {body : Handle → Action Unit} (inv : Nat → Space → Prop)
    {post : Space → Prop} {rounds : Nat}
    (hround : ∀ j s, j < rounds → inv j s → ∃ it v s₁ s₂, Heap.load ctx 0 s.heap = .ok it ∧
      next it s = .ok (some v) s₁ ∧ body v s₁ = .ok () s₂ ∧ inv (j + 1) s₂)
    (hend : ∀ s, inv rounds s → ∃ it s₁, Heap.load ctx 0 s.heap = .ok it ∧
      next it s = .ok none s₁ ∧ post s₁)
    (h : inv 0 s) :
    ∃ s', Program.eachRound ctx body (rounds + 1) s = .ok () s' ∧ post s' := by
  -- after `j` rounds there are `n` to come
  have key : ∀ n j s, j + n = rounds → inv j s →
      ∃ s', Program.eachRound ctx body (n + 1) s = .ok () s' ∧ post s' := by
    intro n
    induction n with
    | zero =>
      intro j s hj hs
      obtain rfl : j = rounds := hj
      obtain ⟨it, s₁, hload, hnext, hpost⟩ := hend s hs
      refine ⟨s₁, ?_, hpost⟩
      rw [Program.eachRound, ask_bind_of_ok hload, bind_of_ok hnext]
      rfl
    | succ n ih =>
      intro j s hj hs
      obtain ⟨it, v, s₁, s₂, hload, hnext, hbody, hinv⟩ := hround j s (by omega) hs
      obtain ⟨s', hs', hpost⟩ := ih (j + 1) s₂ (by omega) hinv
      refine ⟨s', ?_, hpost⟩
      rw [Program.eachRound, ask_bind_of_ok hload, bind_of_ok hnext]
      exact (bind_of_ok hbody).trans hs'
  exact key rounds 0 s (Nat.zero_add _) h

end Space

end ObjectSpace
