import ObjectSpace.Proofs.Effects.Values
import ObjectSpace.Proofs.Execution.Enumerating
import ObjectSpace.Proofs.Safety.Containers

/-!
# The elements of a value

Advancing an iterator until it gives none makes a list (`RunsOut`). The elements of a value are the
items or members that it has, or what an iterator for it gives until its end (`Elements`). Both are
determined by the space they start in.

**Theorem (`collect_eq_ok`).** Listing a live value gives its elements and nothing else. So the
elements of a list and of an iterator over it are known before the list is changed by them
(`elements_forward`,
`elements_backward`).
-/

namespace ObjectSpace

/-- The values that are listed without an iterator. -/
def Object.items? : Object → Option (List Handle)
  | list items | tuple items => some items.toList
  | set members => some members.toList
  | _ => none

namespace Space

variable {s s₁ s' s'' : Space} {it l v : Handle} {vs ws : List Handle} {items done : Array Handle}
  {o : Object} {n j : Nat} {kind : Kind}

/-- Advancing an iterator to its end gives values, one after the other. -/
inductive RunsOut (it : Handle) : Space → List Handle → Space → Prop
  | done {s s' : Space} : next it s = .ok none s' → RunsOut it s [] s'
  | more {s s₁ s' : Space} {v : Handle} {vs : List Handle} : next it s = .ok (some v) s₁ →
      RunsOut it s₁ vs s' → RunsOut it s (v :: vs) s'

/-- The elements of a value, and the space once they are listed. -/
inductive Elements (v : Handle) (s : Space) : List Handle → Space → Prop
  | items {o : Object} {vs : List Handle} : s.heap.Has v o → o.items? = some vs → Elements v s vs s
  | iterated {o : Object} {it : Handle} {vs : List Handle} {s₁ s' : Space} : s.heap.Has v o →
      o.items? = none → iter v s = .ok it s₁ → RunsOut it s₁ vs s' → Elements v s vs s'

/-! ## They are determined -/

theorem RunsOut.unique (h : RunsOut it s vs s') (h' : RunsOut it s ws s'') :
    vs = ws ∧ s' = s'' := by
  induction h generalizing ws with
  | done hnone =>
    cases h' with
    | done hnone' =>
      obtain ⟨-, rfl⟩ := EStateM.Result.ok.inj (hnone.symm.trans hnone')
      exact ⟨rfl, rfl⟩
    | more hsome _ =>
      cases (EStateM.Result.ok.inj (hnone.symm.trans hsome)).1
  | more hsome _ ih =>
    cases h' with
    | done hnone =>
      cases (EStateM.Result.ok.inj (hsome.symm.trans hnone)).1
    | more hsome' hrest =>
      obtain ⟨hv, rfl⟩ := EStateM.Result.ok.inj (hsome.symm.trans hsome')
      obtain rfl := Option.some.inj hv
      obtain ⟨rfl, rfl⟩ := ih hrest
      exact ⟨rfl, rfl⟩

theorem Elements.unique (h : Elements v s vs s') (h' : Elements v s ws s'') :
    vs = ws ∧ s' = s'' := by
  cases h with
  | items ho hvs =>
    cases h' with
    | items ho' hws =>
      obtain rfl := ho.unique ho'
      exact ⟨Option.some.inj (hvs.symm.trans hws), rfl⟩
    | iterated ho' hnone =>
      obtain rfl := ho.unique ho'
      rw [hvs] at hnone
      cases hnone
  | iterated ho hnone hit hout =>
    cases h' with
    | items ho' hws =>
      obtain rfl := ho.unique ho'
      rw [hws] at hnone
      cases hnone
    | iterated _ _ hit' hout' =>
      obtain ⟨rfl, rfl⟩ := EStateM.Result.ok.inj (hit.symm.trans hit')
      exact hout.unique hout'

/-! ## Listing -/

/-- Draining adds what the iterator gives to what there was. -/
theorem runsOut_of_drain (h : drain it done n s = .ok items s') :
    ∃ vs, items.toList = done.toList ++ vs ∧ RunsOut it s vs s' := by
  induction n generalizing done s with
  | zero => cases h
  | succ n ih =>
    obtain ⟨r, s₁, hr, h⟩ := bind_eq_ok.1 h
    cases r with
    | none =>
      obtain ⟨rfl, rfl⟩ := EStateM.Result.ok.inj h
      exact ⟨[], (List.append_nil _).symm, .done hr⟩
    | some v =>
      obtain ⟨vs, hvs, hout⟩ := ih h
      refine ⟨v :: vs, ?_, .more hr hout⟩
      rw [hvs, Array.toList_push, List.append_assoc, List.singleton_append]

theorem elements_of_collect (hv : s.heap.Has v o) (h : collect v s = .ok items s') :
    Elements v s items.toList s' := by
  have hcollect := (get_bind_of_has hv).symm.trans h
  have hiterated : (do
      let it ← iter v
      let steps ← Heap.stepsWithin (← Heap.depth) it
      drain it #[] (steps + 1) : Action (Array Handle)) s = .ok items s' → o.items? = none →
      Elements v s items.toList s' := fun h hnone => by
    obtain ⟨it, s₁, hit, h⟩ := bind_eq_ok.1 h
    obtain ⟨_, s₂, hd, h⟩ := bind_eq_ok.1 h
    obtain ⟨-, rfl⟩ := ask_eq_ok.1 hd
    obtain ⟨_, s₂, hm, h⟩ := bind_eq_ok.1 h
    obtain ⟨-, rfl⟩ := ask_eq_ok.1 hm
    obtain ⟨vs, hvs, hout⟩ := runsOut_of_drain h
    rw [List.nil_append] at hvs
    exact hvs ▸ .iterated hv hnone hit hout
  cases o with
  | list xs | tuple xs | set xs =>
    obtain ⟨rfl, rfl⟩ := EStateM.Result.ok.inj hcollect
    exact .items hv rfl
  | _ => exact hiterated hcollect rfl

/-- What has elements is iterable. -/
theorem Elements.iterable (i : s.Firm) (h : Elements v s vs s') (hv : s.heap.Has v o) :
    o.Iterable := by
  cases h with
  | items ho hvs =>
    obtain rfl := hv.unique ho
    cases o with
    | list | tuple | set => trivial
    | _ => cases hvs
  | iterated _ _ hit =>
    rcases i.iter_ends hv with ⟨ho, -⟩ | ⟨-, name, herror⟩
    · exact ho
    · rw [hit] at herror
      cases herror

/-- **Listing.** Listing a live value gives its elements. -/
theorem collect_eq_ok (i : s.Firm) (hv : s.heap.isLive v = true) :
    collect v s = .ok items s' ↔ Elements v s items.toList s' := by
  obtain ⟨o, ho, -⟩ := i.sound.get? hv
  have hhas : s.heap.Has v o := ⟨hv, ho⟩
  refine ⟨elements_of_collect hhas, fun h => ?_⟩
  rcases i.collect_ends hhas with ⟨-, items', s₁, hcollect⟩ | ⟨hno, -⟩
  · obtain ⟨hitems, rfl⟩ := h.unique (elements_of_collect hhas hcollect)
    obtain rfl := Array.toList_inj.1 hitems
    exact hcollect
  · exact absurd (h.iterable i hhas) hno

/-- Listing what a value gives, and what comes of it. -/
theorem later_collect (i : s.Firm) (hv : s.heap.isLive v = true)
    (h : collect v s = .ok items s₁) :
    firmTrust.Later s s₁ ∧ ∀ x ∈ items.toList, s₁.heap.isLive x = true := by
  have hr := (Trust.runs_collect (T := firmTrust) hv).result i
  rw [h] at hr
  exact ⟨hr.1, fun x hx => (Trust.ok_handle x).1 ((Trust.ok_array items).1 hr.2 x hx)⟩

theorem spares_collect (i : s.Firm) (h : collect v s = .ok items s₁) :
    Spares s s₁ := by
  have hspares := sparing_of_keeps (fun s₀ => (iterates_spares s₀).collect v) s i.sound.roomy
  rwa [h] at hspares

/-! ## Lists and iterators over them -/

theorem runsOut_forward (i : s.Steady) (hl : s.heap.Has l (.list items))
    (hit : s.heap.Has it (.iter (.forward l kind j))) :
    ∃ s', RunsOut it s (items.toList.drop j) s' := by
  have hne := hl.ne hit nofun
  generalize hn : items.size - j = n
  induction n generalizing j s with
  | zero =>
    have hle : items.size ≤ j := by omega
    obtain ⟨s', hs', -⟩ := next_beyond i hl rfl hit hle
    rw [List.drop_eq_nil_of_le hle]
    exact ⟨s', .done hs'⟩
  | succ n ih =>
    have hlt : j < items.toList.length := by
      rw [Array.length_toList]
      omega
    obtain ⟨s₁, hs₁, f, hit₁⟩ := next_item i hl hit (Array.getElem?_eq_getElem hlt)
    obtain ⟨s', hout⟩ := ih f.steady (f.has l _ (by simpa using hne) hl) hit₁ (by omega)
    rw [List.drop_eq_getElem_cons hlt]
    exact ⟨s', .more hs₁ hout⟩

theorem elements_of_runsOut {c : Cursor} (hit : s.heap.Has it (.iter c))
    (h : RunsOut it s vs s') : Elements it s vs s' :=
  .iterated hit rfl (iter_self hit.2) h

/-- The elements of an iterator over a list are the items that it has not given yet. -/
theorem elements_forward (i : s.Steady) (hl : s.heap.Has l (.list items))
    (hit : s.heap.Has it (.iter (.forward l kind j))) :
    ∃ s', Elements it s (items.toList.drop j) s' := by
  obtain ⟨s', hout⟩ := runsOut_forward i hl hit
  exact ⟨s', elements_of_runsOut hit hout⟩

/-- An iterator that runs backwards stands behind the item that it gives. -/
theorem next_backward (i : s.Steady) (hl : s.heap.Has l (.list items))
    (hit : s.heap.Has it (.iter (.backward l j))) (hn : min j items.size = n + 1) :
    ∃ v s', items.toList[n]? = some v ∧ next it s = .ok (some v) s' ∧ Frame [it] s s' ∧
      s'.heap.Has it (.iter (.backward l n)) := by
  have hlt : n < items.toList.length := by
    rw [Array.length_toList]
    omega
  have hstep : (Cursor.backward l j).step s.heap =
      .ok (some (.handle items.toList[n]), .backward l n) := by
    have hj : ¬ j = 0 := by omega
    rw [Cursor.step, Heap.bind_of_ok (Heap.get_eq_ok.2 hl.2), Cursor.elementBefore?, if_neg hj, hn,
      Nat.add_sub_cancel, Array.getElem?_eq_getElem hlt]
    rfl
  obtain ⟨s', hs', f, hit'⟩ := next_frame i hit trivial hstep
  exact ⟨_, s', List.getElem?_eq_getElem hlt, hs', f, hit'⟩

theorem next_no_backward (i : s.Steady) (hl : s.heap.Has l (.list items))
    (hit : s.heap.Has it (.iter (.backward l j))) (hn : min j items.size = 0) :
    ∃ s', next it s = .ok none s' := by
  have hstep : (Cursor.backward l j).step s.heap = .ok (none, .backward l 0) := by
    rw [Cursor.step, Heap.bind_of_ok (Heap.get_eq_ok.2 hl.2), Cursor.elementBefore?]
    by_cases hj : j = 0
    · rw [if_pos hj]
      rfl
    · have hsize : items.size ≤ min j items.size - 1 := by omega
      rw [if_neg hj, Array.getElem?_eq_none hsize]
      rfl
  obtain ⟨s', hs', -⟩ := next_frame i hit trivial hstep
  exact ⟨s', hs'⟩

theorem runsOut_backward (i : s.Steady) (hl : s.heap.Has l (.list items))
    (hit : s.heap.Has it (.iter (.backward l j))) :
    ∃ s', RunsOut it s (items.toList.take j).reverse s' := by
  have hne := hl.ne hit nofun
  generalize hn : min j items.size = n
  have htake : items.toList.take j = items.toList.take n := by
    rw [List.take_eq_take_iff, Array.length_toList]
    omega
  rw [htake]
  clear htake
  induction n generalizing j s with
  | zero =>
    obtain ⟨s', hs'⟩ := next_no_backward i hl hit hn
    exact ⟨s', .done hs'⟩
  | succ n ih =>
    obtain ⟨v, s₁, hv, hs₁, f, hit₁⟩ := next_backward i hl hit hn
    obtain ⟨s', hout⟩ := ih f.steady (f.has l _ (by simpa using hne) hl) hit₁ (by omega)
    rw [List.take_add_one, hv, List.reverse_append]
    exact ⟨s', .more hs₁ hout⟩

/-- The elements of an iterator that runs backwards over a list are the items before its place. -/
theorem elements_backward (i : s.Steady) (hl : s.heap.Has l (.list items))
    (hit : s.heap.Has it (.iter (.backward l j))) :
    ∃ s', Elements it s (items.toList.take j).reverse s' := by
  obtain ⟨s', hout⟩ := runsOut_backward i hl hit
  exact ⟨s', elements_of_runsOut hit hout⟩

end Space

end ObjectSpace
