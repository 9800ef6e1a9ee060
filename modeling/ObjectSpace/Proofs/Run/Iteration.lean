import ObjectSpace.Proofs.Run.Queries
import ObjectSpace.Proofs.Run.Values

/-!
# Iteration under a trust

A step of a cursor gives what the container behind it holds and leaves the cursor on the same
container. When an iterator is written back after the iterators it draws on have moved, it is still
an iterator over the same things (`Heap.Kept`), whatever those did.
-/

namespace ObjectSpace.Trust

variable {T : Trust} {s : Space} {v it : Handle}

/-! ## Cursors -/

theorem mem_of_getElem? {l : Array Handle} {i : Nat} {h : Handle} (he : l[i]? = some h) :
    h ∈ l.toList :=
  Array.mem_toList_iff.2 (Array.mem_of_getElem? he)

theorem ok_elementAt? {o : Object} (ho : T.Ok s o) (position : Nat) :
    T.Ok s (Cursor.elementAt? position o) := by
  refine ok_option.2 fun e hy => (ok_pair e.1 e.2).2 ⟨?_, ok_plain e.2⟩
  obtain ⟨y, p⟩ := e
  cases o with
  | list items | tuple items =>
    obtain ⟨h, hh, he⟩ := Option.map_eq_some_iff.1 hy
    obtain ⟨rfl, -⟩ := Prod.mk.inj he
    simp only [ok_listObject, ok_tupleObject, ok_array, ok_handle] at ho
    exact (ok_handle h).2 (ho h (mem_of_getElem? hh))
  | str t hash? =>
    obtain ⟨c, -, he⟩ := Option.map_eq_some_iff.1 hy
    obtain ⟨rfl, -⟩ := Prod.mk.inj he
    exact List.forall_mem_nil _
  | bytes bs =>
    obtain ⟨c, -, he⟩ := Option.map_eq_some_iff.1 hy
    obtain ⟨rfl, -⟩ := Prod.mk.inj he
    exact List.forall_mem_nil _
  | _ => cases hy

theorem ok_elementBefore? {o : Object} (ho : T.Ok s o) (position : Nat) :
    T.Ok s (Cursor.elementBefore? position o) := by
  refine ok_option.2 fun e hy => (ok_pair e.1 e.2).2 ⟨?_, ok_plain e.2⟩
  obtain ⟨y, p⟩ := e
  cases o with
  | list items | tuple items =>
    simp only [Cursor.elementBefore?, Option.ite_none_left_eq_some] at hy
    obtain ⟨h, hh, he⟩ := Option.map_eq_some_iff.1 hy.2
    obtain ⟨rfl, -⟩ := Prod.mk.inj he
    simp only [ok_listObject, ok_tupleObject, ok_array, ok_handle] at ho
    exact (ok_handle h).2 (ho h (mem_of_getElem? hh))
  | str t hash? =>
    simp only [Cursor.elementBefore?, Option.ite_none_left_eq_some] at hy
    obtain ⟨c, -, he⟩ := Option.map_eq_some_iff.1 hy.2
    obtain ⟨rfl, -⟩ := Prod.mk.inj he
    exact List.forall_mem_nil _
  | bytes bs =>
    simp only [Cursor.elementBefore?, Option.ite_none_left_eq_some] at hy
    obtain ⟨c, -, he⟩ := Option.map_eq_some_iff.1 hy.2
    obtain ⟨rfl, -⟩ := Prod.mk.inj he
    exact List.forall_mem_nil _
  | _ => cases hy

@[simp] theorem ok_yieldHandle (h : Handle) : T.Ok s (Yield.handle h) ↔ T.ok s.heap h := by
  simp [Ok, Carries.handles, Yield.handles]

@[simp] theorem ok_yieldInt (n : Int64) : T.Ok s (Yield.int n) := nofun

@[simp] theorem ok_yieldPair (a b : Handle) :
    T.Ok s (Yield.pair a b) ↔ T.ok s.heap a ∧ T.ok s.heap b := by
  simp [Ok, Carries.handles, Yield.handles]

@[simp] theorem ok_yieldNumbered (n : Int64) (h : Handle) :
    T.Ok s (Yield.numbered n h) ↔ T.ok s.heap h := by
  simp [Ok, Carries.handles, Yield.handles]

theorem ok_showEntry {k w : Handle} (hk : T.ok s.heap k) (hw : T.ok s.heap w) (part : ViewPart) :
    T.Ok s (Cursor.showEntry part k w) := by
  cases part <;> simp [Cursor.showEntry, hk, hw]

/-- A cursor that moved on holds nothing else. -/
theorem ok_onward {c c' : Cursor} (h : c.Onward c') (hc : T.Ok s c) : T.Ok s c' := by
  intro g hg
  refine hc g ?_
  show g ∈ c.children
  rw [← h.children_eq]
  exact hg

theorem asks_step {c : Cursor} (hc : T.Ok s c) : T.Asks s c.step := by
  cases c with
  | forward u k position =>
    have hu : T.ok s.heap u := hc u (by simp [Carries.handles, Cursor.children])
    refine asks_bind (asks_get hu) fun o ho => asks_inRange fun _ => ?_
    have hy := ok_elementAt? ho position
    split
    · rename_i y p heq
      rw [heq, ok_some, ok_pair] at hy
      exact asks_pure ((ok_pair _ _).2 ⟨(ok_some y).2 hy.1, hc⟩)
    · exact asks_pure ((ok_pair _ _).2 ⟨ok_none, hc⟩)
  | backward u position =>
    have hu : T.ok s.heap u := hc u (by simp [Carries.handles, Cursor.children])
    refine asks_bind (asks_get hu) fun o ho => asks_inRange fun _ => ?_
    have hy := ok_elementBefore? ho position
    split
    · rename_i y p heq
      rw [heq, ok_some, ok_pair] at hy
      exact asks_pure ((ok_pair _ _).2 ⟨(ok_some y).2 hy.1, hc⟩)
    · exact asks_pure ((ok_pair _ _).2 ⟨ok_none, hc⟩)
  | range n step remaining =>
    refine asks_ite (fun _ => asks_pure ?_) fun _ => asks_pure ?_
    · exact (ok_pair _ _).2 ⟨ok_none, hc⟩
    · exact (ok_pair _ _).2 ⟨(ok_some _).2 (ok_yieldInt n), by rintro _ ⟨⟩⟩
  | entries d part hash place done =>
    have hd : T.ok s.heap d := hc d (by simp [Carries.handles, Cursor.children])
    refine asks_ite (fun _ => asks_pure ((ok_pair _ _).2 ⟨ok_none, hc⟩)) fun _ => ?_
    refine asks_bind (asks_dict hd) fun t ht => ?_
    rw [ok_table] at ht
    split
    · rename_i g p k w heq
      have hkw := ht _ (Table.mem_toList.2 ⟨g, Table.mem_of_nextFrom? heq⟩)
      simp only [ok_pair, ok_handle] at hkw
      exact asks_pure ((ok_pair _ _).2
        ⟨(ok_some _).2 (ok_showEntry hkw.1 hkw.2 part), hc⟩)
    · exact asks_pure ((ok_pair _ _).2 ⟨ok_none, hc⟩)
  | members u hash place done =>
    have hu : T.ok s.heap u := hc u (by simp [Carries.handles, Cursor.children])
    refine asks_ite (fun _ => asks_pure ((ok_pair _ _).2 ⟨ok_none, hc⟩)) fun _ => ?_
    refine asks_bind (asks_set hu) fun t ht => ?_
    rw [ok_table] at ht
    split
    · rename_i g p k heq
      have hk := ht _ (Table.mem_toList.2 ⟨g, Table.mem_of_nextFrom? heq⟩)
      exact asks_pure ((ok_pair _ _).2
        ⟨(ok_some _).2 ((ok_yieldHandle k).2 ((ok_handle k).1 hk)), hc⟩)
    · exact asks_pure ((ok_pair _ _).2 ⟨ok_none, hc⟩)
  | enumerate | zip => exact asks_pure ((ok_pair _ _).2 ⟨ok_none, hc⟩)

theorem asks_cursor (hv : T.ok s.heap v) : T.Asks s (Heap.cursor v) := by
  refine asks_bind (asks_get hv) fun o ho => ?_
  split
  · exact asks_pure ((ok_iterObject _).1 ho)
  · exact asks_unimplemented _ hv

theorem get?_of_cursor {heap : Heap} {c : Cursor} (h : Heap.cursor v heap = .ok c) :
    heap.get? v = some (.iter c) := by
  obtain ⟨o, ho, h⟩ := Heap.bind_eq_ok.1 h
  rw [Heap.get_eq_ok] at ho
  split at h
  · rw [ho, Heap.pure_eq_ok.1 h]
  · obtain ⟨_, -, h⟩ := Heap.bind_eq_ok.1 h
    cases h

theorem asks_stepsWithin (n : Nat) (hv : T.ok s.heap v) : T.Asks s (Heap.stepsWithin n v) := by
  induction n generalizing v with
  | zero => exact asks_violate fun _ => trivial
  | succ n ih =>
    refine asks_bind (asks_cursor hv) fun c hc => ?_
    cases c with
    | forward u k position =>
      exact asks_get_plain (hc u (by simp [Carries.handles, Cursor.children])) _
    | backward u position =>
      exact asks_get_plain (hc u (by simp [Carries.handles, Cursor.children])) _
    | range => exact asks_pure (ok_plain _)
    | entries d =>
      refine asks_ite (fun _ => asks_pure (ok_plain _)) fun _ => ?_
      exact asks_bind (asks_dict (hc d (by simp [Carries.handles, Cursor.children])))
        fun _ _ => asks_pure (ok_plain _)
    | members u =>
      refine asks_ite (fun _ => asks_pure (ok_plain _)) fun _ => ?_
      exact asks_bind (asks_set (hc u (by simp [Carries.handles, Cursor.children])))
        fun _ _ => asks_pure (ok_plain _)
    | enumerate inner => exact ih (hc inner (by simp [Carries.handles, Cursor.children]))
    | zip left => exact ih (hc left (by simp [Carries.handles, Cursor.children]))

/-! ## Iterators -/

theorem runs_emit {y : Yield} (hy : T.Ok s y) : T.Runs s (Space.emit y) := by
  cases y with
  | handle h => exact runs_pure ((ok_handle h).2 ((ok_yieldHandle h).1 hy))
  | int n => exact runs_newInt n
  | str t => exact runs_newStr t
  | pair a b => exact runs_newTuple (by simpa using hy)
  | numbered n h =>
    rw [ok_yieldNumbered] at hy
    refine runs_bind (runs_newInt n) fun i s' l hi => runs_newTuple ?_
    simpa using ⟨(ok_handle i).1 hi, l.ok_mono h hy⟩

theorem ok_ofObject? (hv : T.ok s.heap v) {o : Object} (ho : T.Ok s o) {c : Cursor}
    (hc : Cursor.ofObject? v o = some c) : T.Ok s c := by
  intro g hg
  cases Cursor.starts_of_ofObject? hc with
  | range => cases hg
  | view =>
    obtain rfl := List.mem_singleton.1 hg
    exact (ok_viewObject _ _).1 ho
  | _ =>
    obtain rfl := List.mem_singleton.1 hg
    exact hv

/-- A new cursor stands, or it starts on the dict of a view. -/
theorem placeable_ofObject? {o : Object} (hv : T.ok s.heap v) (ho : s.heap.get? v = some o)
    {c : Cursor} (hc : Cursor.ofObject? v o = some c) : Placeable T.ok s.heap (.iter c) := by
  have hself : ∀ {c : Cursor}, c.children = [v] → c.Suits o → c.Stands s.heap := by
    intro c hch hs g hg w hw
    rw [hch, List.mem_singleton] at hg
    subst hg
    exact Option.some.inj (ho.symm.trans hw) ▸ hs
  cases Cursor.starts_of_ofObject? hc with
  | sequence => exact .inl (hself rfl (Cursor.admits_zero _))
  | range => exact .inl (List.forall_mem_nil _)
  | dict t | set t => exact .inl (hself rfl ⟨t, rfl⟩)
  | view d part => exact .inr ⟨v, d, part, hv, ho, rfl⟩

theorem runs_iter (hv : T.ok s.heap v) : T.Runs s (Space.iter v) := by
  refine runs_ask_bind (asks_get hv) fun o hget ho => ?_
  split
  · exact runs_pure ((ok_handle v).2 hv)
  · split
    · rename_i c hc
      exact runs_alloc (placeable_ofObject? hv (Heap.get_eq_ok.1 hget) hc) (ok_ofObject? hv ho hc)
    · exact runs_ask_bind (asks_typeName hv) fun _ _ _ => runs_fatal _

/-- What `iter` gives is an iterator. -/
theorem iter_gives (hr : s.heap.Roomy) {s' : Space} (h : Space.iter v s = .ok it s') :
    ∃ c, s'.heap.get? it = some (.iter c) := by
  obtain ⟨o, s₁, hget, h⟩ := Space.bind_eq_ok.1 h
  obtain ⟨hv, rfl⟩ := Space.ask_eq_ok.1 hget
  rw [Heap.get_eq_ok] at hv
  split at h
  · rename_i c
    obtain ⟨rfl, rfl⟩ := EStateM.Result.ok.inj h
    exact ⟨c, hv⟩
  · cases hof : Cursor.ofObject? v o with
    | some c =>
      simp only [hof] at h
      obtain ⟨g, old, heap, p, heq⟩ := alloc_placed hr (.iter c)
      obtain ⟨rfl, rfl⟩ := EStateM.Result.ok.inj (heq.symm.trans h)
      exact ⟨c, p.get?_self⟩
    | none =>
      simp only [hof] at h
      obtain ⟨_, _, -, h⟩ := Space.bind_eq_ok.1 h
      cases h

/-- A new cursor that runs backwards stands at the end of its sequence. -/
theorem stands_reversed? {o : Object} (ho : s.heap.get? v = some o) {c : Cursor}
    (hc : Cursor.reversed? v o = some c) : c.Stands s.heap := by
  obtain ⟨position, rfl, ha⟩ | ⟨n, d, m, rfl⟩ := Cursor.reversed?_cases hc
  · intro g hg w hw
    obtain rfl := List.mem_singleton.1 hg
    exact Option.some.inj (ho.symm.trans hw) ▸ ha
  · exact List.forall_mem_nil _

theorem runs_reversed (hv : T.ok s.heap v) : T.Runs s (Space.reversed v) := by
  refine runs_ask_bind (asks_get hv) fun o hget ho => ?_
  split
  · rename_i c hc
    refine runs_alloc (.inl (stands_reversed? (Heap.get_eq_ok.1 hget) hc)) fun g hg => ?_
    obtain ⟨position, rfl, -⟩ | ⟨n, d, m, rfl⟩ := Cursor.reversed?_cases hc
    · exact List.mem_singleton.1 hg ▸ hv
    · cases hg
  · exact runs_ask_bind (asks_typeName hv) fun _ _ _ => runs_fatal _

/-- Writing an iterator back, when steps were taken since it was read, and making what it gave. -/
theorem runs_moveTo {s₀ : Space} {c c' : Cursor} {y : Option Yield} (hl : T.Later s₀ s)
    (hc : s₀.heap.get? it = some (.iter c)) (hit : T.ok s.heap it)
    (hmove : ∀ c₁, s.heap.get? it = some (.iter c₁) → c.Onward c₁ →
      c₁.Advances s.heap c') (hy : T.Ok s y) :
    T.Runs s (do
      Space.update it (Object.moveTo c')
      y.mapM Space.emit) := by
  refine runs_bind (runs_update hit fun o ho hok => ?_) fun _ s' l _ => ?_
  · have hev := hl.kept.evolves hc ho
    obtain ⟨c₁, rfl, honward⟩ := hev.of_iter
    have hadv := hmove c₁ ho honward
    exact ⟨.advance hadv, ok_onward hadv.onward hok⟩
  · exact runs_optionMapM fun z hz => runs_emit (ok_option.1 (l.ok hy) z hz)

theorem runs_nextWithin (n : Nat) (hit : T.ok s.heap it) : T.Runs s (Space.nextWithin n it) := by
  induction n generalizing s it with
  | zero => exact runs_violate fun _ => trivial
  | succ n ih =>
    unfold Space.nextWithin
    refine runs_of_holds fun hs => runs_ask_bind (asks_cursor hit) fun c hcur hc => ?_
    have hget := get?_of_cursor hcur
    dsimp only
    split
    · rename_i inner count
      have hcount : ∀ s' n' c₁, (Cursor.enumerate inner count).Onward c₁ →
          c₁.Advances (Space.heap s') (.enumerate inner n') := by
        intro s' n' c₁ h
        cases h.alike
        exact h ▸ .count _ _ n'
      refine runs_bind (ih (hc inner (by simp [Carries.handles, Cursor.children])))
        fun r s₁ l₁ hr => ?_
      cases r with
      | some w =>
        refine runs_moveTo (y := some (.numbered count w)) l₁ hget (l₁.ok_mono _ hit)
          (fun _ _ => hcount s₁ _ _) ?_
        simpa using hr
      | none =>
        exact runs_moveTo (y := none) l₁ hget (l₁.ok_mono _ hit) (fun _ _ => hcount s₁ _ _) ok_none
    · rename_i left right
      have hstay : ∀ s' c₁, (Cursor.zip left right).Onward c₁ →
          c₁.Advances (Space.heap s') (.zip left right) := by
        intro s' c₁ h
        cases h.alike
        obtain ⟨rfl, rfl⟩ := h
        exact .step rfl
      refine runs_bind (ih (hc left (by simp [Carries.handles, Cursor.children])))
        fun r s₁ l₁ hr => ?_
      cases r with
      | some a =>
        have hright := l₁.ok_mono _ (hc right (by simp [Carries.handles, Cursor.children]))
        refine runs_bind (ih hright) fun q s₂ l₂ hq => ?_
        have l₃ := l₁.trans l₂
        cases q with
        | some b =>
          refine runs_moveTo (y := some (.pair a b)) l₃ hget (l₃.ok_mono _ hit)
            (fun _ _ => hstay s₂ _) ?_
          have ha := l₂.ok hr
          simp only [ok_some, ok_handle] at ha hq
          simp [ha, hq]
        | none =>
          exact runs_moveTo (y := none) l₃ hget (l₃.ok_mono _ hit) (fun _ _ => hstay s₂ _) ok_none
      | none =>
        exact runs_moveTo (y := none) l₁ hget (l₁.ok_mono _ hit) (fun _ _ => hstay s₁ _) ok_none
    · refine runs_ask_bind (asks_step hc) fun r hstep hok => ?_
      obtain ⟨y, c'⟩ := r
      refine runs_moveTo (.refl hs) hget hit (fun c₁ hc₁ _ => ?_) ((ok_pair _ _).1 hok).1
      obtain rfl := Object.iter.inj (Option.some.inj (hget.symm.trans hc₁))
      exact .step hstep

theorem runs_next (hit : T.ok s.heap it) : T.Runs s (Space.next it) :=
  runs_ask_bind asks_depth fun n _ _ => runs_nextWithin n hit

theorem runs_drain (n : Nat) {done : Array Handle} (hit : T.ok s.heap it) (hd : T.Ok s done) :
    T.Runs s (Space.drain it done n) := by
  induction n generalizing s done with
  | zero => exact runs_violate fun _ => trivial
  | succ n ih =>
    refine runs_bind (runs_next hit) fun r s' l hr => ?_
    cases r with
    | none => exact runs_pure (l.ok hd)
    | some w =>
      refine ih (l.ok_mono _ hit) ?_
      have hd' := l.ok hd
      simp only [ok_array, ok_handle, ok_some] at hd' hr ⊢
      intro x hx
      rw [Array.toList_push, List.mem_append, List.mem_singleton] at hx
      rcases hx with hx | rfl
      · exact hd' x hx
      · exact hr

theorem runs_collect (hv : T.ok s.heap v) : T.Runs s (Space.collect v) := by
  refine runs_ask_bind (asks_get hv) fun o _ ho => ?_
  split
  · exact runs_pure ((ok_listObject _).1 ho)
  · exact runs_pure ((ok_tupleObject _).1 ho)
  · exact runs_pure (by simpa using ho)
  · refine runs_bind (runs_iter hv) fun it s₁ l₁ hit => ?_
    refine runs_ask_bind asks_depth fun n _ _ => ?_
    refine runs_ask_bind (asks_stepsWithin n ((ok_handle it).1 hit)) fun steps _ _ => ?_
    exact runs_drain _ ((ok_handle it).1 hit) (by simp)

end ObjectSpace.Trust
