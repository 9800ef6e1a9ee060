import ObjectSpace.Proofs.Effects.Rules

/-!
# Effects on values

Operators, items, slices and attributes only place objects. Dicts, sets and lists are filled when
they are updated; a new one is filled as it is made.
-/

namespace ObjectSpace.Space

variable {I : Space → Prop} {d u l v : Handle}

theorem keeps_getItem (k : Stable I) (container key : Handle) :
    Keeps I (getItem container key) := by
  refine keeps_ask_bind fun o => ?_
  have hindex : ∀ n type, Keeps I (do
      normalizeIndex (← Heap.indexArgument container key "getitem") n type : Action Nat) :=
    fun _ _ => keeps_ask_bind fun _ => keeps_check _
  split
  case h_1 | h_2 => exact keeps_bind (hindex _ _) fun _ => keeps_pure _
  case h_3 | h_4 | h_5 => exact keeps_bind (hindex _ _) fun _ => k.alloc trivial
  case h_6 | h_7 => exact keeps_ask _

/-! ## Dicts and sets -/

section Fill

variable (hd : Bears I (.fill d)) (hu : Bears I (.fill u)) (hl : Bears I (.fill l))

section Dicts

include hd

theorem keeps_updateDict (f : Table (Handle × Handle) → Table (Handle × Handle)) :
    Keeps I (updateDict d f) := by
  refine keeps_ask_bind fun _ => keeps_update hd fun o => ?_
  cases o <;> simp [Object.Refills]

theorem keeps_dictInsert (key value : Handle) : Keeps I (dictInsert d key value) := by
  refine keeps_ask_bind fun p => ?_
  obtain ⟨hash, _ | i⟩ := p
  · exact keeps_updateDict hd _
  · exact keeps_updateDict hd _

theorem keeps_dictRemove (key : Handle) : Keeps I (dictRemove d key) := by
  refine keeps_ask_bind fun p => ?_
  obtain ⟨hash, _ | i⟩ := p
  · exact keeps_pure none
  · exact keeps_ask_bind fun t => keeps_bind (keeps_updateDict hd _) fun _ => keeps_pure _

theorem keeps_insertPairs (pairs : List (Handle × Handle)) : Keeps I (insertPairs d pairs) := by
  refine keeps_forM (fun e => ?_) pairs
  obtain ⟨key, value⟩ := e
  exact keeps_dictInsert hd key value

end Dicts

section Sets

include hu

theorem keeps_updateSet (f : Table Handle → Table Handle) : Keeps I (updateSet u f) := by
  refine keeps_ask_bind fun _ => keeps_update hu fun o => ?_
  cases o <;> simp [Object.Refills]

theorem keeps_setInsert (member : Handle) : Keeps I (setInsert u member) := by
  refine keeps_ask_bind fun p => ?_
  obtain ⟨hash, _ | i⟩ := p
  · exact keeps_bind (keeps_updateSet hu _) fun _ => keeps_pure _
  · exact keeps_pure _

theorem keeps_setRemove (member : Handle) : Keeps I (setRemove u member) := by
  refine keeps_ask_bind fun p => ?_
  obtain ⟨hash, _ | i⟩ := p
  · exact keeps_pure _
  · exact keeps_bind (keeps_updateSet hu _) fun _ => keeps_pure _

theorem keeps_insertAll (items : List Handle) :
    Keeps I (items.forM fun item => do
      let _ ← setInsert u item) :=
  keeps_forM (fun item => keeps_bind (keeps_setInsert hu item) fun _ => keeps_pure _) items

end Sets

include hl in
theorem keeps_updateList (f : Array Handle → Array Handle) : Keeps I (updateList l f) := by
  refine keeps_ask_bind fun _ => keeps_update hl fun o => ?_
  cases o <;> simp [Object.Refills]

include hl in
theorem keeps_setItem (key value : Handle) : Keeps I (setItem l key value) := by
  refine keeps_ask_bind fun o => ?_
  split
  · exact keeps_ask_bind fun _ => keeps_check_bind fun i => keeps_updateList hl _
  · exact keeps_dictInsert hl key value
  · exact keeps_ask _

include hl in
theorem keeps_deleteItem (key : Handle) : Keeps I (deleteItem l key) := by
  refine keeps_ask_bind fun o => ?_
  split
  · exact keeps_ask_bind fun _ => keeps_check_bind fun i => keeps_updateList hl _
  · refine keeps_bind (keeps_dictRemove hl key) fun r => ?_
    cases r with
    | some w => exact keeps_pure _
    | none => exact keeps_ask _
  · exact keeps_ask _

end Fill

theorem keeps_newDict (k : Stable I) (pairs : List (Handle × Handle)) :
    Keeps I (newDict pairs) :=
  k.alloc_bind (o := .dict .empty) trivial fun _ h =>
    keeps_bind (keeps_insertPairs (k.fill h) pairs) fun _ => keeps_pure _

theorem keeps_newSet (k : Stable I) (items : List Handle) : Keeps I (newSet items) :=
  k.alloc_bind (o := .set .empty) trivial fun _ h =>
    keeps_bind (keeps_insertAll (k.fill h) items) fun _ => keeps_pure _

section Sources

variable {source : Handle} (hc : Keeps I (collect source))

include hc

theorem keeps_pairsOf : Keeps I (pairsOf source) := by
  refine keeps_ask_bind fun o => ?_
  split
  · exact keeps_pure _
  · exact keeps_bind hc fun items => keeps_mapM (fun _ => keeps_ask _) _

theorem keeps_dictUpdate (hd : Bears I (.fill d)) : Keeps I (dictUpdate d source) :=
  keeps_bind (keeps_pairsOf hc) fun pairs => keeps_insertPairs hd pairs

end Sources

/-! ## Slices and operators -/

theorem keeps_slice (k : Stable I) (start stop step : Option Handle) :
    Keeps I (slice v start stop step) := by
  refine keeps_bind keeps_nothing fun noneValue => ?_
  refine keeps_ask_bind fun _ => keeps_ask_bind fun _ => keeps_ask_bind fun _ => ?_
  refine keeps_ask_bind fun o => ?_
  split
  case h_5 => exact keeps_check_bind fun _ => keeps_check_bind fun _ => k.newRange _ _ _
  case h_6 => exact keeps_ask _
  all_goals exact keeps_check_bind fun _ => k.alloc trivial

theorem repeated?_made {x o : Object} {n : Int64} (h : x.repeated? n = some (.ok o)) :
    o.Made := by
  unfold Object.repeated? at h
  split at h
  case h_5 => cases h
  all_goals
    obtain ⟨t, -, rfl⟩ := Trust.map_eq_ok (Option.some.inj h)
    trivial

/-- Joining and repeating sequences makes a sequence. -/
theorem sequenceBinary?_made {op : BinaryOp} {x y o : Object}
    (h : Object.sequenceBinary? op x y = some (.ok o)) : o.Made := by
  unfold Object.sequenceBinary? at h
  split at h
  · split at h
    case h_5 => cases h
    all_goals
      obtain rfl := Except.ok.inj (Option.some.inj h)
      trivial
  · split at h
    · exact repeated?_made h
    · exact repeated?_made h
    · cases h
  · cases h

theorem keeps_integerBinary (k : Stable I) (op : BinaryOp) (a b : Handle) (i j : Int64)
    (bothBool : Bool) : Keeps I (integerBinary op a b i j bothBool) := by
  unfold integerBinary
  split
  · exact keeps_ask _
  · exact keeps_check_bind fun n => keeps_ite (keeps_boolean _) (k.alloc trivial)

theorem keeps_binary (k : Stable I) (op : BinaryOp) (a b : Handle) : Keeps I (binary op a b) := by
  refine keeps_ask_bind fun x => keeps_ask_bind fun y => ?_
  split
  · exact keeps_integerBinary k op a b _ _ _
  · split
    · rename_i result hresult
      cases result with
      | ok o => exact k.alloc (sequenceBinary?_made hresult)
      | error e => exact keeps_fatal e
    · split
      · exact keeps_ask_bind fun _ => k.alloc trivial
      · refine keeps_ask_bind fun members => ?_
        split
        · exact keeps_newSet k _
        · exact keeps_ask _
      · exact keeps_ask _

theorem keeps_unary (k : Stable I) (op : UnaryOp) (v : Handle) : Keeps I (unary op v) := by
  unfold unary
  split
  · exact keeps_ask_bind fun _ => keeps_boolean _
  · refine keeps_ask_bind fun n? => ?_
    split
    · exact keeps_ask _
    · split
      · exact keeps_check_bind fun n => k.alloc trivial
      all_goals exact k.alloc trivial

/-! ## Attributes -/

theorem keeps_typeOf (v : Handle) : Keeps I (typeOf v) := by
  refine keeps_ask_bind fun o => ?_
  split
  · exact keeps_pure _
  · split
    · exact keeps_typeObject _
    · exact keeps_violate _

theorem keeps_bindMember (k : Stable I) (receiver member : Handle) :
    Keeps I (bindMember receiver member) :=
  keeps_ask_bind fun _ => keeps_ite (k.alloc trivial) (keeps_pure _)

theorem keeps_builtinMethod (k : Stable I) (receiver : Handle) (name : String) (o : Object) :
    Keeps I (builtinMethod receiver name o) := by
  unfold builtinMethod
  split
  · exact keeps_bind (keeps_methodFunction _) fun _ => k.alloc trivial
  · exact keeps_ask _

theorem keeps_getAttribute (k : Stable I) (v : Handle) (name : String) :
    Keeps I (getAttribute v name) := by
  refine keeps_ite (keeps_typeOf v) (keeps_ask_bind fun o => ?_)
  split
  case h_1 =>
    split
    · exact keeps_pure _
    · refine keeps_ask_bind fun p => ?_
      split
      · split
        · exact keeps_bindMember k _ _
        · exact keeps_ask _
      · exact keeps_ask _
  case h_2 =>
    refine keeps_ite (k.alloc trivial) ?_
    split
    · exact keeps_pure _
    · exact keeps_ask _
  case h_3 =>
    refine keeps_ite (k.alloc trivial) ?_
    split
    · exact keeps_methodFunction _
    · exact keeps_ask _
  case h_4 =>
    refine keeps_ite ?_ (keeps_ask _)
    split <;> exact k.alloc trivial
  case h_5 => exact keeps_builtinMethod k v name _

theorem keeps_setAttribute {name : String} {w : Handle} (ha : Bears I (.assign v name w)) :
    Keeps I (setAttribute v name w) := by
  have ha : Alters I v fun o o' => o' = o.withAttribute name w ∨ o' = o := ha
  refine keeps_ask_bind fun o => keeps_ite (keeps_ask _) (keeps_update ha fun o => .inl ?_)
  cases o <;> rfl

end ObjectSpace.Space

/-!
## Computations that change iterators only

Listing what an iterable gives makes new objects and advances iterators; it changes no other object
that is live, and what it makes are no dicts. So reading the pairs for an update of a dict leaves
the dicts as they are, also when it stops half-way (`sparing_pairsOf`).
-/

namespace ObjectSpace.Space

variable {α : Type}

/-- Live objects other than iterators stay as they are, and no dict is made. -/
structure Spares (s s' : Space) : Prop where
  roomy : s'.heap.Roomy
  has : ∀ v o, (∀ c, o ≠ .iter c) → s.heap.Has v o → s'.heap.Has v o
  dicts : ∀ v t, s'.heap.Has v (.dict t) → s.heap.Has v (.dict t)

theorem Spares.refl {s : Space} (hr : s.heap.Roomy) : Spares s s :=
  ⟨hr, fun _ _ _ h => h, fun _ _ h => h⟩

theorem Spares.trans {s s' s'' : Space} (h₁ : Spares s s') (h₂ : Spares s' s'') : Spares s s'' :=
  ⟨h₂.roomy, fun v o ho h => h₂.has v o ho (h₁.has v o ho h), fun v t h =>
    h₁.dicts v t (h₂.dicts v t h)⟩

/-- However it ends, a computation changes no live objects but iterators. -/
def Sparing (act : Action α) : Prop := ∀ s, s.heap.Roomy → Spares s (leftBy (act s))

/-- Placing anything but a dict spares what there is. -/
theorem spares_placed {s : Space} {o : Object} {h : Handle} {old : Option Object} {heap : Heap}
    (hr : s.heap.Roomy) (ho : ∀ t, o ≠ .dict t)
    (p : Arena.Placed s.heap o.sizeClass o h old heap) :
    Spares s { s with heap, disk := settle old s.disk } := by
  refine ⟨p.roomy hr, fun _ _ _ => p.has, fun v t hv => ?_⟩
  rcases p.of_has hv with ⟨-, he⟩ | hv
  · exact absurd he.symm (ho t)
  · exact hv

/-- Moving an iterator on spares what there is. -/
theorem spares_moveTo {s : Space} {it : Handle} {o : Object} {f : Object → Object} {c : Cursor}
    (hr : s.heap.Roomy) (hget : s.heap.get? it = some o) (hf : f o = o.moveTo c) :
    Spares s { s with heap := s.heap.modify it f } := by
  have hlive : ∀ v, (s.heap.modify it f).isLive v = s.heap.isLive v := Arena.isLive_modify hget f
  have hread : ∀ v, (s.heap.modify it f).get? v =
      if v = it then some (o.moveTo c) else s.heap.get? v := fun v => by
    rw [Arena.get?_modify hget, hf]
  refine ⟨hr.modify _ _, fun v w hw h => ⟨(hlive v).trans h.1, (hread v).trans ?_⟩, fun v t h =>
    ⟨(hlive v).symm.trans h.1, ?_⟩⟩
  · by_cases hv : v = it
    · subst hv
      obtain rfl := Option.some.inj (hget.symm.trans h.2)
      rw [if_pos rfl]
      cases o with
      | iter d => exact absurd rfl (hw d)
      | _ => rfl
    · rw [if_neg hv]
      exact h.2
  · have h := (hread v).symm.trans h.2
    by_cases hv : v = it
    · subst hv
      rw [if_pos rfl, Option.some.injEq] at h
      cases o with
      | dict => exact hget.trans (congrArg some h)
      | _ => cases h
    · rwa [if_neg hv] at h

/-- Iterating spares what there was at the start. -/
theorem iterates_spares (s₀ : Space) : Iterates (Spares s₀) where
  roomy h := h.roomy
  other h hheap _ _ _ := ⟨hheap ▸ h.roomy, hheap ▸ h.has, hheap ▸ h.dicts⟩
  place s o h old heap hs ho p := by
    refine hs.trans (spares_placed hs.roomy (fun t he => ?_) p)
    rw [he] at ho
    exact ho
  advance it s o f hs ho hf := by
    obtain ⟨c, hc⟩ := hf
    exact hs.trans (spares_moveTo hs.roomy ho hc)

theorem sparing_of_keeps {act : Action α} (h : ∀ s₀, Keeps (Spares s₀) act) : Sparing act :=
  fun s hr => h s s (.refl hr)

theorem sparing_iter (v : Handle) : Sparing (iter v) :=
  sparing_of_keeps fun s₀ => (iterates_spares s₀).iter v

theorem sparing_nextWithin (n : Nat) (it : Handle) : Sparing (nextWithin n it) :=
  sparing_of_keeps fun s₀ => (iterates_spares s₀).nextWithin n it

/-- Reading the pairs for an update of a dict changes iterators only. -/
theorem sparing_pairsOf (source : Handle) : Sparing (pairsOf source) :=
  sparing_of_keeps fun s₀ => keeps_pairsOf ((iterates_spares s₀).collect source)

end ObjectSpace.Space
