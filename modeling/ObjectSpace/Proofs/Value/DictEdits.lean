import ObjectSpace.Proofs.Effects.Values
import ObjectSpace.Proofs.Value.Edits

/-!
# Operations on dicts

What each operation on a dict does, as edits of that dict (`DictOp.edits`). A legal operation is on
a dict, with live handles and with keys that have a hash.

**Theorem (`DictOp.steps`).** A legal operation ends with a result, up to a key that has to be
there, and it applies its edits to its dict and leaves the other dicts alone (`Applies`). Edits
compose, so an update is one put after the other. A copy makes a new dict of the same entries
(`DictOp.copy_steps`).
-/

namespace ObjectSpace

/-! ## Operations on dicts -/

/-- Whether two values are equal; values that equality does not answer on are not. -/
def Heap.agree (heap : Heap) (a b : Handle) : Bool :=
  match Heap.equal a b heap with
  | .ok r => r
  | .error _ => false

namespace Space

/-- A live handle names a dict. -/
def IsDict (s : Space) (d : Handle) : Prop := ∃ t, s.heap.Has d (.dict t)

/-- A live value has a hash. -/
def Hashable (s : Space) (v : Handle) : Prop :=
  s.heap.isLive v = true ∧ ∃ u, Heap.hash v s.heap = .ok u

end Space

/-- What can be done to a dict. -/
inductive DictOp where
  | insert (d key value : Handle)
  | setItem (d key value : Handle)
  | remove (d key : Handle)
  | deleteItem (d key : Handle)
  | pop (d key : Handle) (default? : Option Handle)
  | clear (d : Handle)
  | update (d source : Handle)
  | copy (d : Handle)

namespace DictOp

/-- The dict that an operation is on. -/
def target : DictOp → Handle
  | insert d .. | setItem d .. | remove d _ | deleteItem d _ | pop d .. | clear d | update d _
  | copy d => d

/-- Run an operation, giving what it returns. -/
def run : DictOp → Action (Option Handle)
  | insert d key value => (fun _ => none) <$> Space.dictInsert d key value
  | setItem d key value => (fun _ => none) <$> Space.setItem d key value
  | remove d key => Space.dictRemove d key
  | deleteItem d key => (fun _ => none) <$> Space.deleteItem d key
  | pop d key default? => some <$> Space.runMethod (.dict .pop) d (key :: default?.toList)
  | clear d => some <$> Space.runMethod (.dict .clear) d []
  | update d source => some <$> Space.runMethod (.dict .update) d [source]
  | copy d => some <$> Space.runMethod (.dict .copy) d []

/-- The space after an operation, also when it stops. -/
def leave (op : DictOp) (s : Space) : Space := Space.leftBy (op.run s)

/-- An operation is on a dict, its handles are live, and its keys have a hash. -/
def Legal (s : Space) : DictOp → Prop
  | insert d key value | setItem d key value =>
    s.IsDict d ∧ s.Hashable key ∧ s.heap.isLive value = true
  | remove d key | deleteItem d key => s.IsDict d ∧ s.Hashable key
  | pop d key default? =>
    s.IsDict d ∧ s.Hashable key ∧ ∀ v, default? = some v → s.heap.isLive v = true
  | clear d | copy d => s.IsDict d
  | update d source => s.IsDict d ∧ s.heap.isLive source = true ∧
    ∀ pairs s₁, Space.pairsOf source s = .ok pairs s₁ → ∀ x ∈ pairs, s₁.Hashable x.1

/-- The edits that an operation makes, the latest first. -/
def edits (s : Space) : DictOp → List Edit
  | insert _ key value | setItem _ key value => [.put key value]
  | remove _ key | deleteItem _ key | pop _ key _ => [.drop key]
  | clear _ => [.clear]
  | update _ source =>
    match Space.pairsOf source s with
    | .ok pairs _ => Edit.puts pairs.reverse
    | .error .. => []
  | copy _ => []

/-- The histories of the dicts after an operation. -/
def record (op : DictOp) (s : Space) (history : Handle → List Edit) : Handle → List Edit :=
  match op, op.run s with
  | copy d, .ok (some h) _ => Function.update history h (history d)
  | _, _ => Function.update history op.target (op.edits s ++ history op.target)

/-- How an operation ends. Putting a value under a key that is there leaves the stored key. What has
to remove an entry stops where there is none, and nothing changes. -/
def Ends (s : Space) (op : DictOp) : Prop :=
  match op with
  | insert d key value | setItem d key value =>
    ∃ t t' s', op.run s = .ok none s' ∧ s.heap.Has d (.dict t) ∧ s'.heap.Has d (.dict t') ∧
      ∀ x ∈ t.toList, s.heap.agree key x.1 = true → (x.1, value) ∈ t'.toList
  | remove d key =>
    ∃ value? s', op.run s = .ok value? s' ∧ Heap.dictLookup d key s.heap = .ok value?
  | deleteItem d key =>
    ∃ value?, Heap.dictLookup d key s.heap = .ok value? ∧
      match value? with
      | some _ => ∃ s', op.run s = .ok none s'
      | none => ∃ e, op.run s = .error e s
  | pop d key default? =>
    ∃ value?, Heap.dictLookup d key s.heap = .ok value? ∧
      match value?.or default? with
      | some v => ∃ s', op.run s = .ok (some v) s'
      | none => ∃ e, op.run s = .error e s
  | clear _ => ∃ v s', op.run s = .ok (some v) s'
  | copy d => ∃ t h s', op.run s = .ok (some h) s' ∧ s.heap.get? h = none ∧
      s.heap.Has d (.dict t) ∧ s'.heap.Has h (.dict t)
  | update _ source => ∀ pairs s₁, Space.pairsOf source s = .ok pairs s₁ →
      ∃ v s', op.run s = .ok (some v) s'

/-- An operation leaves every other dict as it is, and in every dict what is under keys unequal to
those of its edits. An update may have made the keys of its edits, so they are compared after it. -/
def Keeps (s : Space) (op : DictOp) : Prop :=
  (∀ v t, v ≠ op.target → s.heap.Has v (.dict t) → (op.leave s).heap.Has v (.dict t)) ∧
  ∀ v key, s.IsDict v → s.Hashable key →
    (v = op.target →
      ∀ e ∈ op.edits s, ∃ k, e.key? = some k ∧ (op.leave s).heap.agree key k = false) →
    Heap.dictLookup v key (op.leave s).heap = Heap.dictLookup v key s.heap

end DictOp

/-! ## Equality and keys -/

namespace Space

variable {s s' s'' : Space} {d key value : Handle} {t : Table (Handle × Handle)} {κ : Key}
  {l l' : List Edit}

theorem Ordered.keyed_of_hashable (i : s.Ordered) (h : s.Hashable key) :
    ∃ κ, s.heap.Keyed key κ := by
  obtain ⟨hlive, u, hu⟩ := h
  obtain ⟨κ, k, -⟩ := i.keyed hlive hu
  exact ⟨κ, k⟩

theorem Ordered.hashable_of_keyed (i : s.Ordered) (k : s.heap.Keyed key κ) : s.Hashable key := by
  obtain ⟨u, hu⟩ := k.hashed
  exact ⟨k.live, u, k.hash i.legible hu⟩

/-- Keyed values agree when they have the same key. -/
theorem Ordered.agree_eq (i : s.Ordered) (k : s.heap.Keyed key κ) {v : Handle} {κ' : Key}
    (kv : s.heap.Keyed v κ') : s.heap.agree key v = s.heap.keyedAs κ v := by
  obtain ⟨r, hr, hiff⟩ := k.equal i.legible kv
  have hagree : s.heap.agree key v = r := by
    rw [Heap.agree, hr]
  rw [hagree, Bool.eq_iff_iff, hiff, Heap.keyedAs_eq_true]
  constructor
  · rintro rfl
    exact kv
  · exact fun kv' => kv'.unique kv

theorem Ordered.agree_iff (i : s.Ordered) (k : s.heap.Keyed key κ)
    (hd : s.heap.Has d (.dict t)) {x : Handle × Handle} (hx : x ∈ t.toList) :
    s.heap.agree key x.1 = true ↔ s.heap.Keyed x.1 κ := by
  obtain ⟨κ', k'⟩ := entry_keyed i hd hx
  rw [i.agree_eq k k', Heap.keyedAs_eq_true]

/-- What a history leaves under keys equal to a given one. -/
theorem Ordered.found_agree (i : s.Ordered) (r : Recorded s.heap t l) (k : s.heap.Keyed key κ) :
    Edit.found (s.heap.agree key) l = Edit.found (s.heap.keyedAs κ) l := by
  refine Edit.found_congr fun e he v hv => ?_
  obtain ⟨κ', k'⟩ := r.keyed e he v hv
  exact i.agree_eq k k'

theorem map_of_ok {α β : Type} {act : Action α} {f : α → β} {a : α} (h : act s = .ok a s') :
    (f <$> act) s = .ok (f a) s' := by
  simp only [Functor.map, EStateM.map, h]

theorem map_of_error {α β : Type} {act : Action α} {f : α → β} {e : Halt}
    (h : act s = .error e s') : (f <$> act) s = .error e s' := by
  simp only [Functor.map, EStateM.map, h]

/-- One dict gets edits, and the other dicts stay as they are. -/
structure Applies (d : Handle) (l : List Edit) (s s' : Space) : Prop where
  ordered : s'.Ordered
  kept : Heap.Kept s.heap s'.heap
  others : ∀ v t, v ≠ d → (s'.heap.Has v (.dict t) ↔ s.heap.Has v (.dict t))
  recorded : ∀ t l', s.heap.Has d (.dict t) → Recorded s.heap t l' →
    ∃ t', s'.heap.Has d (.dict t') ∧ Recorded s'.heap t' (l ++ l')

theorem Applies.trans (h₁ : Applies d l s s') (h₂ : Applies d l' s' s'') :
    Applies d (l' ++ l) s s'' := by
  refine ⟨h₂.ordered, h₁.kept.trans h₂.kept, fun v t hv => ?_, fun t l₀ ht r => ?_⟩
  · rw [h₂.others v t hv, h₁.others v t hv]
  · obtain ⟨t₁, ht₁, r₁⟩ := h₁.recorded t l₀ ht r
    rw [List.append_assoc]
    exact h₂.recorded t₁ _ ht₁ r₁

/-- No edits are applied where only iterators change. -/
theorem Applies.of_spares (i : s'.Ordered) (hk : Heap.Kept s.heap s'.heap) (hs : Spares s s')
    (his : s.Ordered) : Applies d [] s s' := by
  refine ⟨i, hk, fun v t _ => ⟨hs.dicts v t, hs.has v _ nofun⟩, fun t l ht r => ?_⟩
  exact ⟨t, hs.has d _ nofun ht, r.later hk fun x hx => entry_keyed his ht hx⟩

/-- Rewriting a dict applies what its new entries record. -/
theorem Applies.of_rewrites {t' : Table (Handle × Handle)} (i : s'.Ordered)
    (hk : Heap.Kept s.heap s'.heap) (hd : s.heap.Has d (.dict t)) (hr : Rewrites d t' s s')
    (hkeyed : ∀ x ∈ t'.toList, ∃ κ, s.heap.Keyed x.1 κ)
    (h : ∀ l', Recorded s.heap t l' → Recorded s.heap t' (l ++ l')) : Applies d l s s' := by
  refine ⟨i, hk, fun v u hv => hr.other hv, fun u l' hu r => ⟨t', hr.self, ?_⟩⟩
  obtain rfl : u = t := Object.dict.inj (hu.unique hd)
  exact (h l' r).later hk hkeyed

/-- What an action under the trust leaves. -/
theorem Ordered.leftBy (i : s.Ordered) {α : Type} [Carries α] {act : Action α}
    (h : orderedTrust.Runs s act) :
    (Space.leftBy (act s)).Ordered ∧ Heap.Kept s.heap (Space.leftBy (act s)).heap := by
  have hr := h.result i
  cases hact : act s with
  | ok a s' | error e s' =>
    rw [hact] at hr
    exact ⟨hr.1.holds, hr.1.kept⟩

theorem Ordered.after (i : s.Ordered) {α : Type} [Carries α] {act : Action α} {a : α}
    (h : orderedTrust.Runs s act) (hact : act s = .ok a s') :
    s'.Ordered ∧ Heap.Kept s.heap s'.heap := by
  have hl := i.leftBy h
  rwa [hact] at hl

section Single

variable (i : s.Ordered) (hd : s.heap.Has d (.dict t))

include i hd

theorem applies_insert (k : s.heap.Keyed key κ) (hv : s.heap.isLive value = true) :
    ∃ t' s', dictInsert d key value s = .ok () s' ∧ Applies d [.put key value] s s' ∧
      s'.heap.Has d (.dict t') ∧
      ∀ x ∈ t.toList, s.heap.Keyed x.1 κ → (x.1, value) ∈ t'.toList := by
  obtain ⟨t', s', stored, hs', hr, kstored, hcases, hmem⟩ := dictInsert_keyed i hd k value
  obtain ⟨i', hk⟩ := i.after (Trust.runs_dictInsert hd.1 k.live hv) hs'
  refine ⟨t', s', hs', .of_rewrites i' hk hd hr (fun x hx => ?_)
    (fun l' r => r.put k kstored hcases hmem), hr.self, fun x hx kx => (hmem _).2 (.inl ?_)⟩
  · rcases (hmem x).1 hx with rfl | ⟨hx, -⟩
    · exact ⟨κ, kstored⟩
    · exact entry_keyed i hd hx
  · rcases hcases with ⟨w, hw⟩ | ⟨-, hnone⟩
    · -- the entry under the key is the one whose key is stored
      have r := Recorded.of_entries i hd
      have hxw : x = (stored, w) := Option.some.inj
        (((r.found κ x).2 ⟨hx, kx⟩).symm.trans ((r.found κ (stored, w)).2 ⟨hw, kstored⟩))
      rw [hxw]
    · exact absurd kx (hnone x hx)

theorem applies_remove (k : s.heap.Keyed key κ) :
    ∃ s' value?, dictRemove d key s = .ok value? s' ∧ Applies d [.drop key] s s' ∧
      Heap.dictLookup d key s.heap = .ok value? ∧ (value? = none → s' = s) := by
  obtain ⟨t', s', value?, hs', hr, hlookup, hsame, hmem⟩ := dictRemove_keyed i hd k
  obtain ⟨i', hk⟩ := i.after (Trust.runs_dictRemove hd.1 k.live) hs'
  refine ⟨s', value?, hs', .of_rewrites i' hk hd hr (fun x hx => ?_)
    (fun l' r => r.drop k hmem), hlookup, hsame⟩
  exact entry_keyed i hd ((hmem x).1 hx).1

theorem applies_clear :
    ∃ s', updateDict d (fun _ => .empty) s = .ok () s' ∧ Applies d [.clear] s s' := by
  obtain ⟨s', hs', hr⟩ := updateDict_rewrites hd fun _ => Table.empty
  obtain ⟨i', hk⟩ := i.after (Trust.runs_updateDict hd.1 fun u _ _ =>
    ⟨.dictClear u, Trust.ok_empty⟩) hs'
  refine ⟨s', hs', .of_rewrites i' hk hd hr (fun x hx => ?_) fun l' r => r.clear⟩
  rw [Table.toList_empty] at hx
  cases hx

/-- Inserting pairs applies one put after the other. -/
theorem applies_insertPairs {pairs : List (Handle × Handle)}
    (h : ∀ x ∈ pairs, (∃ κ, s.heap.Keyed x.1 κ) ∧ s.heap.isLive x.2 = true) :
    ∃ s', insertPairs d pairs s = .ok () s' ∧ Applies d (Edit.puts pairs.reverse) s s' := by
  induction pairs generalizing s t with
  | nil =>
    exact ⟨s, rfl, .of_spares i (.refl _) (.refl i.sound.roomy) i⟩
  | cons x pairs ih =>
    rw [List.forall_mem_cons] at h
    obtain ⟨⟨⟨κ, k⟩, hv⟩, h⟩ := h
    obtain ⟨t₁, s₁, hs₁, a₁, hd₁, -⟩ := applies_insert i hd k hv
    obtain ⟨s', hs', a'⟩ := ih a₁.ordered hd₁ fun y hy =>
      ⟨(h y hy).1.imp fun _ ky => ky.later a₁.kept, a₁.kept.live (h y hy).2⟩
    refine ⟨s', ?_, ?_⟩
    · show (dictInsert d x.1 x.2 >>= fun _ => insertPairs d pairs) s = _
      rw [bind_of_ok hs₁]
      exact hs'
    · have happ := a₁.trans a'
      rw [List.reverse_cons]
      simpa [Edit.puts] using happ

end Single

/-- Reading pairs applies nothing, however it ends. -/
theorem applies_pairsOf (i : s.Ordered) {source : Handle} (hs : s.heap.isLive source = true) :
    Applies d [] s (leftBy (pairsOf source s)) := by
  obtain ⟨i', hk⟩ := i.leftBy (Trust.runs_pairsOf (T := orderedTrust) hs)
  exact .of_spares i' hk (sparing_pairsOf source s i.sound.roomy) i

/-- An update puts the pairs of the source, if they can be read. -/
theorem applies_dictUpdate (i : s.Ordered) (hd : s.heap.Has d (.dict t)) {source : Handle}
    (hs : s.heap.isLive source = true)
    (h : ∀ pairs s₁, pairsOf source s = .ok pairs s₁ → ∀ x ∈ pairs, s₁.Hashable x.1) :
    (∃ pairs s₁ s', pairsOf source s = .ok pairs s₁ ∧ dictUpdate d source s = .ok () s' ∧
      Applies d (Edit.puts pairs.reverse) s s') ∨
    ∃ e s', pairsOf source s = .error e s' ∧ dictUpdate d source s = .error e s' ∧
      Applies d [] s s' := by
  have happ := applies_pairsOf (d := d) i hs
  have hruns := (Trust.runs_pairsOf (T := orderedTrust) hs).result i
  rcases hread : pairsOf source s with ⟨pairs, s₁⟩ | ⟨e, s₁⟩
  · rw [hread] at happ hruns
    obtain ⟨t₁, hd₁, -⟩ := happ.recorded t _ hd (.of_entries i hd)
    have hpairs : ∀ x ∈ pairs, (∃ κ, s₁.heap.Keyed x.1 κ) ∧ s₁.heap.isLive x.2 = true :=
      fun x hx => by
        refine ⟨happ.ordered.keyed_of_hashable (h pairs s₁ hread x hx), ?_⟩
        exact hruns.2 x.2 (List.mem_flatMap.2 ⟨x, hx, by simp [Carries.handles]⟩)
    obtain ⟨s', hs', a'⟩ := applies_insertPairs happ.ordered hd₁ hpairs
    refine .inl ⟨pairs, s₁, s', rfl, ?_, ?_⟩
    · rw [dictUpdate, bind_of_ok hread]
      exact hs'
    · have htrans := happ.trans a'
      rwa [List.append_nil] at htrans
  · rw [hread] at happ
    exact .inr ⟨e, s₁, rfl, by rw [dictUpdate, bind_of_error hread], happ⟩

end Space

namespace DictOp

open Space (Applies bind_of_ok bind_of_error map_of_ok map_of_error)

variable {s s' : Space} {op : DictOp} {d key value : Handle} {t : Table (Handle × Handle)}
  {l : List Edit} {κ : Key} {a : Option Handle} {e : Halt}

theorem applies_of_ok (h : op.run s = .ok a s') (happ : Applies d l s s') :
    Applies d l s (op.leave s) := by
  rw [leave, h]
  exact happ

theorem applies_of_error (h : op.run s = .error e s') (happ : Applies d l s s') :
    Applies d l s (op.leave s) := by
  rw [leave, h]
  exact happ

/-- A method of a dict gets the entries. -/
theorem runMethod_eq (hd : s.heap.Has d (.dict t)) (m : DictMethod) (args : List Handle) :
    Space.runMethod (.dict m) d args s = Space.dictMethod m d t args s := by
  rw [Space.runMethod, Space.get_bind_of_has hd]

/-- The report of a missing key is an error. -/
theorem keyNotFound_error {α : Type} (heap : Heap) (text : Handle → Query String) (key : Handle) :
    ∃ e, (Heap.keyNotFound text key : Query α) heap = .error e := by
  rcases h : text key heap with e | r
  · exact ⟨e, Heap.bind_of_error h⟩
  · exact ⟨_, Heap.bind_of_ok h⟩

section Steps

variable (i : s.Ordered) (hd : s.heap.Has d (.dict t))

include i hd

/-- Two operations put a value under a key. -/
theorem put_steps (hkey : s.Hashable key) (hv : s.heap.isLive value = true)
    (hrun : op.run s = ((fun _ => none) <$> Space.dictInsert d key value : Action _) s) :
    (∃ t t' s', op.run s = .ok none s' ∧ s.heap.Has d (.dict t) ∧ s'.heap.Has d (.dict t') ∧
      ∀ x ∈ t.toList, s.heap.agree key x.1 = true → (x.1, value) ∈ t'.toList) ∧
    Applies d [.put key value] s (op.leave s) := by
  obtain ⟨κ, k⟩ := i.keyed_of_hashable hkey
  obtain ⟨t', s', hs', happ, hd', hmem⟩ := Space.applies_insert i hd k hv
  have hok := hrun.trans (map_of_ok hs')
  refine ⟨⟨t, t', s', hok, hd, hd', fun x hx ha => ?_⟩, applies_of_ok hok happ⟩
  exact hmem x hx ((i.agree_iff k hd hx).1 ha)

theorem deleteItem_steps (k : s.heap.Keyed key κ) :
    (deleteItem d key).Ends s ∧ Applies d [.drop key] s ((deleteItem d key).leave s) := by
  obtain ⟨s', value?, hs', happ, hlookup, hsame⟩ := Space.applies_remove i hd k
  have hdelete : Space.deleteItem d key s = (Space.dictRemove d key >>= _) s :=
    Space.get_bind_of_has hd
  rw [bind_of_ok hs'] at hdelete
  rcases value? with _ | v
  · obtain rfl := hsame rfl
    obtain ⟨e, he⟩ := keyNotFound_error (α := Unit) s'.heap Heap.repr key
    have herror : (deleteItem d key).run s' = .error e s' :=
      map_of_error (hdelete.trans (Space.ask_of_error he))
    exact ⟨⟨none, hlookup, e, herror⟩, applies_of_error herror happ⟩
  · have hok : (deleteItem d key).run s = .ok none s' := map_of_ok hdelete
    exact ⟨⟨some v, hlookup, s', hok⟩, applies_of_ok hok happ⟩

/-- A pop is a removal, and then the default counts. -/
theorem pop_steps (k : s.heap.Keyed key κ) (default? : Option Handle) :
    (pop d key default?).Ends s ∧ Applies d [.drop key] s ((pop d key default?).leave s) := by
  obtain ⟨s', value?, hs', happ, hlookup, hsame⟩ := Space.applies_remove i hd k
  rcases default? with _ | w
  · have hargs : (liftM (Method.oneOrTwoArguments (.dict .pop) [key]) : Action _) s =
        .ok (key, none) s := rfl
    have hpop := (runMethod_eq hd .pop [key]).trans ((bind_of_ok hargs).trans (bind_of_ok hs'))
    rcases value? with _ | v
    · obtain rfl := hsame rfl
      obtain ⟨e, he⟩ := keyNotFound_error (α := Handle) s'.heap Heap.repr key
      have herror : (pop d key none).run s' = .error e s' :=
        map_of_error (hpop.trans (Space.ask_of_error he))
      exact ⟨⟨none, hlookup, e, herror⟩, applies_of_error herror happ⟩
    · have hok : (pop d key none).run s = .ok (some v) s' := map_of_ok hpop
      exact ⟨⟨some v, hlookup, s', hok⟩, applies_of_ok hok happ⟩
  · have hargs : (liftM (Method.oneOrTwoArguments (.dict .pop) [key, w]) : Action _) s =
        .ok (key, some w) s := rfl
    have hpop := (runMethod_eq hd .pop [key, w]).trans ((bind_of_ok hargs).trans (bind_of_ok hs'))
    have hok : (pop d key (some w)).run s = .ok (some (value?.getD w)) s' := by
      refine map_of_ok (hpop.trans ?_)
      cases value? <;> rfl
    refine ⟨⟨value?, hlookup, ?_⟩, applies_of_ok hok happ⟩
    cases value? <;> exact ⟨s', hok⟩

theorem clear_steps : (clear d).Ends s ∧ Applies d [.clear] s ((clear d).leave s) := by
  obtain ⟨s', hs', happ⟩ := Space.applies_clear i hd
  have hclear : Space.runMethod (.dict .clear) d [] s =
      (Space.updateDict d (fun _ => .empty) >>= fun _ => Space.nothing) s :=
    runMethod_eq hd .clear []
  rw [bind_of_ok hs'] at hclear
  have hok : (clear d).run s = .ok (some s'.noneValue) s' := map_of_ok hclear
  exact ⟨⟨_, s', hok⟩, applies_of_ok hok happ⟩

theorem update_steps {source : Handle} (hs : s.heap.isLive source = true)
    (h : ∀ pairs s₁, Space.pairsOf source s = .ok pairs s₁ → ∀ x ∈ pairs, s₁.Hashable x.1) :
    (update d source).Ends s ∧
      Applies d ((update d source).edits s) s ((update d source).leave s) := by
  have hupdate : Space.runMethod (.dict .update) d [source] s =
      (Space.dictUpdate d source >>= fun _ => Space.nothing) s := runMethod_eq hd .update [source]
  rcases Space.applies_dictUpdate i hd hs h with
    ⟨pairs, s₁, s', hread, hs', happ⟩ | ⟨e, s', hread, hs', happ⟩
  · rw [bind_of_ok hs'] at hupdate
    have hok : (update d source).run s = .ok (some s'.noneValue) s' := map_of_ok hupdate
    refine ⟨fun _ _ _ => ⟨_, s', hok⟩, applies_of_ok hok ?_⟩
    rw [edits, hread]
    exact happ
  · rw [bind_of_error hs'] at hupdate
    have herror : (update d source).run s = .error e s' := map_of_error hupdate
    refine ⟨fun pairs s₁ hok => ?_, applies_of_error herror ?_⟩
    · rw [hread] at hok
      cases hok
    · rw [edits, hread]
      exact happ

theorem copy_steps :
    ∃ h s', (copy d).run s = .ok (some h) s' ∧ s'.Ordered ∧ Heap.Kept s.heap s'.heap ∧
      s.heap.get? h = none ∧ s'.heap.Has h (.dict t) ∧
      (∀ v o, s.heap.Has v o → s'.heap.Has v o) ∧
      ∀ v o, s'.heap.Has v o → v = h ∧ o = .dict t ∨ s.heap.Has v o := by
  obtain ⟨h, old, heap, p, halloc⟩ := Trust.alloc_placed i.sound.roomy (.dict t)
  have hmethod : Space.runMethod (.dict .copy) d [] s = Space.alloc (.dict t) s :=
    runMethod_eq hd .copy []
  have hruns : orderedTrust.Runs s (Space.runMethod (.dict .copy) d []) :=
    Trust.runs_runMethod _ hd.1 (List.forall_mem_nil _)
  obtain ⟨i', hk⟩ := i.after hruns (hmethod.trans halloc)
  exact ⟨h, _, map_of_ok (hmethod.trans halloc), i', hk, p.get?_new, p.has_self,
    fun v o => p.has, fun v o => p.of_has⟩

end Steps

/-- A legal operation ends as it should, and it applies its edits to its dict, if it is no copy. -/
theorem steps (i : s.Ordered) (h : op.Legal s) :
    op.Ends s ∧ ((∀ d, op ≠ copy d) → Applies op.target (op.edits s) s (op.leave s)) := by
  cases op with
  | insert d key value =>
    obtain ⟨⟨t, hd⟩, hkey, hv⟩ := h
    have hrun : (insert d key value).run s =
        ((fun _ => none) <$> Space.dictInsert d key value : Action _) s := rfl
    obtain ⟨hends, happ⟩ := put_steps i hd hkey hv hrun
    exact ⟨hends, fun _ => happ⟩
  | setItem d key value =>
    obtain ⟨⟨t, hd⟩, hkey, hv⟩ := h
    have hset : Space.setItem d key value s = Space.dictInsert d key value s := by
      rw [Space.setItem, Space.get_bind_of_has hd]
    have hrun : (setItem d key value).run s =
        ((fun _ => none) <$> Space.dictInsert d key value : Action _) s := by
      simp only [run, Functor.map, EStateM.map, hset]
    obtain ⟨hends, happ⟩ := put_steps i hd hkey hv hrun
    exact ⟨hends, fun _ => happ⟩
  | remove d key =>
    obtain ⟨⟨t, hd⟩, hkey⟩ := h
    obtain ⟨κ, k⟩ := i.keyed_of_hashable hkey
    obtain ⟨s', value?, hs', happ, hlookup, -⟩ := Space.applies_remove i hd k
    exact ⟨⟨value?, s', hs', hlookup⟩, fun _ => applies_of_ok hs' happ⟩
  | deleteItem d key =>
    obtain ⟨⟨t, hd⟩, hkey⟩ := h
    obtain ⟨κ, k⟩ := i.keyed_of_hashable hkey
    exact (deleteItem_steps i hd k).imp_right fun happ _ => happ
  | pop d key default? =>
    obtain ⟨⟨t, hd⟩, hkey, -⟩ := h
    obtain ⟨κ, k⟩ := i.keyed_of_hashable hkey
    exact (pop_steps i hd k default?).imp_right fun happ _ => happ
  | clear d =>
    obtain ⟨t, hd⟩ := h
    exact (clear_steps i hd).imp_right fun happ _ => happ
  | update d source =>
    obtain ⟨⟨t, hd⟩, hs, h⟩ := h
    exact (update_steps i hd hs h).imp_right fun happ _ => happ
  | copy d =>
    obtain ⟨t, hd⟩ := h
    obtain ⟨h, s', hok, -, -, hnew, hh, -⟩ := copy_steps i hd
    exact ⟨⟨t, h, s', hok, hnew, hd, hh⟩, fun hcopy => absurd rfl (hcopy d)⟩

end DictOp

end ObjectSpace
