import ObjectSpace.Proofs.Value.TableKeys

/-!
# Tables in runs

**Theorem (`tables_orderly`).** In every state that a run reaches, no dict or set has an empty
bucket, and the size of each is the number of its entries. If its keys can be read and do not
contain themselves, every entry is in the bucket of the hash that its key has in this state, and no
two stored keys are equal.

Buckets and sizes are kept by every change, whatever the keys are (`Change.trim`). The rest is what
`Filed` says of keys as data, put in terms of hashing and comparing: these answer on grounded
values, and they answer by the key.
-/

namespace ObjectSpace

/-- A table as look-ups rely on it. -/
structure Table.Orderly {α : Type} (heap : Heap) (keyOf : α → Handle) (t : Table α) : Prop where
  buckets : ∀ b ∈ t.buckets.slots, b.2 ≠ #[]
  size : t.size = (t.buckets.slots.toList.map fun b => b.2.size).sum
  hashed : ∀ b ∈ t.buckets.slots, ∀ x ∈ b.2, Heap.hash (keyOf x) heap = .ok b.1
  apart : t.toList.Pairwise fun x y => Heap.equal (keyOf x) (keyOf y) heap = .ok false ∧
    Heap.equal (keyOf y) (keyOf x) heap = .ok false

namespace Object

/-- The keys of a dict and the members of a set. -/
def keys : Object → List Handle
  | dict t => t.toList.map (·.1)
  | set t => t.toList
  | _ => []

/-- A dict or a set is orderly. -/
def Orderly (heap : Heap) : Object → Prop
  | dict t => t.Orderly heap Prod.fst
  | set t => t.Orderly heap id
  | _ => True

end Object

theorem Legible.unequal {heap : Heap} {see : Handle → Option Object} (L : Legible heap see)
    {a b : Handle} {κ κ' : Key} {u u' : UInt64} (ga : Grounded see a) (gb : Grounded see b)
    (ha : keyAt heap see a = some κ) (hb : keyAt heap see b = some κ')
    (hu : κ.hash? = some u) (hu' : κ'.hash? = some u') (hne : κ ≠ κ') :
    Heap.equal a b heap = .ok false := by
  obtain ⟨r, hr⟩ := L.equality.total a b ga gb
  obtain ⟨l, -, hl⟩ := Heap.bind_eq_ok.1 hr
  have hiff := equal_iff_key L.shows ha hb hu hu' hl
  cases r with
  | false => exact hr
  | true => exact absurd (hiff.1 rfl) hne

/-- In a legible view, a table is orderly when it is trim and its keys are grounded. -/
theorem Legible.orderly {heap : Heap} {see : Handle → Option Object} {α : Type}
    {keyOf : α → Handle} {t : Table α} (L : Legible heap see) (trim : t.Trim)
    (f : Filed see (t.filings keyOf)) (g : ∀ x ∈ t.toList, Grounded see (keyOf x)) :
    t.Orderly heap keyOf := by
  refine ⟨trim.filled, trim.size_eq_sum, fun b hb x hx => ?_, ?_⟩
  · have hx := Table.mem_bucket.2 (Table.mem_entries_of_slot hb hx)
    have hm := Table.mem_of_mem_bucket hx
    obtain ⟨h', κ, -, hκ, hh', hhash⟩ := L.keyed f hm (g x hm)
    have hu := f.hashed (b.1, keyOf x) (Table.mem_filings.2 ⟨x, hx, rfl⟩) _ κ hκ
    obtain rfl : h' = b.1 := Option.some.inj (hh'.symm.trans hu)
    exact hhash
  · refine (List.pairwise_map.1 (L.nodup_keys f g)).imp_of_mem ?_
    intro x y hx hy hne
    obtain ⟨h, κ, -, hκ, hh, -⟩ := L.keyed f hx (g x hx)
    obtain ⟨h', κ', -, hκ', hh', -⟩ := L.keyed f hy (g y hy)
    have hdiffer : κ ≠ κ' := by
      rintro rfl
      exact hne (hκ.trans hκ'.symm)
    exact ⟨L.unequal (g x hx) (g y hy) hκ hκ' hh hh' hdiffer,
      L.unequal (g y hy) (g x hx) hκ' hκ hh' hh hdiffer.symm⟩

theorem Legible.orderly_object {heap : Heap} {see : Handle → Option Object}
    (L : Legible heap see) {v : Handle} {o : Object} (ho : see v = some o)
    (g : ∀ k ∈ o.keys, Grounded see k) : o.Orderly heap := by
  have hf := L.filed v o ho
  have ht := L.trim v o (L.shows v o ho)
  cases o with
  | dict t => exact L.orderly ht hf fun x hx => g x.1 (List.mem_map_of_mem hx)
  | set t => exact L.orderly ht hf fun x hx => g x hx
  | _ => trivial

theorem Object.mem_filings_of_keys {o : Object} {k : Handle} (hk : k ∈ o.keys) :
    ∃ e ∈ o.filings, e.2 = k := by
  cases o with
  | dict t =>
    obtain ⟨x, hx, rfl⟩ := List.mem_map.1 hk
    obtain ⟨h, hm⟩ := Table.mem_toList.1 hx
    exact ⟨(h, x.1), Table.mem_filings.2 ⟨x, Table.mem_bucket.2 hm, rfl⟩, rfl⟩
  | set t =>
    obtain ⟨h, hm⟩ := Table.mem_toList.1 hk
    exact ⟨(h, k), Table.mem_filings.2 ⟨k, Table.mem_bucket.2 hm, rfl⟩, rfl⟩
  | _ => cases hk

/-- **Tables in runs.** All dicts and sets are trim. One that can be read through a handle that is
not lost is orderly, if its keys are grounded, whatever issued handles the run used. In a run on
live handles those of live dicts and sets always are. -/
theorem tables_orderly {settings : Settings} {disk : Disk} {s : Space} :
    (∀ lost, Ran settings disk s lost → s.heap.TablesTrim ∧
      ∀ v o, seeKept lost s.heap v = some o →
        (∀ k ∈ o.keys, Grounded (seeKept lost s.heap) k) → o.Orderly s.heap) ∧
    (LiveRun settings disk s → s.heap.TablesTrim ∧
      ∀ v o, seeLive s.heap v = some o → o.Orderly s.heap) := by
  constructor
  · intro lost r
    exact ⟨r.legible.trim, fun v o ho g => r.legible.orderly_object ho g⟩
  · intro r
    refine ⟨r.legible.trim, fun v o ho => r.legible.orderly_object ho fun k hk => ?_⟩
    obtain ⟨e, he, rfl⟩ := Object.mem_filings_of_keys hk
    obtain ⟨κ, kk⟩ := (ordered_of_liveRun r).stored v o (seeLive_eq_some.1 ho) e he
    exact kk.grounded

/-! ## A dict with two keys -/

theorem keyed_nothing {heap : Heap} {v : Handle} (h : heap.Has v .nothing) :
    heap.Keyed v (.nothing v) :=
  ⟨⟨1, by rw [key?, seeLive_eq_some.2 h]; rfl⟩, _, rfl⟩

theorem keyed_bool {heap : Heap} {v : Handle} {b : Bool} (h : heap.Has v (.bool b)) :
    heap.Keyed v (.number (if b then 1 else 0)) :=
  ⟨⟨1, by rw [key?, seeLive_eq_some.2 h]; rfl⟩, _, rfl⟩

theorem keyed_int {heap : Heap} {v : Handle} {n : Int64} (h : heap.Has v (.int n)) :
    heap.Keyed v (.number n) :=
  ⟨⟨1, by rw [key?, seeLive_eq_some.2 h]; rfl⟩, _, rfl⟩

theorem leave_dictInsert {s : Space} (i : s.Ordered) {d key : Handle}
    {t : Table (Handle × Handle)} {κ : Key} (hd : s.heap.Has d (.dict t))
    (k : s.heap.Keyed key κ) (hnew : ∀ x ∈ t.toList, ¬ s.heap.Keyed x.1 κ) (value : Handle) :
    ∃ t', Space.Rewrites d t' s ((Turn.operation (.dictInsert d key value)).leave s) ∧
      ∀ x, x ∈ t'.toList ↔ x = (key, value) ∨ x ∈ t.toList := by
  obtain ⟨t', s', stored, hs', hr, kstored, hcases, hmem⟩ := Space.dictInsert_keyed i hd k value
  rw [Turn.leave, Turn.run, Operation.run, Space.leftBy_returned, hs']
  refine ⟨t', hr, fun x => (hmem x).trans ?_⟩
  rcases hcases with ⟨v, hv⟩ | ⟨rfl, -⟩
  · exact absurd kstored (hnew _ hv)
  · exact or_congr_right ⟨And.left, fun hx => ⟨hx, hnew x hx⟩⟩

theorem leave_newDict {s : Space} (hr : s.heap.Roomy) :
    ∃ d old, Arena.Placed s.heap (Object.dict .empty).sizeClass (.dict .empty) d old
      ((Turn.operation (.newDict [])).leave s).heap := by
  obtain ⟨d, old, heap, p, heq⟩ := Trust.alloc_placed hr (.dict .empty)
  refine ⟨d, old, ?_⟩
  rw [Turn.leave, Turn.run, Operation.run, Space.leftBy_returned, Space.newDict,
    Space.bind_of_ok heq]
  exact p

/-- A dict with None and True as its keys is orderly. -/
theorem tables_orderly_dict :
    ∃ s lost d t a b, Ran {} {} s lost ∧ LiveRun {} {} s ∧ s.heap.Has a .nothing ∧
      s.heap.Has b (.bool true) ∧ (∀ k, k ∈ (Object.dict t).keys ↔ k = a ∨ k = b) ∧
      seeKept lost s.heap d = some (.dict t) ∧ seeLive s.heap d = some (.dict t) ∧
      (∀ k ∈ (Object.dict t).keys, Grounded (seeKept lost s.heap) k) ∧
      (Object.dict t).Orderly s.heap := by
  obtain ⟨s₀, h₀⟩ := Space.create_ok {} rfl {}
  obtain ⟨n, -⟩ := Space.create_new h₀
  have i₀ := Space.create_sound h₀
  obtain ⟨d, old, p⟩ := leave_newDict i₀.roomy
  let make : Turn := .operation (.newDict [])
  let insert (k : Handle) : Turn := .operation (.dictInsert d k k)
  -- the objects behind the two keys and the dict, after each turn
  have a₁ : (make.leave s₀).heap.Has s₀.noneValue .nothing := p.has n.nothing
  have b₁ : (make.leave s₀).heap.Has s₀.trueValue (.bool true) := p.has (n.boolean true)
  have d₁ : (make.leave s₀).heap.Has d (.dict .empty) := p.has_self
  have hda := a₁.ne d₁ nofun
  have hdb := b₁.ne d₁ nofun
  have l₁ : LiveRun {} {} (make.leave s₀) := .turn make (.start h₀) nofun
  obtain ⟨t₂, r₂, ht₂⟩ :=
    leave_dictInsert (ordered_of_liveRun l₁) d₁ (keyed_nothing a₁) nofun s₀.noneValue
  have a₂ := (r₂.other hda).2 a₁
  have b₂ := (r₂.other hdb).2 b₁
  have d₂ := r₂.self
  have l₂ : LiveRun {} {} ((insert s₀.noneValue).leave (make.leave s₀)) :=
    .turn (insert s₀.noneValue) l₁ (by simp [Turn.handles, Operation.handles, insert, a₁.1, d₁.1])
  obtain ⟨t₃, r₃, ht₃⟩ :=
    leave_dictInsert (ordered_of_liveRun l₂) d₂ (keyed_bool b₂) (fun x hx kx => by
      obtain rfl : x = (s₀.noneValue, s₀.noneValue) := by simpa [ht₂] using hx
      cases kx.unique (keyed_nothing a₂)) s₀.trueValue
  have a₃ := (r₃.other hda).2 a₂
  have b₃ := (r₃.other hdb).2 b₂
  have d₃ := r₃.self
  have l₃ : LiveRun {} {} ((insert s₀.trueValue).leave _) :=
    .turn (insert s₀.trueValue) l₂ (by simp [Turn.handles, Operation.handles, insert, b₂.1, d₂.1])
  have k₁ := Ran.turn make (.start h₀) nofun
  have k₂ := Ran.turn (insert s₀.noneValue) k₁
    (by simp [Turn.handles, Operation.handles, insert, a₁.current, d₁.current])
  have k₃ := Ran.turn (insert s₀.trueValue) k₂
    (by simp [Turn.handles, Operation.handles, insert, b₂.current, d₂.current])
  have hkeys : ∀ k, k ∈ (Object.dict t₃).keys ↔ k = s₀.noneValue ∨ k = s₀.trueValue := by
    intro k
    simp [Object.keys, ht₃, ht₂, or_comm, eq_comm]
  have hseeA := seeKept_eq_some.2 ⟨not_lost _ (not_lost _ (not_lost make
    (Set.notMem_empty s₀.noneValue) (.inr a₁.current)) (.inr a₂.current)) (.inr a₃.current), a₃.2⟩
  have hseeB := seeKept_eq_some.2 ⟨not_lost _ (not_lost _ (not_lost make
    (Set.notMem_empty s₀.trueValue) (.inr b₁.current)) (.inr b₂.current)) (.inr b₃.current), b₃.2⟩
  have hseeD := seeKept_eq_some.2 ⟨not_lost _ (not_lost _ (not_lost make
    (Set.notMem_empty d) (.inr d₁.current)) (.inr d₂.current)) (.inr d₃.current), d₃.2⟩
  have hlive := seeLive_eq_some.2 d₃
  refine (fun hground => ⟨_, _, d, t₃, _, _, k₃, l₃, a₃, b₃, hkeys, hseeD, hlive, hground,
    (tables_orderly.1 _ k₃).2 d _ hseeD hground⟩) ?_
  intro k hk
  rcases (hkeys k).1 hk with rfl | rfl
  · exact .intro hseeA (by rintro _ ⟨⟩)
  · exact .intro hseeB (by rintro _ ⟨⟩)

end ObjectSpace
