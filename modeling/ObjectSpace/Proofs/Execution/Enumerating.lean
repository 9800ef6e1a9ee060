import ObjectSpace.Proofs.Execution.Iterating
import ObjectSpace.Proofs.Table.Cursors

/-!
# What iterating over a value gives

A new iterator over a value gives the elements of a list, one after the other, and then nothing
(`Enumerates`), as long as nothing changes in between. For a list, a tuple or a set these are its
items, and for a dict or a view of one they are what the view shows of the entries, in table order.

Every iterator stands at an index of the list that does not depend on how it got there: an index of
the sequence (`enumerates_sequence`), or one of the table (`enumerates_table`).
-/

namespace ObjectSpace

/-- What an iterator over a part of a dict gives for an entry, as a value. -/
def ViewPart.Shows (part : ViewPart) (heap : Heap) (v : Handle) (e : Handle × Handle) : Prop :=
  match part with
  | .keys => v = e.1
  | .values => v = e.2
  | .items => heap.Has v (.tuple #[e.1, e.2])

namespace Space

section

variable {α : Type} (shows : Heap → Handle → α → Prop) (it v : Handle)

/-- Advancing an iterator gives what shows the elements of a list, one after the other, whatever
else is done in between, as long as it touches nothing. And then it gives nothing. -/
def Gives : List α → Space → Prop
  | [], s => ∃ s', next it s = .ok none s' ∧ Frame [it] s s'
  | a :: as, s => ∃ v s', next it s = .ok (some v) s' ∧ Frame [it] s s' ∧ shows s'.heap v a ∧
    ∀ s'', Frame [] s' s'' → Gives as s''

/-- A new iterator over a value gives what shows the elements of a list, also when it is drained. -/
def Enumerates (s : Space) (as : List α) : Prop :=
  ∃ it s₁, iter v s = .ok it s₁ ∧ s.heap.get? it = none ∧ Frame [] s s₁ ∧ Gives shows it as s₁ ∧
    ∃ items s₂, (∀ n, as.length < n → drain it #[] n s₁ = .ok items s₂) ∧ Frame [it] s₁ s₂ ∧
      List.Forall₂ (shows s₂.heap) items.toList as

end

variable {α : Type} {shows : Heap → Handle → α → Prop} {s s' : Space} {it v w d u : Handle}
  {o : Object} {as : List α} {items : Array Handle} {t : Table (Handle × Handle)}
  {m : Table Handle} {part : ViewPart} {c : Cursor} {j : Nat}

/-- The indices of a list at which an iterator stands, and that advancing it leads from one to the
next. -/
structure Walks (shows : Heap → Handle → α → Prop) (it : Handle) (as : List α)
    (Stands : Nat → Space → Prop) : Prop where
  shown : ∀ {s s' v a}, Frame [it] s s' → shows s.heap v a → shows s'.heap v a
  quiet : ∀ {j s s'}, Stands j s → Frame [] s s' → Stands j s'
  step : ∀ {j s a}, Stands j s → as[j]? = some a → ∃ v s', next it s = .ok (some v) s' ∧
    Frame [it] s s' ∧ shows s'.heap v a ∧ Stands (j + 1) s'
  last : ∀ {s}, Stands as.length s → ∃ s', next it s = .ok none s' ∧ Frame [it] s s'

/-- An iterator gives a list from where it stands. -/
theorem Walks.gives {Stands : Nat → Space → Prop} (W : Walks shows it as Stands)
    (hj : j ≤ as.length) (h : Stands j s) : Gives shows it (as.drop j) s := by
  generalize hn : as.length - j = n
  induction n generalizing j s with
  | zero =>
    obtain rfl : j = as.length := by omega
    rw [List.drop_length]
    exact W.last h
  | succ n ih =>
    have hlt : j < as.length := by omega
    rw [List.drop_eq_getElem_cons hlt]
    obtain ⟨v, s', hs', f, hv, h'⟩ := W.step h (List.getElem?_eq_getElem hlt)
    exact ⟨v, s', hs', f, hv, fun s'' f' => ih hlt (W.quiet h' f') (by omega)⟩

theorem drain_of_gives (hshown : ∀ {s s' v a}, Frame [it] s s' → shows s.heap v a →
    shows s'.heap v a) (h : Gives shows it as s) :
    ∃ items s', (∀ n, as.length < n → drain it #[] n s = .ok items s') ∧ Frame [it] s s' ∧
      List.Forall₂ (shows s'.heap) items.toList as := by
  obtain ⟨items, s', hs', f, hitems⟩ := drain_of_left (L := Gives shows it) hshown
    (fun _ h => h) (fun a as s ⟨v, s', hs', f, hv, hrest⟩ =>
      ⟨v, s', hs', f, hv, hrest s' (.refl f.steady)⟩) h #[]
  refine ⟨items, s', fun n hn => ?_, f, hitems⟩
  rw [hs' n hn, Array.empty_append]

theorem Walks.enumerates {Stands : Nat → Space → Prop} (W : Walks shows it as Stands)
    (hit : iter v s = .ok it s') (hnew : s.heap.get? it = none) (f : Frame [] s s')
    (h : Stands 0 s') : s.Enumerates shows v as := by
  have hgives : Gives shows it as s' := W.gives (Nat.zero_le _) h
  exact ⟨it, s', hit, hnew, f, hgives, drain_of_gives W.shown hgives⟩

/-! ## Sequences -/

theorem enumerates_sequence (i : s.Steady) (hv : s.heap.Has v o)
    (ho : o.asSequence? = some items) : s.Enumerates (fun _ => Eq) v items.toList := by
  obtain ⟨kind, hc⟩ : ∃ kind, Cursor.ofObject? v o = some (.forward v kind 0) := by
    cases o with
    | list | tuple => exact ⟨_, rfl⟩
    | _ => cases ho
  have hfixed : ∀ {c}, o ≠ .iter c := by
    rintro c rfl
    cases ho
  obtain ⟨it, s₁, hs₁, hnew, f, hit⟩ := iter_frame i hv hc
  let Stands (j : Nat) (s : Space) : Prop :=
    s.Steady ∧ s.heap.Has v o ∧ s.heap.Has it (.iter (.forward v kind j))
  have W : Walks (fun _ => Eq) it items.toList Stands :=
    { shown := fun _ h => h
      quiet := fun ⟨_, hv, hit⟩ f => ⟨f.steady, f.keep hv, f.keep hit⟩
      step := fun {j s a} ⟨i, hv, hit⟩ ha => by
        obtain ⟨s', hs', f, hit'⟩ := next_element i hv ho hit (by simpa using ha)
        exact ⟨a, s', hs', f, rfl, f.steady, f.other hit hv hfixed, hit'⟩
      last := fun ⟨i, hv, hit⟩ => next_no_element i hv ho (by simpa using hit) }
  exact W.enumerates hs₁ hnew f ⟨f.steady, f.keep hv, hit⟩

/-! ## Tables -/

theorem emit_showEntry (i : s.Steady) {e : Handle × Handle} (h₁ : s.heap.isLive e.1 = true)
    (h₂ : s.heap.isLive e.2 = true) (part : ViewPart) :
    ∃ v s', emit (Cursor.showEntry part e.1 e.2) s = .ok v s' ∧ Frame [] s s' ∧
      part.Shows s'.heap v e := by
  cases part with
  | keys => exact ⟨e.1, s, rfl, .refl i, rfl⟩
  | values => exact ⟨e.2, s, rfl, .refl i, rfl⟩
  | items => exact newTuple_frame i (List.forall_mem_cons.2 ⟨h₁, List.forall_mem_singleton.2 h₂⟩)

theorem live_entry (i : s.Steady) (hd : s.heap.Has d (.dict t)) {e : Handle × Handle}
    (he : e ∈ t.toList) : s.heap.isLive e.1 = true ∧ s.heap.isLive e.2 = true := by
  have hok : steadyTrust.Ok s t := (Trust.ok_dictObject t).1 (i.children hd)
  rw [Trust.ok_table] at hok
  obtain ⟨h₁, h₂⟩ := (Trust.ok_pair _ _).1 (hok e he)
  exact ⟨h₁ _ List.mem_cons_self, h₂ _ List.mem_cons_self⟩

/-- The entry at the index where a cursor stands, and where the cursor behind it stands. -/
theorem standsAt_entry {β : Type} {t : Table β} {hash : UInt64} {place : Nat} {e : β}
    (hat : t.StandsAt hash place j) (he : t.toList[j]? = some e) :
    ∃ hash' place', t.nextFrom? hash place = some (hash', place', e) ∧
      t.StandsAt hash' (place' + 1) (j + 1) := by
  rw [Table.toList, List.getElem?_map, Option.map_eq_some_iff] at he
  obtain ⟨⟨hash', e⟩, he, rfl⟩ := he
  obtain ⟨place', hnext, hat'⟩ := Table.nextFrom?_standsAt hat he
  exact ⟨hash', place', hnext, hat'⟩

section Steps

variable {heap : Heap} {hash hash' : UInt64} {place place' : Nat}

theorem step_entries {e : Handle × Handle} (hd : heap.Has d (.dict t))
    (h : t.nextFrom? hash place = some (hash', place', e)) :
    (Cursor.entries d part hash place false).step heap =
      .ok (some (Cursor.showEntry part e.1 e.2), .entries d part hash' (place' + 1) false) := by
  rw [Cursor.step]
  show (Heap.dict d >>= _) heap = _
  rw [Heap.bind_of_ok (Heap.dict_eq_ok.2 hd.2), h]
  rfl

theorem step_entries_end (hd : heap.Has d (.dict t)) (h : t.nextFrom? hash place = none) :
    (Cursor.entries d part hash place false).step heap =
      .ok (none, .entries d part hash place true) := by
  rw [Cursor.step]
  show (Heap.dict d >>= _) heap = _
  rw [Heap.bind_of_ok (Heap.dict_eq_ok.2 hd.2), h]
  rfl

theorem step_members {x : Handle} (hu : heap.Has u (.set m))
    (h : m.nextFrom? hash place = some (hash', place', x)) :
    (Cursor.members u hash place false).step heap =
      .ok (some (.handle x), .members u hash' (place' + 1) false) := by
  rw [Cursor.step]
  show (Heap.set u >>= _) heap = _
  rw [Heap.bind_of_ok (Heap.set_eq_ok.2 hu.2), h]
  rfl

theorem step_members_end (hu : heap.Has u (.set m)) (h : m.nextFrom? hash place = none) :
    (Cursor.members u hash place false).step heap = .ok (none, .members u hash place true) := by
  rw [Cursor.step]
  show (Heap.set u >>= _) heap = _
  rw [Heap.bind_of_ok (Heap.set_eq_ok.2 hu.2), h]
  rfl

end Steps

/-- Iterating over what has a table gives what is shown of its entries, in table order. The cursor
has a position of the table, and its step is to the next entry. -/
theorem enumerates_table {t : Table α} {cursor : UInt64 → Nat → Bool → Cursor} {y : α → Yield}
    {p : Object} (i : s.Steady) (hv : s.heap.Has v o)
    (hc : Cursor.ofObject? v o = some (cursor 0 0 false)) (hd : s.heap.Has d p)
    (hp : ∀ c, p ≠ .iter c) (hplain : ∀ hash place, (cursor hash place false).Plain)
    (hstep : ∀ {heap : Heap} {hash place hash' place' x}, heap.Has d p →
      t.nextFrom? hash place = some (hash', place', x) →
      (cursor hash place false).step heap = .ok (some (y x), cursor hash' (place' + 1) false))
    (hend : ∀ {heap : Heap} {hash place}, heap.Has d p → t.nextFrom? hash place = none →
      (cursor hash place false).step heap = .ok (none, cursor hash place true))
    (hshown : ∀ {s s' : Space} {it v a}, Frame [it] s s' → shows s.heap v a → shows s'.heap v a)
    (hemit : ∀ {s s' : Space} {it x}, s.Steady → s.heap.Has d p → x ∈ t.toList →
      Frame [it] s s' → ∃ v s'', emit (y x) s' = .ok v s'' ∧ Frame [] s' s'' ∧ shows s''.heap v x) :
    s.Enumerates shows v t.toList := by
  obtain ⟨it, s₁, hs₁, hnew, f, hit⟩ := iter_frame i hv hc
  let Stands (j : Nat) (s : Space) : Prop := s.Steady ∧ s.heap.Has d p ∧
    ∃ hash place, s.heap.Has it (.iter (cursor hash place false)) ∧ t.StandsAt hash place j
  have W : Walks shows it t.toList Stands :=
    { shown := hshown
      quiet := fun ⟨_, hd, hash, place, hit, hat⟩ f =>
        ⟨f.steady, f.keep hd, hash, place, f.keep hit, hat⟩
      step := fun {j s x} ⟨i, hd, hash, place, hit, hat⟩ hx => by
        obtain ⟨hash', place', hnext, hat'⟩ := standsAt_entry hat hx
        obtain ⟨v, s', hs', f, hv, hit'⟩ := next_emit (R := fun heap v => shows heap v x) i hit
          (hplain hash place) (hstep hd hnext) fun _ f => hemit i hd (List.mem_of_getElem? hx) f
        exact ⟨v, s', hs', f, hv, f.steady, f.other hit hd (hp _), hash', place' + 1, hit', hat'⟩
      last := fun {s} ⟨i, hd, hash, place, hit, hat⟩ => by
        have hnone : t.nextFrom? hash place = none := Table.nextFrom?_end hat
        obtain ⟨s', hs', f, -⟩ := next_frame i hit (hplain hash place) (hend hd hnone)
        exact ⟨s', hs', f⟩ }
  exact W.enumerates hs₁ hnew f ⟨f.steady, f.keep hd, 0, 0, hit, t.standsAt_start⟩

/-- Iterating over a dict, or over a view of one, gives what is shown of its entries. -/
theorem enumerates_entries (i : s.Steady) (hd : s.heap.Has d (.dict t)) (hv : s.heap.Has v o)
    (hc : Cursor.ofObject? v o = some (.entries d part 0 0 false)) :
    s.Enumerates part.Shows v t.toList := by
  refine enumerates_table (y := fun e => Cursor.showEntry part e.1 e.2) i hv hc hd nofun
    (fun _ _ => trivial) step_entries step_entries_end (fun {s s' it v e} f h => ?_)
    fun {s s' it e} i hd he f => ?_
  · cases part with
    | keys | values => exact h
    | items => exact f.fixed h fun _ h => h
  · obtain ⟨hk, hw⟩ := live_entry i hd he
    exact emit_showEntry f.steady (f.live hk) (f.live hw) part

theorem enumerates_set (i : s.Steady) (hu : s.heap.Has u (.set m)) :
    s.Enumerates (fun _ => Eq) u m.toList :=
  enumerates_table (y := .handle) i hu rfl hu nofun (fun _ _ => trivial) step_members
    step_members_end (fun _ h => h) fun {_ s' _ x} _ _ _ f => ⟨x, s', rfl, .refl f.steady, rfl⟩

/-! ## Collecting -/

theorem collect_sequence (hv : s.heap.Has v o) (ho : o.asSequence? = some items) :
    collect v s = .ok items s := by
  rw [collect, get_bind_of_has hv]
  cases o with
  | list | tuple => exact congrArg (EStateM.Result.ok · s) (Option.some.inj ho)
  | _ => cases ho

theorem collect_set (hu : s.heap.Has u (.set m)) : collect u s = .ok m.toList.toArray s := by
  rw [collect, get_bind_of_has hu]
  rfl

end Space

end ObjectSpace
