import ObjectSpace.Proofs.Execution.Enumerating
import ObjectSpace.Proofs.Execution.Ranges
import ObjectSpace.Proofs.Execution.Sets
import ObjectSpace.Proofs.Safety.Queries
import ObjectSpace.Proofs.Value.Hashing
import ObjectSpace.Proofs.Value.TableKeys

/-!
# Membership

**Theorem (`membership_scan`).** In every space of a run on live handles, `Heap.contains` tells for
a list, a tuple, a dict, a set, a range or a view of a dict whether iterating over it gives an
element that is equal to a value, if the value does not contain itself. It fails only where it
looks a key up in a dict or a set, and the key cannot be hashed.

What iterating gives may be new, such as the integers of a range and the pairs of a view, and the
scan takes place in a later space. There the old values are the same, and so whether two of them
resemble each other is the same (`Frame.shared`). In both spaces a comparison with a grounded value
answers, and the answer is that resemblance. So both sides come to the same question, which elements
resemble the value: a look-up finds the entry whose key has the same data, and a range contains the
integers that its terms are.
-/

namespace ObjectSpace

/-- An object that has elements to iterate over and to be looked for. -/
def Object.IsCollection : Object → Prop
  | .list _ | .tuple _ | .dict _ | .set _ | .range _ | .view .. => True
  | _ => False

namespace Space

/-- Advancing an iterator until it gives nothing gives these values. -/
inductive Yielded (it : Handle) : List Handle → Space → Space → Prop
  | done {s s' : Space} : next it s = .ok none s' → Yielded it [] s s'
  | item {s s' s'' : Space} {v : Handle} {l : List Handle} : next it s = .ok (some v) s' →
      Yielded it l s' s'' → Yielded it (v :: l) s s''

/-- The key that is looked up to tell whether a value is in an object. -/
inductive LooksUp (heap : Heap) (x : Handle) : Object → Handle → Prop
  | dict (t : Table (Handle × Handle)) : LooksUp heap x (.dict t) x
  | set (t : Table Handle) : LooksUp heap x (.set t) x
  | keys (d : Handle) : LooksUp heap x (.view d .keys) x
  | items {k v : Handle} (d : Handle) : heap.Has x (.tuple #[k, v]) →
      LooksUp heap x (.view d .items) k

variable {s s' : Space} {c d it v w x : Handle} {o : Object} {l : List Handle}
  {t : Table (Handle × Handle)} {κ κ' : Key}

/-! ## In a later space -/

/-- Live values stay, with their parts and the keys of what they have filed. -/
theorem Frame.shared (f : Frame [] s s') (i : s.Steady) :
    Shared s.heap s'.heap (seeLive s.heap) (seeLive s'.heap) fun v => s.heap.isLive v = true := by
  intro v hv
  obtain ⟨o, ho, hparts, -⟩ := i.ordered.readable v hv
  have hhas := seeLive_eq_some.1 ho
  refine ⟨o, ho, seeLive_eq_some.2 (f.keep hhas), hparts, fun e he => ?_⟩
  obtain ⟨κ, k⟩ := i.ordered.stored v o hhas e he
  rw [k.keyAt_eq i.ordered.legible, (k.later f.kept).keyAt_eq f.steady.ordered.legible]

theorem Frame.grounded (f : Frame [] s s') (g : Grounded (seeLive s.heap) v) :
    Grounded (seeLive s'.heap) v := by
  induction g with
  | intro ho _ ih => exact .intro (seeLive_eq_some.2 (f.keep (seeLive_eq_some.1 ho))) ih

theorem live_of_grounded (g : Grounded (seeLive s.heap) v) : s.heap.isLive v = true := by
  obtain ⟨ho, -⟩ := g
  exact (seeLive_eq_some.1 ho).1

theorem equal_answers (i : s.Ordered) (hv : s.heap.isLive v = true)
    (g : Grounded (seeLive s.heap) x) : ∃ r, Heap.equal v x s.heap = .ok r ∧
      (r = true ↔ s.heap.Resemble (seeLive s.heap) v x) := by
  obtain ⟨r, hr⟩ := i.legible.equal_grounded i.readable hv g
  exact ⟨r, hr, i.legible.equal_iff_resemble i.readable hv (live_of_grounded g) hr⟩

/-! ## Scanning -/

section Scans

variable {α : Type} {R : Handle → α → Prop} {M : α → Prop} {as : List α} {heap : Heap}

theorem yielded_of_drain {n : ℕ} {done items : Array Handle}
    (h : drain it done n s = .ok items s') :
    ∃ l, Yielded it l s s' ∧ items.toList = done.toList ++ l := by
  induction n generalizing s done with
  | zero => cases h
  | succ n ih =>
    rw [drain] at h
    cases hn : next it s with
    | error e s₁ =>
      rw [bind_of_error hn] at h
      cases h
    | ok v? s₁ =>
      rw [bind_of_ok hn] at h
      cases v? with
      | none =>
        obtain ⟨rfl, rfl⟩ := EStateM.Result.ok.inj h
        exact ⟨[], .done hn, (List.append_nil _).symm⟩
      | some v =>
        obtain ⟨l, hl, hitems⟩ := ih h
        exact ⟨v :: l, .item hn hl, by rw [hitems, Array.toList_push, List.append_assoc]; rfl⟩

/-- Values that stand for the elements of a list can be scanned for one, if comparing them answers
which elements are meant. -/
theorem scan_forall₂ (h : List.Forall₂ R l as) (hM : ∀ y, ∀ a ∈ as, R y a →
      ∃ r, Heap.equal y x heap = .ok r ∧ (r = true ↔ M a)) :
    (∀ y ∈ l, ∃ r, Heap.equal y x heap = .ok r) ∧
      ((∃ y ∈ l, Heap.equal y x heap = .ok true) ↔ ∃ a ∈ as, M a) := by
  induction h with
  | nil => exact ⟨List.forall_mem_nil _, by simp⟩
  | @cons y a l as hya _ ih =>
    obtain ⟨r, hr, hrM⟩ := hM y a List.mem_cons_self hya
    obtain ⟨hall, hany⟩ := ih fun y a ha => hM y a (List.mem_cons_of_mem _ ha)
    refine ⟨List.forall_mem_cons.2 ⟨⟨r, hr⟩, hall⟩, ?_⟩
    rw [List.exists_mem_cons_iff, List.exists_mem_cons_iff, hany, hr, Except.ok.injEq, hrM]

end Scans

/-- Iterating over `c` gives values that can all be compared with `x`, and whether one of them is
equal to it is what the proposition says. -/
def Scanned (s : Space) (c x : Handle) (Q : Prop) : Prop :=
  ∃ it s₁ items s₂, iter c s = .ok it s₁ ∧ Yielded it items s₁ s₂ ∧
    (∀ y ∈ items, ∃ r, Heap.equal y x s₂.heap = .ok r) ∧
    ((∃ y ∈ items, Heap.equal y x s₂.heap = .ok true) ↔ Q)

section

variable {α : Type} {shows : Heap → Handle → α → Prop} {as : List α} {M : α → Prop}
  (hM : ∀ s', Frame [] s s' → ∀ y, ∀ a ∈ as, shows s'.heap y a →
    ∃ r, Heap.equal y x s'.heap = .ok r ∧ (r = true ↔ M a))

include hM

theorem scanned_of_drain {s₁ s₂ : Space} {n : ℕ} {items : Array Handle}
    (hs₁ : iter c s = .ok it s₁) (hnew : s.heap.get? it = none) (f₁ : Frame [] s s₁)
    (hs₂ : drain it #[] n s₁ = .ok items s₂) (f₂ : Frame [it] s₁ s₂)
    (hitems : List.Forall₂ (shows s₂.heap) items.toList as) :
    s.Scanned c x (∃ a ∈ as, M a) := by
  obtain ⟨l, hl, hitems'⟩ := yielded_of_drain hs₂
  rw [List.nil_append] at hitems'
  have f := (f₁.trans f₂).of_new (List.forall_mem_singleton.2 hnew)
  exact ⟨it, s₁, l, s₂, hs₁, hl, scan_forall₂ (hitems' ▸ hitems) (hM s₂ f)⟩

theorem Enumerates.scanned (h : s.Enumerates shows c as) : s.Scanned c x (∃ a ∈ as, M a) := by
  obtain ⟨it, s₁, hs₁, hnew, f₁, -, items, s₂, hs₂, f₂, hitems⟩ := h
  exact scanned_of_drain hM hs₁ hnew f₁ (hs₂ _ (Nat.lt_succ_self _)) f₂ hitems

end

section Equal

variable (i : s.Steady) (f : Frame [] s s') (g : Grounded (seeLive s.heap) x)

include f g

theorem equal_new {p : Object} (hv : s'.heap.Has v p) (hx : s.heap.Has x o) {Q : Prop}
    (hsame : p = o → Q) (hQ : p.Resembles (Legible.keyAt s'.heap (seeLive s'.heap))
      (s'.heap.Resemble (seeLive s'.heap)) o ↔ Q) :
    ∃ r, Heap.equal v x s'.heap = .ok r ∧ (r = true ↔ Q) := by
  have hx' := f.keep hx
  obtain ⟨r, hr, hiff⟩ := equal_answers f.steady.ordered hv.1 (f.grounded g)
  refine ⟨r, hr, hiff.trans ?_⟩
  rw [Heap.resemble_iff (seeLive_eq_some.2 hv) (seeLive_eq_some.2 hx'), hQ, or_iff_right_iff_imp]
  rintro rfl
  exact hsame (hv.unique hx')

theorem equal_integer {n : ℤ} (hv : s'.heap.IsInteger v n) (hx : s.heap.Has x o) :
    ∃ r, Heap.equal v x s'.heap = .ok r ∧ (r = true ↔ ∃ j, o.asInt? = some j ∧ j.toInt = n) := by
  obtain ⟨w, rfl, hv⟩ := hv
  refine equal_new f g hv hx ?_ ⟨fun h => ?_, ?_⟩
  · rintro rfl
    exact ⟨w, rfl, rfl⟩
  · cases h with
    | number hw hj =>
      obtain rfl := Option.some.inj hw
      exact ⟨w, hj, rfl⟩
  · rintro ⟨j, hj, hjw⟩
    obtain rfl := Int64.toInt_inj.1 hjw
    exact .number rfl hj

include i

theorem equal_old (hv : s.heap.isLive v = true) : ∃ r, Heap.equal v x s'.heap = .ok r ∧
    (r = true ↔ s.heap.Resemble (seeLive s.heap) v x) := by
  obtain ⟨r, hr, hiff⟩ := equal_answers f.steady.ordered (f.live hv) (f.grounded g)
  exact ⟨r, hr, hiff.trans ((f.shared i).resemble_iff hv (live_of_grounded g))⟩

theorem equal_pair {a b : Handle} (hv : s'.heap.Has v (.tuple #[a, b])) (hx : s.heap.Has x o)
    (ha : s.heap.isLive a = true) (hb : s.heap.isLive b = true) :
    ∃ r, Heap.equal v x s'.heap = .ok r ∧ (r = true ↔ ∃ k w, o = .tuple #[k, w] ∧
      s.heap.Resemble (seeLive s.heap) a k ∧ s.heap.Resemble (seeLive s.heap) b w) := by
  have hpart : ∀ p ∈ o.parts, s.heap.isLive p = true := by
    obtain ⟨o', ho', hparts, -⟩ := i.ordered.readable x hx.1
    obtain rfl := hx.unique (seeLive_eq_some.1 ho')
    exact hparts
  have hiff : ∀ {p q}, s.heap.isLive p = true → q ∈ o.parts →
      (s'.heap.Resemble (seeLive s'.heap) p q ↔ s.heap.Resemble (seeLive s.heap) p q) :=
    fun hp hq => (f.shared i).resemble_iff hp (hpart _ hq)
  refine equal_new f g hv hx ?_ ⟨fun h => ?_, ?_⟩
  · rintro rfl
    exact ⟨a, b, rfl, .refl a, .refl b⟩
  · cases h with
    | @tuple _ ys h =>
      obtain ⟨l⟩ := ys
      obtain _ | ⟨hk, _ | ⟨hw, ⟨⟩⟩⟩ := h
      exact ⟨_, _, rfl, (hiff ha (by simp [Object.parts])).1 hk,
        (hiff hb (by simp [Object.parts])).1 hw⟩
    | number hw => cases hw
  · rintro ⟨k, w, rfl, hk, hw⟩
    exact .tuple (.cons ((hiff ha (by simp [Object.parts])).2 hk)
      (.cons ((hiff hb (by simp [Object.parts])).2 hw) .nil))

end Equal

/-! ## Looking up -/

/-- Asking whether `x` is in `c` tells whether the proposition holds, unless a key is looked up that
cannot be hashed. -/
def Answers (s : Space) (c x : Handle) (o : Object) (Q : Prop) : Prop :=
  (∃ found, Heap.contains c x s.heap = .ok found ∧ (found = true ↔ Q) ∧
    ∀ key, LooksUp s.heap x o key → ∃ u, Heap.hash key s.heap = .ok u) ∨
  ∃ key name, LooksUp s.heap x o key ∧
    Heap.hash key s.heap = .error (.fatal (.unhashable name)) ∧
    Heap.contains c x s.heap = .error (.fatal (.unhashable name))

section Ordered

variable (i : s.Ordered)

include i

theorem resemble_keyed (k : s.heap.Keyed v κ) (k' : s.heap.Keyed x κ') :
    s.heap.Resemble (seeLive s.heap) v x ↔ κ = κ' := by
  obtain ⟨r, hr, hkeys⟩ := k.equal i.legible k'
  rw [← hkeys, i.legible.equal_iff_resemble i.readable k.live k'.live hr]

/-- A grounded value has a key, or it cannot be hashed. -/
theorem keyed_or_unhashable (g : Grounded (seeLive s.heap) x) :
    (∃ κ u, s.heap.Keyed x κ ∧ Heap.hash x s.heap = .ok u) ∨
      ∃ name, Heap.hash x s.heap = .error (.fatal (.unhashable name)) := by
  rcases i.legible.hashFollows.answers x (i.sound.whole g) with ⟨u, hu⟩ | hname
  · obtain ⟨κ, k, -⟩ := i.keyed (live_of_grounded g) hu
    exact .inl ⟨κ, u, k, hu⟩
  · exact .inr hname

theorem indexOf?_answers (hl : ∀ y ∈ l, s.heap.isLive y = true) (g : Grounded (seeLive s.heap) x) :
    ∃ place, Heap.indexOf? l x s.heap = .ok place ∧
      (place.isSome = true ↔ ∃ y ∈ l, s.heap.Resemble (seeLive s.heap) y x) := by
  have htest : ∀ y ∈ l, ∃ r, Heap.equal y x s.heap = .ok r ∧
      (r = true ↔ s.heap.Resemble (seeLive s.heap) y x) := fun y hy =>
    equal_answers i (hl y hy) g
  rcases Heap.findPlace_ok (fun y hy => (htest y hy).imp fun _ h => h.1) with
    ⟨j, y, hj, hy, heq⟩ | ⟨hnone, hfalse⟩
  · obtain ⟨r, hr, hiff⟩ := htest y (List.mem_of_getElem? hy)
    obtain rfl := Except.ok.inj (hr.symm.trans heq)
    exact ⟨some j, hj, iff_of_true rfl ⟨y, List.mem_of_getElem? hy, hiff.1 rfl⟩⟩
  · refine ⟨none, hnone, iff_of_false Bool.false_ne_true ?_⟩
    rintro ⟨y, hy, hyx⟩
    obtain ⟨r, hr, hiff⟩ := htest y hy
    rw [hfalse y hy, hiff.2 hyx] at hr
    cases hr

section Dict

variable (hd : s.heap.Has d (.dict t))

include hd

theorem entry_keyed_iff {e : Handle × Handle} (he : e ∈ t.toList) (k : s.heap.Keyed x κ) :
    s.heap.Keyed e.1 κ ↔ s.heap.Resemble (seeLive s.heap) e.1 x := by
  obtain ⟨κ', k'⟩ := entry_keyed i hd he
  rw [resemble_keyed i k' k]
  constructor
  · exact k'.unique
  · rintro rfl
    exact k'

theorem entry_unique {e e' : Handle × Handle} (he : e ∈ t.toList) (he' : e' ∈ t.toList)
    (k : s.heap.Keyed e.1 κ) (k' : s.heap.Keyed e'.1 κ) : e = e' := by
  have hentered := i.readable.entered_of i.legible hd.1 (seeLive_eq_some.2 hd)
  refine List.inj_on_of_nodup_map (hentered.nodup_dict i.legible) he he' ?_
  rw [k.keyAt_eq i.legible, k'.keyAt_eq i.legible]

/-- Looking a value up finds the one entry whose key resembles it, or there is none. -/
theorem dictLookup_answers (k : s.heap.Keyed x κ) :
    (∃ e ∈ t.toList, Heap.dictLookup d x s.heap = .ok (some e.2) ∧
      ∀ e' ∈ t.toList, s.heap.Resemble (seeLive s.heap) e'.1 x ↔ e' = e) ∨
    Heap.dictLookup d x s.heap = .ok none ∧
      ∀ e ∈ t.toList, ¬ s.heap.Resemble (seeLive s.heap) e.1 x := by
  rcases dictLookup_keyed i hd k with ⟨e, he, ke, hfound⟩ | ⟨hnone, hne⟩
  · refine .inl ⟨e, he, hfound, fun e' he' => ⟨fun h => ?_, ?_⟩⟩
    · exact entry_unique i hd he' he ((entry_keyed_iff i hd he' k).2 h) ke
    · rintro rfl
      exact (entry_keyed_iff i hd he k).1 ke
  · exact .inr ⟨hnone, fun e he h => hne e he ((entry_keyed_iff i hd he k).2 h)⟩

end Dict

/-! ## The kinds of collections -/

theorem answers_sequence {items : Array Handle} (hc : s.heap.Has c o)
    (ho : o.asSequence? = some items) (g : Grounded (seeLive s.heap) x)
    (hl : ∀ y ∈ items.toList, s.heap.isLive y = true) :
    s.Answers c x o (∃ y ∈ items.toList, s.heap.Resemble (seeLive s.heap) y x) := by
  obtain ⟨place, hplace, hiff⟩ := indexOf?_answers i hl g
  refine .inl ⟨place.isSome, ?_, hiff, fun key hkey => ?_⟩
  · rw [Heap.contains, Heap.bind_of_ok (Heap.get_eq_ok.2 hc.2)]
    cases o with
    | list | tuple =>
      obtain rfl := Option.some.inj ho
      exact Heap.bind_of_ok hplace
    | _ => cases ho
  · cases hkey <;> cases ho

/-- A dict is looked up, and so is the dict of a view of its keys. -/
theorem answers_keys (hd : s.heap.Has d (.dict t)) (g : Grounded (seeLive s.heap) x)
    (hcontains : Heap.contains c x s.heap =
      (Heap.dictLookup d x >>= fun found => pure found.isSome) s.heap)
    (hkey : ∀ key, LooksUp s.heap x o key ↔ key = x) :
    s.Answers c x o (∃ e ∈ t.toList, s.heap.Resemble (seeLive s.heap) e.1 x) := by
  rcases keyed_or_unhashable i g with ⟨κ, u, k, hu⟩ | ⟨name, hname⟩
  · have hhash : ∀ key, LooksUp s.heap x o key → ∃ u, Heap.hash key s.heap = .ok u :=
      fun key h => ⟨u, (hkey key).1 h ▸ hu⟩
    rcases dictLookup_answers i hd k with ⟨e, he, hfound, hone⟩ | ⟨hnone, hne⟩
    · exact .inl ⟨true, hcontains.trans (Heap.bind_of_ok hfound),
        iff_of_true rfl ⟨e, he, (hone e he).2 rfl⟩, hhash⟩
    · exact .inl ⟨false, hcontains.trans (Heap.bind_of_ok hnone),
        iff_of_false Bool.false_ne_true fun ⟨e, he, h⟩ => hne e he h, hhash⟩
  · refine .inr ⟨x, name, (hkey x).2 rfl, hname, hcontains.trans (Heap.bind_of_error ?_)⟩
    exact Heap.bind_of_error (Heap.bind_of_error hname)

theorem answers_set {m : Table Handle} (hc : s.heap.Has c (.set m))
    (g : Grounded (seeLive s.heap) x) :
    s.Answers c x (.set m) (∃ y ∈ m.toList, s.heap.Resemble (seeLive s.heap) y x) := by
  have hcontains : Heap.contains c x s.heap = Heap.setContains c x s.heap := by
    rw [Heap.contains, Heap.bind_of_ok (Heap.get_eq_ok.2 hc.2)]
  rcases keyed_or_unhashable i g with ⟨κ, u, k, hu⟩ | ⟨name, hname⟩
  · obtain ⟨r, hr, hiff⟩ := setContains_keyed i hc k
    refine .inl ⟨r, hcontains.trans hr, hiff.trans ?_, ?_⟩
    · refine exists_congr fun y => and_congr_right fun hy => ?_
      obtain ⟨κ', k'⟩ := member_keyed i hc hy
      rw [resemble_keyed i k' k]
      constructor
      · exact k'.unique
      · rintro rfl
        exact k'
    · rintro key (_ | _)
      exact ⟨u, hu⟩
  · refine .inr ⟨x, name, .set m, hname, hcontains.trans ?_⟩
    exact Heap.bind_of_error (Heap.bind_of_error hname)

theorem answers_values (hc : s.heap.Has c (.view d .values)) (hd : s.heap.Has d (.dict t))
    (g : Grounded (seeLive s.heap) x) (hl : ∀ e ∈ t.toList, s.heap.isLive e.2 = true) :
    s.Answers c x (.view d .values)
      (∃ e ∈ t.toList, s.heap.Resemble (seeLive s.heap) e.2 x) := by
  obtain ⟨place, hplace, hiff⟩ := indexOf?_answers i (List.forall_mem_map.2 hl) g
  have hvalues : (∃ y ∈ t.toList.map (·.2), s.heap.Resemble (seeLive s.heap) y x) ↔
      ∃ e ∈ t.toList, s.heap.Resemble (seeLive s.heap) e.2 x := by
    simp only [List.mem_map, exists_exists_and_eq_and]
  refine .inl ⟨place.isSome, ?_, hiff.trans hvalues, ?_⟩
  · rw [Heap.contains, Heap.bind_of_ok (Heap.get_eq_ok.2 hc.2)]
    dsimp only
    rw [Heap.bind_of_ok (Heap.dict_eq_ok.2 hd.2)]
    exact Heap.bind_of_ok hplace
  · rintro key (_ | _)

omit i in
theorem answers_range {p : Progression} (hc : s.heap.Has c (.range p)) (hx : s.heap.Has x o) :
    s.Answers c x (.range p) (∃ n ∈ p.integers, ∃ j, o.asInt? = some j ∧ j.toInt = n) := by
  refine .inl ⟨_, contains_any hc hx, ?_, ?_⟩
  · rw [Option.any_eq_true]
    constructor
    · rintro ⟨j, hj, hp⟩
      exact ⟨_, Progression.contains_iff.1 hp, j, hj, rfl⟩
    · rintro ⟨_, hn, j, hj, rfl⟩
      exact ⟨j, hj, Progression.contains_iff.2 hn⟩
  · rintro key (_ | _)

/-- The first component of a pair is looked up in the dict, and the value that is found is compared
with the second one. -/
theorem answers_items (hc : s.heap.Has c (.view d .items)) (hd : s.heap.Has d (.dict t))
    (hx : s.heap.Has x o) (g : Grounded (seeLive s.heap) x)
    (hl : ∀ e ∈ t.toList, s.heap.isLive e.2 = true) :
    s.Answers c x (.view d .items) (∃ e ∈ t.toList, ∃ k w, o = .tuple #[k, w] ∧
      s.heap.Resemble (seeLive s.heap) e.1 k ∧ s.heap.Resemble (seeLive s.heap) e.2 w) := by
  by_cases hpair : ∃ k w, o = .tuple #[k, w]
  · obtain ⟨k, w, rfl⟩ := hpair
    have gk : Grounded (seeLive s.heap) k :=
      g.part ⟨_, seeLive_eq_some.2 hx, by simp [Object.parts]⟩
    have gw : Grounded (seeLive s.heap) w :=
      g.part ⟨_, seeLive_eq_some.2 hx, by simp [Object.parts]⟩
    obtain ⟨f, hcontains, hnone, hsome⟩ : ∃ f : Option Handle → Query Bool,
        Heap.contains c x s.heap = (Heap.dictLookup d k >>= f) s.heap ∧ f none = pure false ∧
          ∀ stored, f (some stored) = Heap.equal stored w := by
      rw [Heap.contains, Heap.bind_of_ok (Heap.get_eq_ok.2 hc.2)]
      dsimp only
      rw [Heap.bind_of_ok (Heap.get_eq_ok.2 hx.2)]
      exact ⟨_, rfl, rfl, fun _ => rfl⟩
    rcases keyed_or_unhashable i gk with ⟨κ, u, hk, hu⟩ | ⟨name, hname⟩
    · have hhash : ∀ key, LooksUp s.heap x (.view d .items) key →
          ∃ u, Heap.hash key s.heap = .ok u := by
        rintro key (_ | _ | _ | ⟨_, hx'⟩)
        cases hx.unique hx'
        exact ⟨u, hu⟩
      rcases dictLookup_answers i hd hk with ⟨e, he, hfound, hone⟩ | ⟨hmissing, hne⟩
      · obtain ⟨r, hr, hiff⟩ := equal_answers i (hl e he) gw
        refine .inl ⟨r, ?_, hiff.trans ⟨fun h => ?_, ?_⟩, hhash⟩
        · rw [hcontains, Heap.bind_of_ok hfound, hsome, hr]
        · exact ⟨e, he, k, w, rfl, (hone e he).2 rfl, h⟩
        · rintro ⟨e', he', k', w', hkw, hk', hw'⟩
          cases hkw
          exact (hone e' he').1 hk' ▸ hw'
      · refine .inl ⟨false, ?_, iff_of_false Bool.false_ne_true ?_, hhash⟩
        · rw [hcontains, Heap.bind_of_ok hmissing, hnone]
          rfl
        · rintro ⟨e, he, k', w', hkw, hk', -⟩
          cases hkw
          exact hne e he hk'
    · refine .inr ⟨k, name, .items d hx, hname, ?_⟩
      rw [hcontains]
      exact Heap.bind_of_error (Heap.bind_of_error (Heap.bind_of_error hname))
  · -- what is no pair is not looked up
    refine .inl ⟨false, ?_, iff_of_false Bool.false_ne_true ?_, ?_⟩
    · rw [Heap.contains, Heap.bind_of_ok (Heap.get_eq_ok.2 hc.2)]
      dsimp only
      rw [Heap.bind_of_ok (Heap.get_eq_ok.2 hx.2)]
      split
      · rename_i items
        rcases hitems : items.toList with _ | ⟨k, _ | ⟨w, _ | _⟩⟩
        · rfl
        · rfl
        · exact absurd ⟨k, w, congrArg Object.tuple (Array.toList_inj.1 hitems)⟩ hpair
        · rfl
      · rfl
    · rintro ⟨e, he, k, w, hkw, -⟩
      exact hpair ⟨k, w, hkw⟩
    · rintro key (_ | _ | _ | ⟨_, hx'⟩)
      exact absurd ⟨_, _, hx.unique hx'⟩ hpair

end Ordered

theorem LooksUp.unique {heap : Heap} {k k' : Handle} (h : LooksUp heap x o k)
    (h' : LooksUp heap x o k') : k = k' := by
  cases h with
  | dict | set | keys =>
    cases h'
    rfl
  | items d hx =>
    obtain _ | _ | _ | ⟨_, hx'⟩ := h'
    cases hx.unique hx'
    rfl

/-- Asking and scanning come to the same question. -/
theorem scanned_answers (i : s.Steady) (hc : s.heap.Has c o) (ho : o.IsCollection)
    (hview : ∀ d part, o = .view d part → ∃ t, s.heap.Has d (.dict t))
    (g : Grounded (seeLive s.heap) x) : ∃ Q, s.Scanned c x Q ∧ s.Answers c x o Q := by
  have hlive := live_of_grounded g
  obtain ⟨p, hp, -⟩ := i.ordered.readable x hlive
  have hx : s.heap.Has x p := seeLive_eq_some.1 hp
  cases o with
  | list items | tuple items =>
    have hitems : ∀ y ∈ items.toList, s.heap.isLive y = true := i.children hc
    refine ⟨_, (enumerates_sequence i hc rfl).scanned ?_,
      answers_sequence i.ordered hc rfl g hitems⟩
    rintro s' f y a ha rfl
    exact equal_old i f g (hitems y ha)
  | dict t =>
    have hkeys : s.Enumerates ViewPart.keys.Shows c t.toList := enumerates_entries i hc hc rfl
    refine ⟨_, hkeys.scanned ?_, answers_keys i.ordered hc g ?_ ?_⟩
    · rintro s' f y e he rfl
      exact equal_old i f g (live_entry i hc he).1
    · rw [Heap.contains, Heap.bind_of_ok (Heap.get_eq_ok.2 hc.2)]
    · exact fun key => ⟨by rintro (_ | _); rfl, by rintro rfl; exact .dict t⟩
  | set m =>
    refine ⟨_, (enumerates_set i hc).scanned ?_, answers_set i.ordered hc g⟩
    rintro s' f y a ha rfl
    exact equal_old i f g (i.children hc y ha)
  | range q =>
    obtain ⟨it, s₁, hs₁, hnew, f₁, hyields, -⟩ := drains_iter i hc
    obtain ⟨items, s₂, hs₂, f₂, hitems⟩ := drain_of_yields hyields #[]
    rw [Array.empty_append] at hs₂
    refine ⟨_, scanned_of_drain ?_ hs₁ hnew f₁ hs₂ f₂ hitems, answers_range hc hx⟩
    exact fun s' f y n _ hy => equal_integer f g hy hx
  | view d part =>
    obtain ⟨t, hd⟩ := hview d part rfl
    cases part with
    | keys =>
      refine ⟨_, (enumerates_entries i hd hc rfl).scanned ?_, answers_keys i.ordered hd g ?_ ?_⟩
      · rintro s' f y e he rfl
        exact equal_old i f g (live_entry i hd he).1
      · rw [Heap.contains, Heap.bind_of_ok (Heap.get_eq_ok.2 hc.2)]
      · exact fun key => ⟨by rintro (_ | _); rfl, by rintro rfl; exact .keys d⟩
    | values =>
      refine ⟨_, (enumerates_entries i hd hc rfl).scanned ?_,
        answers_values i.ordered hc hd g fun e he => (live_entry i hd he).2⟩
      rintro s' f y e he rfl
      exact equal_old i f g (live_entry i hd he).2
    | items =>
      refine ⟨_, (enumerates_entries i hd hc rfl).scanned ?_,
        answers_items i.ordered hc hd hx g fun e he => (live_entry i hd he).2⟩
      intro s' f y e he hy
      exact equal_pair i f g hy hx (live_entry i hd he).1 (live_entry i hd he).2
  | _ => exact ho.elim

end Space

open Space

variable {settings : Settings} {disk : Disk} {s : Space} {c x : Handle} {o : Object}

/-- **Membership.** Where asking for membership answers, it answers whether iterating gives a value
that is equal, for a value that does not contain itself; and comparing with what iterating gives
does answer. It does not where a key is looked up that cannot be hashed, and only there. -/
theorem membership_scan (r : LiveRun settings disk s) (hc : s.heap.Has c o)
    (ho : o.IsCollection) (hx : Grounded (seeLive s.heap) x) :
    (∃ it s₁ items s₂, iter c s = .ok it s₁ ∧ Yielded it items s₁ s₂ ∧
      (∀ y ∈ items, ∃ q, Heap.equal y x s₂.heap = .ok q) ∧
      ∀ found, Heap.contains c x s.heap = .ok found →
        (found = true ↔ ∃ y ∈ items, Heap.equal y x s₂.heap = .ok true)) ∧
    ∀ e, Heap.contains c x s.heap = .error e ↔ ∃ key name, LooksUp s.heap x o key ∧
      Heap.hash key s.heap = .error e ∧ e = .fatal (.unhashable name) := by
  have hview : ∀ d part, o = .view d part → ∃ t, s.heap.Has d (.dict t) := by
    rintro d part rfl
    obtain ⟨hd, t, ht⟩ := r.firm.dict_of_view hc.1 hc.2
    exact ⟨t, hd, ht⟩
  obtain ⟨Q, ⟨it, s₁, items, s₂, hiter, hitems, hall, hany⟩, hanswers⟩ :=
    scanned_answers (steady_of_liveRun r) hc ho hview hx
  rcases hanswers with ⟨found, hfound, hQ, hhash⟩ | ⟨key, name, hkey, hhash, hfails⟩
  · refine ⟨⟨it, s₁, items, s₂, hiter, hitems, hall, fun found' h => ?_⟩, fun e => ?_⟩
    · obtain rfl := Except.ok.inj (hfound.symm.trans h)
      exact hQ.trans hany.symm
    · rw [hfound]
      refine iff_of_false nofun ?_
      rintro ⟨key, name, hkey, he, -⟩
      obtain ⟨u, hu⟩ := hhash key hkey
      rw [hu] at he
      cases he
  · refine ⟨⟨it, s₁, items, s₂, hiter, hitems, hall, fun found h => ?_⟩, fun e => ?_⟩
    · rw [hfails] at h
      cases h
    · rw [hfails, Except.error.injEq]
      constructor
      · rintro rfl
        exact ⟨key, name, hkey, hhash, rfl⟩
      · rintro ⟨key', name', hkey', he, -⟩
        rw [hkey'.unique hkey, hhash] at he
        exact Except.error.inj he

/-- True is in a range with the term 1, and iterating over the range gives an integer that is equal
to it. -/
theorem membership_scan_true :
    ∃ s c, LiveRun {} {} s ∧ s.heap.Has c (.range ⟨0, 3, 1, by decide⟩) ∧
      s.heap.Has (s.truth true) (.bool true) ∧
      Heap.contains c (s.truth true) s.heap = .ok true ∧ ∃ it s₁ items s₂,
        iter c s = .ok it s₁ ∧ Yielded it items s₁ s₂ ∧
          ∃ y ∈ items, Heap.equal y (s.truth true) s₂.heap = .ok true := by
  obtain ⟨s₀, h₀⟩ := create_ok {} rfl {}
  let p : Progression := ⟨0, 3, 1, by decide⟩
  obtain ⟨c, s, r, -, hc⟩ := (LiveRun.start h₀).making (.newRange p.start p.stop p.step) rfl nofun
    (makes_newRange (steady_of_liveRun (LiveRun.start h₀)) p)
  have htrue := r.truth true
  have hin : Heap.contains c (s.truth true) s.heap = .ok true := by
    rw [contains_any hc htrue]
    decide
  have g : Grounded (seeLive s.heap) (s.truth true) := .intro (seeLive_eq_some.2 htrue) nofun
  obtain ⟨⟨it, s₁, items, s₂, hiter, hitems, -, hscan⟩, -⟩ := membership_scan r hc trivial g
  exact ⟨s, c, r, hc, htrue, hin, it, s₁, items, s₂, hiter, hitems, (hscan true hin).1 rfl⟩

end ObjectSpace
