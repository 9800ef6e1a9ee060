import ObjectSpace.Proofs.Value.Runs

/-!
# Keys of live values

A live value with a hash is `Keyed`: its key can be read through live handles. It stays so, with the
same key, for as long as it is live (`Keyed.later`), and its key decides what hashing and comparing
it give (`Keyed.hash`, `Keyed.equal`).

**Theorem (`stored_of_liveRun`).** In a run on live handles every key that a live dict or set has
stored is keyed. It was hashed when it came in, and nothing that hashing read has changed since.
-/

namespace ObjectSpace

open Heap (bind_eq_ok get_eq_ok)

/-! ## Reading keys -/

theorem key?_depth {see : Handle → Option Object} {n m : Nat} (hnm : n ≤ m) {v : Handle} {κ : Key}
    (h : key? see n v = some κ) : key? see m v = some κ := by
  induction n generalizing m v κ with
  | zero => cases h
  | succ n ih =>
    obtain ⟨m, rfl⟩ : ∃ k, m = k + 1 := ⟨m - 1, by omega⟩
    obtain ⟨o, ho, h⟩ := Option.bind_eq_some_iff.1 h
    exact Option.bind_eq_some_iff.2
      ⟨o, ho, Object.key?_mono (fun _ _ _ hk => ih (Nat.le_of_succ_le_succ hnm) hk) h⟩

theorem key?_unique {see : Handle → Option Object} {n m : Nat} {v : Handle} {κ κ' : Key}
    (h : key? see n v = some κ) (h' : key? see m v = some κ') : κ = κ' := by
  have hn := key?_depth (Nat.le_max_left n m) h
  rw [key?_depth (Nat.le_max_right n m) h'] at hn
  exact (Option.some.inj hn).symm

namespace Heap

/-- A live value has a key, and values with this key have a hash. -/
structure Keyed (heap : Heap) (v : Handle) (κ : Key) : Prop where
  reads : ∃ n, key? (seeLive heap) n v = some κ
  hashed : ∃ u, κ.hash? = some u

variable {a b heap : Heap} {v w : Handle} {κ κ' : Key} {u : UInt64}

theorem Keyed.live (k : Keyed heap v κ) : heap.isLive v = true := by
  obtain ⟨n, hn⟩ := k.reads
  cases n with
  | zero => cases hn
  | succ n =>
    obtain ⟨o, ho, -⟩ := Option.bind_eq_some_iff.1 hn
    exact (seeLive_eq_some.1 ho).1

theorem Keyed.unique (k : Keyed heap v κ) (k' : Keyed heap v κ') : κ = κ' := by
  obtain ⟨n, hn⟩ := k.reads
  obtain ⟨m, hm⟩ := k'.reads
  exact key?_unique hn hm

/-- A value whose key has a hash does not contain itself. -/
theorem Keyed.grounded (k : Keyed heap v κ) : Grounded (seeLive heap) v := by
  obtain ⟨⟨n, hn⟩, u, hu⟩ := k
  induction n generalizing v κ u with
  | zero => cases hn
  | succ n ih =>
    obtain ⟨o, ho, hn⟩ := Option.bind_eq_some_iff.1 hn
    refine .intro ho fun p hp => ?_
    cases o with
    | tuple items =>
      obtain ⟨ks, hks, rfl⟩ := Option.map_eq_some_iff.1 hn
      obtain ⟨k, hk, hpk⟩ := exists_of_mapM hks hp
      obtain ⟨x, hx⟩ := Key.hash?_of_tuple hu k hk
      exact ih hpk x hx
    | list | dict | set =>
      rw [← Option.some.inj hn] at hu
      cases hu
    | _ => cases hp

theorem Keyed.keyAt_eq (L : Legible heap (seeLive heap)) (k : Keyed heap v κ) :
    Legible.keyAt heap (seeLive heap) v = some κ := by
  obtain ⟨n, hn⟩ := k.reads
  obtain ⟨κ', hκ'⟩ := key?_of_within (k.grounded.within L.shows)
  rw [key?_unique hn hκ']
  exact hκ'

theorem Keyed.hash (L : Legible heap (seeLive heap)) (k : Keyed heap v κ)
    (hu : κ.hash? = some u) : Heap.hash v heap = .ok u :=
  bind_eq_ok.2 ⟨_, depth_eq_ok.2 rfl,
    hashWithin_of_key L.shows L.texts (k.keyAt_eq L) hu (Nat.le_succ _)⟩

theorem Keyed.equal (L : Legible heap (seeLive heap)) (k : Keyed heap v κ)
    (k' : Keyed heap w κ') :
    ∃ r, Heap.equal v w heap = .ok r ∧ (r = true ↔ κ = κ') := by
  obtain ⟨r, hr⟩ := L.equality.total v w k.grounded k'.grounded
  obtain ⟨l, -, hl⟩ := bind_eq_ok.1 hr
  obtain ⟨n, hn⟩ := k.reads
  obtain ⟨m, hm⟩ := k'.reads
  obtain ⟨u, hu⟩ := k.hashed
  obtain ⟨u', hu'⟩ := k'.hashed
  exact ⟨r, hr, equal_iff_key L.shows (key?_depth (Nat.le_max_left n m) hn)
    (key?_depth (Nat.le_max_right n m) hm) hu hu' hl⟩

/-! ## What has a key -/

theorem hash_items {n : Nat} {items : List Handle} {start h : Fnv}
    (hh : (items.foldlM (fun h x => return h.word (← hashWithin n x)) start : Query Fnv) heap =
      .ok h) : ∀ x ∈ items, ∃ u, hashWithin n x heap = .ok u := by
  induction items generalizing start with
  | nil => exact List.forall_mem_nil _
  | cons x items ih =>
    rw [List.foldlM_cons] at hh
    obtain ⟨f, hf, hh⟩ := bind_eq_ok.1 hh
    obtain ⟨u, hu, -⟩ := bind_eq_ok.1 hf
    exact List.forall_mem_cons.2 ⟨⟨u, hu⟩, ih hh⟩

/-- Where live values hold live values, what can be hashed has a key. -/
theorem key?_of_hashWithin {s : Space} (i : s.Sound) {n : Nat}
    (hv : s.heap.isLive v = true) (hh : hashWithin n v s.heap = .ok u) :
    ∃ κ, key? (seeLive s.heap) n v = some κ := by
  induction n generalizing v u with
  | zero => cases hh
  | succ n ih =>
    obtain ⟨o, ho, hlive⟩ := i.get? hv
    rw [hashWithin] at hh
    obtain ⟨o', ho', hh⟩ := bind_eq_ok.1 hh
    rw [get_eq_ok, ho, Option.some.injEq] at ho'
    subst ho'
    rw [key?, seeLive_eq_some.2 ⟨hv, ho⟩, Option.bind_some]
    cases o with
    | tuple items =>
      obtain ⟨h, hfold, -⟩ := bind_eq_ok.1 hh
      obtain ⟨ks, hks⟩ := mapM_of_forall (f := key? (seeLive s.heap) n) fun x hx => by
        obtain ⟨u, hu⟩ := hash_items hfold x hx
        exact ih (hlive x hx) hu
      exact ⟨.tuple ks, Option.map_eq_some_iff.2 ⟨ks, hks, rfl⟩⟩
    | _ => exact ⟨_, rfl⟩

/-- A live value with a hash is keyed, and it is the hash of its key. -/
theorem keyed_of_hash {s : Space} (i : s.Sound) (ht : s.heap.TextsHashed)
    (hv : s.heap.isLive v = true) (hh : Heap.hash v s.heap = .ok u) :
    ∃ κ, Keyed s.heap v κ ∧ κ.hash? = some u := by
  obtain ⟨n, -, hh⟩ := bind_eq_ok.1 hh
  obtain ⟨κ, hκ⟩ := key?_of_hashWithin i hv hh
  have hu := hash_key (fun v o h => (seeLive_eq_some.1 h).2) ht hκ hh
  exact ⟨κ, ⟨⟨n, hκ⟩, u, hu⟩, hu⟩

/-! ## Keys stay -/

/-- A key that is read in one state is read in another where the objects behind the value and its
parts are still live, perhaps evolved. -/
theorem key?_of_evolves {f : Handle → Prop} (hf : ∀ v o, seeLive a v = some o → f v →
      ∃ o', seeLive b v = some o' ∧ o.Evolves o' ∧ ∀ c ∈ o'.children, f c)
    {n : Nat} (hv : f v) (h : key? (seeLive a) n v = some κ) : key? (seeLive b) n v = some κ := by
  induction n generalizing v κ with
  | zero => cases h
  | succ n ih =>
    obtain ⟨o, ho, h⟩ := Option.bind_eq_some_iff.1 h
    obtain ⟨o', ho', he, hc⟩ := hf v o ho hv
    rw [← he.key?_eq] at h
    exact Option.bind_eq_some_iff.2 ⟨o', ho', Object.key?_mono (fun x hx _ hk => ih (hc x hx) hk) h⟩

theorem Kept.has (k : Kept a b) {o : Object} (h : a.Has v o) : ∃ o', b.Has v o' ∧ o.Evolves o' := by
  obtain ⟨x, hx, hxv⟩ := Arena.get?_eq_some.1 h.2
  rcases k v x hx with ⟨y, hy, -, hyv⟩ | ⟨hdead, -⟩
  · obtain ⟨o', ho', he⟩ := hyv o hxv
    exact ⟨o', ⟨k.live h.1, Arena.get?_eq_some.2 ⟨y, hy, ho'⟩⟩, he⟩
  · obtain ⟨z, hz, hlive⟩ := Arena.isLive_iff.1 h.1
    rw [hx, Option.some.injEq] at hz
    rw [hz, hlive] at hdead
    cases hdead

theorem Keyed.later (k : Keyed a v κ) (hab : Kept a b) : Keyed b v κ := by
  obtain ⟨n, hn⟩ := k.reads
  refine ⟨⟨n, key?_of_evolves (f := fun _ => True) (fun v o ho _ => ?_) trivial hn⟩, k.hashed⟩
  obtain ⟨o', ho', he⟩ := hab.has (seeLive_eq_some.1 ho)
  exact ⟨o', seeLive_eq_some.2 ho', he, fun _ _ => trivial⟩

/-- Of a value with a key, it is decided for good which key it has. -/
theorem Keyed.later_iff (k : Keyed a v κ') (hab : Kept a b) : Keyed b v κ ↔ Keyed a v κ := by
  constructor
  · intro h
    obtain rfl := (k.later hab).unique h
    exact k
  · exact fun h => h.later hab

theorem Keyed.collected {s s' : Space} (k : Keyed s.heap v κ) (i : s'.Sound)
    (hsame : Arena.SameObjects s.heap s'.heap) (hv : s'.heap.isLive v = true) :
    Keyed s'.heap v κ := by
  obtain ⟨n, hn⟩ := k.reads
  refine ⟨⟨n, key?_of_evolves (f := fun v => s'.heap.isLive v = true) (fun v o ho hv => ?_) hv hn⟩,
    k.hashed⟩
  obtain ⟨o', ho', hlive⟩ := i.get? hv
  have hget := (seeLive_eq_some.1 ho).2
  rw [← hsame.get?_eq, ho', Option.some.injEq] at hget
  exact ⟨o', seeLive_eq_some.2 ⟨hv, ho'⟩, hget ▸ .refl _, hlive⟩

/-! ## Stored keys -/

/-- Keys that live dicts and sets have stored are keyed. -/
def Stored (heap : Heap) : Prop :=
  ∀ v o, heap.Has v o → ∀ e ∈ o.filings, ∃ κ, Keyed heap e.2 κ

end Heap

namespace Space

/-- What holds between the steps of a run on live handles. -/
structure Ordered (s : Space) : Prop where
  sound : s.Sound
  tidy : liveSight.Tidy s.heap
  stored : s.heap.Stored

variable {s s' : Space}

theorem Ordered.legible (i : s.Ordered) : Legible s.heap (seeLive s.heap) :=
  ⟨fun _ _ h => (seeLive_eq_some.1 h).2, i.tidy.texts, i.tidy.trim, fun v o h =>
    i.tidy.filed v o (seeLive_eq_some.1 h).1 (seeLive_eq_some.1 h).2⟩

theorem Ordered.readable (i : s.Ordered) :
    Readable (seeLive s.heap) fun v => s.heap.isLive v = true := by
  intro v hv
  obtain ⟨o, ho, hlive⟩ := i.sound.get? hv
  refine ⟨o, seeLive_eq_some.2 ⟨hv, ho⟩, fun p hp => hlive p (o.parts_subset hp), fun e he => ?_⟩
  obtain ⟨κ, k⟩ := i.stored v o ⟨hv, ho⟩ e he
  exact k.grounded

theorem Ordered.keyed (i : s.Ordered) {v : Handle} {u : UInt64} (hv : s.heap.isLive v = true)
    (hh : Heap.hash v s.heap = .ok u) : ∃ κ, s.heap.Keyed v κ ∧ κ.hash? = some u :=
  Heap.keyed_of_hash i.sound i.tidy.texts hv hh

/-- A key comes into a table only after it has been hashed. -/
theorem Ordered.stored_step (i : s.Ordered)
    (st : Step (fun heap g => heap.isLive g = true) s s') : s'.heap.Stored := by
  have hlater : ∀ {v κ}, s.heap.Keyed v κ → ∃ κ, s'.heap.Keyed v κ := fun k =>
    ⟨_, k.later st.kept⟩
  intro v o' ho' e he
  rcases st.object ho'.2 with ⟨o, ho, hch, hnew⟩ | ⟨-, hp, -⟩
  · have hv := live_back st ho'.1 ho
    have hold : e ∈ o.filings → ∃ κ, s'.heap.Keyed e.2 κ := fun hm => by
      obtain ⟨κ, k⟩ := i.stored v o ⟨hv, ho⟩ e hm
      exact hlater k
    rcases hnew with rfl | hlive
    · exact hold he
    rcases hch.filings with hsub | ⟨hash, k, pre, post, h₁, h₂, -, hh, -⟩
    · exact hold (hsub.mem he)
    · rw [h₂, List.mem_append, List.mem_cons] at he
      rcases he with he | rfl | he
      · exact hold (h₁ ▸ List.mem_append_left _ he)
      · have hk := hlive k (Object.mem_children_of_filings (h₂ ▸
          List.mem_append_right _ List.mem_cons_self))
        obtain ⟨κ, hκ, -⟩ := i.keyed hk hh
        exact hlater hκ
      · exact hold (h₁ ▸ List.mem_append_right _ he)
  · rcases hp.filings with hnil | ⟨w, hw, hcopy⟩
    · rw [hnil] at he
      cases he
    · obtain ⟨κ, k⟩ := i.stored w o' ⟨hw, hcopy⟩ e he
      exact hlater k

end Space

/-- The trust in live handles under which stored keys are keyed. -/
def orderedTrust : Trust where
  holds := Space.Ordered
  ok heap h := heap.isLive h = true
  roomy i := i.sound.roomy
  root i := liveTrust.root i.sound
  child i := liveTrust.child i.sound
  step i st := ⟨i.sound.step st, i.tidy.step i.sound st, i.stored_step st⟩
  ok_step i := liveTrust.ok_step i.sound
  ok_placed i := liveTrust.ok_placed i.sound

theorem Space.Ordered.cleared {s s' : Space} (i : s.Ordered) (i' : s'.Sound)
    (hsame : Arena.SameObjects s.heap s'.heap)
    (hback : ∀ v, s'.heap.isLive v = true → s.heap.isLive v = true) : s'.Ordered := by
  have hsee : ∀ v o, s'.heap.Has v o → s.heap.Has v o := fun v o h =>
    ⟨hback v h.1, hsame.get?_eq v ▸ h.2⟩
  refine ⟨i', i.tidy.congr hsame.get?_eq (fun v _ hv _ => hback v hv) fun v o h =>
    seeLive_eq_some.2 (hsee v o (seeLive_eq_some.1 h)), fun v o ho e he => ?_⟩
  obtain ⟨κ, k⟩ := i.stored v o (hsee v o ho) e he
  obtain ⟨p, hp, hlive⟩ := i'.get? ho.1
  rw [ho.2, Option.some.injEq] at hp
  exact ⟨κ, k.collected i' hsame (hlive _ (hp ▸ Object.mem_children_of_filings he))⟩

theorem ordered_of_liveRun {settings : Settings} {disk : Disk} {s : Space}
    (r : LiveRun settings disk s) : s.Ordered := by
  induction r with
  | start h =>
    refine ⟨Space.create_sound h, tidy_of_liveRun (.start h), fun v o ho e he => ?_⟩
    obtain ⟨-, a, -, hf, hs⟩ := Space.create_new h
    rw [(hs.permanent hf ho.2).filings_eq] at he
    cases he
  | @turn s t r ht i =>
    by_cases hc : t.Collects
    · exact i.cleared (i.sound.leave t ht) (Turn.leave_collect hc s).1
        (i.sound.live_of_collect hc ht)
    · cases t with
      | operation op =>
        have hr := (Trust.runs_operation (T := orderedTrust) op ht).result i
        rw [Turn.leave, Turn.run]
        cases ho : op.run s with
        | ok hs s' | error e s' =>
          rw [ho] at hr
          exact hr.1.holds
      | collectNow | collectIfDue => exact absurd trivial hc

end ObjectSpace
