import ObjectSpace.Proofs.Run.Step
import ObjectSpace.Proofs.Value.Content

/-!
# Keys

The key of a value is what hashing and comparing see of it, as plain data: a number for integers
and Booleans, the text of a text whether its hash is kept or not, the keys of the items of a tuple,
and the handle of what is equal only to itself. All values that have no hash share one key.

**What a key is good for.** The hash is a function of the key (`hash_key`), and values with a hash
are equal when their keys are (`equal_iff_key`). And the key of a value never changes, for it is
made of the parts of an object that stay (`Object.Evolves`).

**Views** (`see`). Keys are read through a view of the heap, which may show less than the heap:
the handles that are trusted to name what they were issued for.
-/

namespace ObjectSpace

/-- What hashing and comparing see of a value. -/
inductive Key where
  | nothing (v : Handle)
  | number (n : Int64)
  | text (s : String)
  | bytes (bs : Array UInt8)
  | tuple (items : List Key)
  | self (v : Handle)
  | unhashable

namespace Key

mutual

/-- The hash of all values with a key. -/
def hash? : Key → Option UInt64
  | nothing _ => some (Fnv.hashText "None")
  | number n => some n.toUInt64
  | text s => some (Fnv.hashText s)
  | bytes bs => some (Fnv.hash bs.toList)
  | tuple items => (hashItems Fnv.start items).map (·.state)
  | self v => some v.hash
  | unhashable => none

/-- The hash of a sequence of keys, item by item. -/
def hashItems (h : Fnv) : List Key → Option Fnv
  | [] => some h
  | κ :: κs => do hashItems (h.word (← κ.hash?)) κs

end

end Key

/-- The key of an object behind `v`, given the keys of its parts. -/
def Object.key? (part : Handle → Option Key) (v : Handle) : Object → Option Key
  | .nothing => some (.nothing v)
  | .bool b => some (.number (if b then 1 else 0))
  | .int n => some (.number n)
  | .str s _ => some (.text s)
  | .bytes bs => some (.bytes bs)
  | .tuple items => (items.toList.mapM part).map .tuple
  | .type _ | .userClass .. | .function .. => some (.self v)
  | _ => some .unhashable

/-- The key of a value that is nested at most the given depth. -/
def key? (see : Handle → Option Object) : Nat → Handle → Option Key
  | 0, _ => none
  | n + 1, v => (see v).bind (Object.key? (key? see n) v)

/-! ## The key of a tuple -/

section Items

variable {β : Type} {f g : Handle → Option β} {l : List Handle}

theorem mapM_eq_some {ks : List β} :
    l.mapM f = some ks ↔ List.Forall₂ (fun x k => f x = some k) l ks := by
  induction l generalizing ks with
  | nil =>
    rw [List.mapM_nil, List.forall₂_nil_left_iff]
    simp [eq_comm]
  | cons x l ih =>
    rw [List.mapM_cons]
    constructor
    · intro h
      obtain ⟨k, hk, h⟩ := Option.bind_eq_some_iff.1 h
      obtain ⟨ks', hks, h⟩ := Option.bind_eq_some_iff.1 h
      obtain rfl : k :: ks' = ks := Option.some.inj h
      exact .cons hk (ih.1 hks)
    · rintro (_ | ⟨hk, h⟩)
      simp [hk, ih.2 h]

theorem exists_of_mapM {ks : List β} (h : l.mapM f = some ks) {x : Handle} (hx : x ∈ l) :
    ∃ k ∈ ks, f x = some k := by
  rw [mapM_eq_some] at h
  induction h with
  | nil => cases hx
  | cons hk _ ih =>
    rcases List.mem_cons.1 hx with rfl | hx
    · exact ⟨_, List.mem_cons_self, hk⟩
    · obtain ⟨k, hm, hk⟩ := ih hx
      exact ⟨k, List.mem_cons_of_mem _ hm, hk⟩

theorem mapM_of_forall (h : ∀ x ∈ l, ∃ k, f x = some k) : ∃ ks, l.mapM f = some ks := by
  induction l with
  | nil => exact ⟨[], rfl⟩
  | cons x l ih =>
    rw [List.forall_mem_cons] at h
    obtain ⟨k, hk⟩ := h.1
    obtain ⟨ks, hks⟩ := ih h.2
    exact ⟨k :: ks, mapM_eq_some.2 (.cons hk (mapM_eq_some.1 hks))⟩

theorem mapM_mono {ks : List β} (hfg : ∀ x ∈ l, ∀ k, f x = some k → g x = some k)
    (h : l.mapM f = some ks) : l.mapM g = some ks := by
  rw [mapM_eq_some] at h ⊢
  induction h with
  | nil => exact .nil
  | cons hk _ ih =>
    rw [List.forall_mem_cons] at hfg
    exact .cons (hfg.1 _ hk) (ih hfg.2)

end Items

theorem Object.key?_mono {f g : Handle → Option Key} {v : Handle} {o : Object} {κ : Key}
    (hfg : ∀ x ∈ o.children, ∀ k, f x = some k → g x = some k) (h : o.key? f v = some κ) :
    o.key? g v = some κ := by
  cases o with
  | tuple items =>
    obtain ⟨ks, hks, rfl⟩ := Option.map_eq_some_iff.1 h
    exact Option.map_eq_some_iff.2 ⟨ks, mapM_mono hfg hks, rfl⟩
  | _ => exact h

/-- A view that shows more shows the same keys. -/
theorem key?_of_see {see see' : Handle → Option Object}
    (hsee : ∀ v o, see' v = some o → see v = some o) {n : Nat} {v : Handle} {κ : Key}
    (h : key? see' n v = some κ) : key? see n v = some κ := by
  induction n generalizing v κ with
  | zero => cases h
  | succ n ih =>
    obtain ⟨o, ho, h⟩ := Option.bind_eq_some_iff.1 h
    exact Option.bind_eq_some_iff.2
      ⟨o, hsee v o ho, Object.key?_mono (fun _ _ _ hk => ih hk) h⟩

theorem Object.Evolves.key?_eq {o o' : Object} (e : o.Evolves o') (f : Handle → Option Key)
    (v : Handle) : o'.key? f v = o.key? f v := by
  cases e.evolution <;> rfl

/-! ## Hashes -/

/-- A view of a heap: it shows what the heap holds, but not all of it. -/
def Shows (heap : Heap) (see : Handle → Option Object) : Prop :=
  ∀ v o, see v = some o → heap.get? v = some o

/-- Texts that carry a hash carry their own. -/
def Heap.TextsHashed (heap : Heap) : Prop :=
  ∀ v s x, heap.get? v = some (.str s (some x)) → x = Fnv.hashText s

section Hash

variable {heap : Heap} {see : Handle → Option Object} {n m : Nat} {v : Handle} {κ : Key}
  {hash : UInt64}

/-- Hashing the items of a tuple gives what their keys give. -/
theorem hashItems_eq {items : List Handle} {ks : List Key} {start h : Fnv}
    (hk : List.Forall₂ (fun x k => key? see n x = some k) items ks)
    (ih : ∀ x ∈ items, ∀ k u, key? see n x = some k → k.hash? = some u →
      Heap.hashWithin m x heap = .ok u)
    (hh : Key.hashItems start ks = some h) :
    (items.foldlM (fun h x => return h.word (← Heap.hashWithin m x)) start : Query Fnv) heap =
      .ok h := by
  induction hk generalizing start with
  | nil =>
    obtain rfl : start = h := by simpa [Key.hashItems] using hh
    rfl
  | cons hx _ ih' =>
    rw [List.forall_mem_cons] at ih
    rw [Key.hashItems] at hh
    obtain ⟨u, hu, hh⟩ := Option.bind_eq_some_iff.1 hh
    rw [List.foldlM_cons]
    exact Heap.bind_eq_ok.2 ⟨_, Heap.bind_eq_ok.2 ⟨u, ih.1 _ u hx hu, rfl⟩, ih' ih.2 hh⟩

/-- A value whose key has a hash has that hash. -/
theorem hashWithin_of_key (hs : Shows heap see) (ht : heap.TextsHashed)
    (hk : key? see n v = some κ) (hh : κ.hash? = some hash) (hnm : n ≤ m) :
    Heap.hashWithin m v heap = .ok hash := by
  induction n generalizing m v κ hash with
  | zero => cases hk
  | succ n ih =>
    obtain ⟨m, rfl⟩ : ∃ k, m = k + 1 := ⟨m - 1, by omega⟩
    obtain ⟨o, ho, hk⟩ := Option.bind_eq_some_iff.1 hk
    have hget := hs v o ho
    rw [Heap.hashWithin]
    refine Heap.bind_eq_ok.2 ⟨o, Heap.get_eq_ok.2 hget, ?_⟩
    cases o with
    | tuple items =>
      obtain ⟨ks, hks, rfl⟩ := Option.map_eq_some_iff.1 hk
      rw [Key.hash?] at hh
      obtain ⟨h, hitems, rfl⟩ := Option.map_eq_some_iff.1 hh
      have hfold := hashItems_eq (m := m) (mapM_eq_some.1 hks)
        (fun x _ k u hx hu => ih hx hu (Nat.le_of_succ_le_succ hnm)) hitems
      exact Heap.bind_eq_ok.2 ⟨h, hfold, rfl⟩
    | str s hash? =>
      obtain rfl := Option.some.inj hk
      rw [Key.hash?, Option.some.injEq] at hh
      cases hash? with
      | none => exact congrArg Except.ok hh
      | some x =>
        rw [ht v s x hget]
        exact congrArg Except.ok hh
    | bool b =>
      obtain rfl := Option.some.inj hk
      rw [Key.hash?, Option.some.injEq] at hh
      subst hh
      cases b <;> rfl
    | nothing | int | bytes | type | userClass | function =>
      obtain rfl := Option.some.inj hk
      rw [Key.hash?, Option.some.injEq] at hh
      exact congrArg Except.ok hh
    | _ =>
      obtain rfl := Option.some.inj hk
      cases hh

theorem hashItems_of_eq {items : List Handle} {ks : List Key} {start h : Fnv}
    (hk : List.Forall₂ (fun x k => key? see n x = some k) items ks)
    (ih : ∀ x ∈ items, ∀ k u, key? see n x = some k → Heap.hashWithin m x heap = .ok u →
      k.hash? = some u)
    (hh : (items.foldlM (fun h x => return h.word (← Heap.hashWithin m x)) start : Query Fnv)
      heap = .ok h) : Key.hashItems start ks = some h := by
  induction hk generalizing start with
  | nil =>
    obtain rfl : start = h := by simpa using hh
    rfl
  | cons hx _ ih' =>
    rw [List.forall_mem_cons] at ih
    rw [List.foldlM_cons] at hh
    obtain ⟨f, hf, hh⟩ := Heap.bind_eq_ok.1 hh
    obtain ⟨u, hu, hf⟩ := Heap.bind_eq_ok.1 hf
    obtain rfl := Heap.pure_eq_ok.1 hf
    rw [Key.hashItems, ih.1 _ u hx hu]
    exact ih' ih.2 hh

/-- The hash of a value is the hash of its key. -/
theorem hash_key (hs : Shows heap see) (ht : heap.TextsHashed) (hk : key? see n v = some κ)
    (hh : Heap.hashWithin m v heap = .ok hash) : κ.hash? = some hash := by
  induction m generalizing n v κ hash with
  | zero => cases hh
  | succ m ih =>
    obtain ⟨n, rfl⟩ : ∃ k, n = k + 1 := by
      cases n with
      | zero => cases hk
      | succ n => exact ⟨n, rfl⟩
    obtain ⟨o, ho, hk⟩ := Option.bind_eq_some_iff.1 hk
    have hget := hs v o ho
    rw [Heap.hashWithin] at hh
    obtain ⟨o', ho', hh⟩ := Heap.bind_eq_ok.1 hh
    rw [Heap.get_eq_ok, hget, Option.some.injEq] at ho'
    subst ho'
    cases o with
    | tuple items =>
      obtain ⟨ks, hks, rfl⟩ := Option.map_eq_some_iff.1 hk
      obtain ⟨h, hfold, hh⟩ := Heap.bind_eq_ok.1 hh
      obtain rfl := Heap.pure_eq_ok.1 hh
      rw [Key.hash?, hashItems_of_eq (mapM_eq_some.1 hks) (fun x _ k u hx hu => ih hx hu) hfold]
      rfl
    | str s hash? =>
      obtain rfl := Option.some.inj hk
      cases hash? with
      | none => exact congrArg some (Heap.pure_eq_ok.1 hh)
      | some x =>
        obtain rfl := Heap.pure_eq_ok.1 hh
        exact congrArg some (ht v s x hget).symm
    | bool b =>
      obtain rfl := Option.some.inj hk
      obtain rfl := Heap.pure_eq_ok.1 hh
      cases b <;> rfl
    | nothing | int | bytes | type | userClass | function =>
      obtain rfl := Option.some.inj hk
      exact congrArg some (Heap.pure_eq_ok.1 hh)
    | _ =>
      obtain ⟨t, -, hh⟩ := Heap.bind_eq_ok.1 hh
      cases hh

end Hash

/-! ## Equality -/

/-- The objects with a key, given the keys of their parts. -/
inductive Object.HasKey (part : Handle → Option Key) (v : Handle) : Object → Key → Prop
  | nothing : HasKey part v .nothing (.nothing v)
  | number {o : Object} {n : Int64} : o.asInt? = some n → HasKey part v o (.number n)
  | text (s : String) (hash? : Option UInt64) : HasKey part v (.str s hash?) (.text s)
  | bytes (bs : Array UInt8) : HasKey part v (.bytes bs) (.bytes bs)
  | tuple {items : Array Handle} {ks : List Key} :
      List.Forall₂ (fun x k => part x = some k) items.toList ks →
        HasKey part v (.tuple items) (.tuple ks)
  | self (o : Object) : HasKey part v o (.self v)
  | unhashable (o : Object) : HasKey part v o .unhashable

namespace Object

variable {o : Object} {f : Handle → Option Key} {v : Handle} {κ : Key}

theorem hasKey_of_key? (h : o.key? f v = some κ) : o.HasKey f v κ := by
  cases o with
  | nothing =>
    obtain rfl := Option.some.inj h
    exact .nothing
  | bool | int =>
    obtain rfl := Option.some.inj h
    exact .number rfl
  | str s hash? =>
    obtain rfl := Option.some.inj h
    exact .text s hash?
  | bytes bs =>
    obtain rfl := Option.some.inj h
    exact .bytes bs
  | tuple items =>
    obtain ⟨ks, hks, rfl⟩ := Option.map_eq_some_iff.1 h
    exact .tuple (mapM_eq_some.1 hks)
  | type | userClass | function =>
    obtain rfl := Option.some.inj h
    exact .self _
  | _ =>
    obtain rfl := Option.some.inj h
    exact .unhashable _

theorem of_key?_nothing {w : Handle} (h : o.key? f v = some (.nothing w)) : v = w := by
  cases hasKey_of_key? h with
  | nothing => rfl

theorem of_key?_self {w : Handle} (h : o.key? f v = some (.self w)) : v = w := by
  cases hasKey_of_key? h with
  | self => rfl

theorem asInt?_of_key? {n : Int64} (h : o.key? f v = some (.number n)) : o.asInt? = some n := by
  cases hasKey_of_key? h with
  | number h => exact h

theorem of_key?_text {s : String} (h : o.key? f v = some (.text s)) : ∃ x, o = .str s x := by
  cases hasKey_of_key? h with
  | text _ x => exact ⟨x, rfl⟩

theorem of_key?_bytes {bs : Array UInt8} (h : o.key? f v = some (.bytes bs)) : o = .bytes bs := by
  cases hasKey_of_key? h with
  | bytes => rfl

theorem of_key?_tuple {ks : List Key} (h : o.key? f v = some (.tuple ks)) :
    ∃ items, o = .tuple items ∧ List.Forall₂ (fun x k => f x = some k) items.toList ks := by
  cases hasKey_of_key? h with
  | tuple hks => exact ⟨_, rfl, hks⟩

theorem key?_of_asInt? {n : Int64} (h : o.asInt? = some n) : o.key? f v = some (.number n) := by
  cases o with
  | bool | int =>
    obtain rfl := Option.some.inj h
    rfl
  | _ => cases h

end Object

theorem Key.hash?_of_hashItems {ks : List Key} {start h : Fnv}
    (hh : hashItems start ks = some h) : ∀ k ∈ ks, ∃ u, k.hash? = some u := by
  induction ks generalizing start with
  | nil => exact nofun
  | cons k ks ih =>
    rw [hashItems] at hh
    obtain ⟨u, hu, hh⟩ := Option.bind_eq_some_iff.1 hh
    exact List.forall_mem_cons.2 ⟨⟨u, hu⟩, ih hh⟩

theorem Key.hash?_of_tuple {ks : List Key} {u : UInt64} (h : (tuple ks).hash? = some u) :
    ∀ k ∈ ks, ∃ u, k.hash? = some u := by
  rw [hash?] at h
  obtain ⟨f, hf, -⟩ := Option.map_eq_some_iff.1 h
  exact hash?_of_hashItems hf

section Equality

variable {heap : Heap} {see : Handle → Option Object} {n m l : Nat} {a b : Handle}
  {κ κ' : Key} {u u' : UInt64} {r : Bool} {part : Handle → Option Key}
  {related : Handle → Handle → Query Bool} {x y : Object}

theorem allPairs_eq_ok {xs ys : List Handle}
    (hp : List.Forall₂ (fun x y => ∀ r, related x y heap = .ok r → r = true) xs ys)
    (h : Heap.allPairs related xs ys heap = .ok r) : r = true := by
  induction hp with
  | nil => exact (Heap.pure_eq_ok.1 h).symm
  | cons hx _ ih =>
    obtain ⟨c, hc, h⟩ := Heap.bind_eq_ok.1 h
    obtain rfl := hx c hc
    exact ih h

theorem items_eq {xs ys : List Handle} {ks ks' : List Key} {R : Handle → Handle → Prop}
    (hx : List.Forall₂ (fun x k => part x = some k) xs ks)
    (hy : List.Forall₂ (fun y k => part y = some k) ys ks')
    (hxy : List.Forall₂ R xs ys)
    (hR : ∀ x y k k', R x y → part x = some k → part y = some k' → k ∈ ks → k' ∈ ks' → k = k') :
    ks = ks' := by
  induction hxy generalizing ks ks' with
  | nil =>
    cases hx
    cases hy
    rfl
  | cons h _ ih =>
    obtain _ | ⟨hx, hxs⟩ := hx
    obtain _ | ⟨hy, hys⟩ := hy
    rw [hR _ _ _ _ h hx hy List.mem_cons_self List.mem_cons_self, ih hxs hys
      fun x y k k' h hx hy hk hk' => hR x y k k' h hx hy (List.mem_cons_of_mem _ hk)
        (List.mem_cons_of_mem _ hk')]

theorem forall₂_of_common {α β γ : Type} {P : α → γ → Prop} {Q : β → γ → Prop} {xs : List α}
    {ys : List β} {ks : List γ} (hx : List.Forall₂ P xs ks) (hy : List.Forall₂ Q ys ks) :
    List.Forall₂ (fun x y => ∃ k ∈ ks, P x k ∧ Q y k) xs ys := by
  induction hx generalizing ys with
  | nil =>
    cases hy
    exact .nil
  | cons hx _ ih =>
    obtain _ | ⟨hy, hys⟩ := hy
    exact .cons ⟨_, List.mem_cons_self, hx, hy⟩
      ((ih hys).imp fun _ _ ⟨k, hk, h⟩ => ⟨k, List.mem_cons_of_mem _ hk, h⟩)

/-- Comparing parts with a hash comes to comparing their keys. -/
def ComparesKeys (heap : Heap) (part : Handle → Option Key)
    (related : Handle → Handle → Query Bool) : Prop :=
  ∀ p q k k' u u' r, part p = some k → part q = some k' → k.hash? = some u → k'.hash? = some u' →
    related p q heap = .ok r → (r = true ↔ k = k')

/-- Objects of the same content have the same key, if they have a hash. -/
theorem key_eq_of_same (hp : ComparesKeys heap part related) (hx : x.key? part a = some κ)
    (hy : y.key? part b = some κ') (hκ : κ.hash? = some u) (hκ' : κ'.hash? = some u')
    (h : Heap.Same heap related x y) : κ = κ' := by
  cases h with
  | str | bytes => rw [← Option.some.inj hx, ← Option.some.inj hy]
  | number hi hj =>
    rw [Object.key?_of_asInt? hi] at hx
    rw [Object.key?_of_asInt? hj] at hy
    rw [← Option.some.inj hx, ← Option.some.inj hy]
  | tuple hpairs =>
    obtain ⟨ks, hks, rfl⟩ := Option.map_eq_some_iff.1 hx
    obtain ⟨ks', hks', rfl⟩ := Option.map_eq_some_iff.1 hy
    refine congrArg Key.tuple (items_eq (mapM_eq_some.1 hks) (mapM_eq_some.1 hks') hpairs ?_)
    intro p q k k' hpq hk hk' hm hm'
    obtain ⟨v, hv⟩ := Key.hash?_of_tuple hκ k hm
    obtain ⟨v', hv'⟩ := Key.hash?_of_tuple hκ' k' hm'
    exact (hp p q k k' v v' true hk hk' hv hv' hpq).1 rfl
  | list | dict | set | range | boundMethod =>
    rw [← Option.some.inj hx] at hκ
    cases hκ

/-- Different handles whose objects have the same key compare as equal, if they have a hash. -/
theorem sameContent_of_key (hp : ComparesKeys heap part related) (hx : x.key? part a = some κ)
    (hy : y.key? part b = some κ) (hκ : κ.hash? = some u) (hab : a ≠ b)
    (h : Heap.sameContent related x y heap = .ok r) : r = true := by
  have hsame : Heap.Same heap related x y → r = true := fun hsame => by
    rw [Heap.sameContent_eq_true.2 hsame] at h
    exact (Except.ok.inj h).symm
  cases κ with
  | nothing v =>
    exact absurd ((Object.of_key?_nothing hx).trans (Object.of_key?_nothing hy).symm) hab
  | self v => exact absurd ((Object.of_key?_self hx).trans (Object.of_key?_self hy).symm) hab
  | number i => exact hsame (.number (Object.asInt?_of_key? hx) (Object.asInt?_of_key? hy))
  | text s =>
    obtain ⟨_, rfl⟩ := Object.of_key?_text hx
    obtain ⟨_, rfl⟩ := Object.of_key?_text hy
    exact hsame (.str ..)
  | bytes bs =>
    obtain rfl := Object.of_key?_bytes hx
    obtain rfl := Object.of_key?_bytes hy
    exact hsame (.bytes _)
  | tuple ks =>
    obtain ⟨xs, rfl, hxs⟩ := Object.of_key?_tuple hx
    obtain ⟨ys, rfl, hys⟩ := Object.of_key?_tuple hy
    have hsize : xs.size = ys.size := by
      simpa using hxs.length_eq.trans hys.length_eq.symm
    simp only [Heap.sameContent, if_pos hsize] at h
    refine allPairs_eq_ok ((forall₂_of_common hxs hys).imp ?_) h
    rintro p q ⟨k, hk, hkp, hkq⟩ c hc
    obtain ⟨v, hv⟩ := Key.hash?_of_tuple hκ k hk
    exact (hp p q k k v v c hkp hkq hv hv hc).2 rfl
  | unhashable => cases hκ

/-- Values with a hash are equal exactly when their keys are. -/
theorem equal_iff_key (hs : Shows heap see) (ha : key? see n a = some κ)
    (hb : key? see n b = some κ') (hκ : κ.hash? = some u) (hκ' : κ'.hash? = some u')
    (h : Heap.equalWithin l a b heap = .ok r) : r = true ↔ κ = κ' := by
  induction l generalizing n a b κ κ' u u' r with
  | zero => cases h
  | succ l ih =>
    obtain ⟨n, rfl⟩ : ∃ k, n = k + 1 := by
      cases n with
      | zero => cases ha
      | succ n => exact ⟨n, rfl⟩
    obtain ⟨x, hx, hkx⟩ := Option.bind_eq_some_iff.1 ha
    obtain ⟨y, hy, hky⟩ := Option.bind_eq_some_iff.1 hb
    have hp : ComparesKeys heap (key? see n) (Heap.equalWithin l) :=
      fun _ _ _ _ _ _ _ hk hk' hu hu' hr => ih hk hk' hu hu' hr
    rw [Heap.equalWithin_succ (hs a x hx) (hs b y hy)] at h
    split at h
    · rename_i hab
      subst hab
      rw [ha, Option.some.injEq] at hb
      exact ⟨fun _ => hb, fun _ => (Except.ok.inj h).symm⟩
    rename_i hab
    constructor
    · rintro rfl
      exact key_eq_of_same hp hkx hky hκ hκ' (Heap.sameContent_eq_true.1 h)
    · rintro rfl
      exact sameContent_of_key hp hkx hky hκ hab h

end Equality

end ObjectSpace
