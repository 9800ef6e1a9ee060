import ObjectSpace.Proofs.Run.Create
import ObjectSpace.Proofs.Table.Trim
import ObjectSpace.Proofs.Value.Key

/-!
# Filed entries

In dicts and sets every entry is filed under the hash of its key, and no two entries have the same
key (`Filed`). An entry comes in when its key has been hashed and found unequal to all keys under
that hash, so both hold when it comes; and they go on holding whatever happens to other objects,
since keys never change.

**Sights.** This is about the handles that an operation may be given, and about keys as far as a
view shows them. A `Sight` is a trust with such a view: what it shows after a step of a handle that
was `ok` before, it showed before the step.

**Theorem (`Tidy.step`).** Every primitive step keeps texts hashed, tables trim and entries filed.
-/

namespace ObjectSpace

/-! ## Filings -/

/-- The hashes under which a table files its keys, in table order. -/
def Table.filings {α : Type} (keyOf : α → Handle) (t : Table α) : List (UInt64 × Handle) :=
  t.entries.toList.map fun e => (e.1, keyOf e.2)

/-- The hashes and keys of a dict or a set. -/
def Object.filings : Object → List (UInt64 × Handle)
  | .dict t => t.filings Prod.fst
  | .set t => t.filings id
  | _ => []

/-- Keys are filed under their hash, and no two of them are the same. -/
structure Filed (see : Handle → Option Object) (l : List (UInt64 × Handle)) : Prop where
  hashed : ∀ e ∈ l, ∀ n κ, key? see n e.2 = some κ → κ.hash? = some e.1
  apart : l.Pairwise fun e f =>
    ∀ n κ, key? see n e.2 = some κ → key? see n f.2 ≠ some κ

namespace Table

variable {α : Type} {keyOf : α → Handle}

theorem filings_eq (keyOf : α → Handle) (t : Table α) (hash : UInt64) :
    t.filings keyOf = (t.below hash).map (fun e => (e.1, keyOf e.2)) ++
      (t.bucket hash).map (fun x => (hash, keyOf x)) ++
      (t.above hash).map fun e => (e.1, keyOf e.2) := by
  rw [filings, entries_eq t hash, List.map_append, List.map_append, List.map_map]
  rfl

theorem filings_push (keyOf : α → Handle) (t : Table α) (hash : UInt64) (x : α) :
    ∃ pre post, t.filings keyOf = pre ++ post ∧
      (t.push hash x).filings keyOf = pre ++ (hash, keyOf x) :: post ∧
      ∀ e ∈ post, hash < e.1 := by
  refine ⟨_, _, filings_eq keyOf t hash, ?_, List.forall_mem_map.2 fun e => lt_of_mem_above⟩
  rw [filings, entries_push]
  simp

theorem filings_erase (t : Table α) (hash : UInt64) (i : Nat) :
    ((t.erase hash i).filings keyOf).Sublist (t.filings keyOf) :=
  (entries_erase_sublist t hash i).map _

theorem filings_modify (t : Table α) (hash : UInt64) (i : Nat) {f : α → α}
    (hf : ∀ x, keyOf (f x) = keyOf x) : (t.modify hash i f).filings keyOf = t.filings keyOf := by
  have hkeys : ((t.bucket hash).modify i f).map (fun x => (hash, keyOf x)) =
      (t.bucket hash).map fun x => (hash, keyOf x) := by
    refine List.ext_getElem (by simp) fun n h₁ h₂ => ?_
    simp only [List.getElem_map, List.getElem_modify]
    split <;> simp [hf]
  rw [filings_eq keyOf t hash, ← hkeys, filings, entries_modify]
  simp

theorem mem_filings {t : Table α} {e : UInt64 × Handle} :
    e ∈ t.filings keyOf ↔ ∃ x ∈ t.bucket e.1, keyOf x = e.2 := by
  simp only [filings, List.mem_map, mem_bucket]
  constructor
  · rintro ⟨⟨h, x⟩, hx, rfl⟩
    exact ⟨x, hx, rfl⟩
  · rintro ⟨x, hx, hk⟩
    exact ⟨(e.1, x), hx, Prod.ext rfl hk⟩

end Table

theorem Object.mem_children_of_filings {o : Object} {e : UInt64 × Handle} (h : e ∈ o.filings) :
    e.2 ∈ o.children := by
  cases o with
  | dict t =>
    obtain ⟨x, hx, hk⟩ := Table.mem_filings.1 h
    exact List.mem_flatMap.2 ⟨x, Table.mem_of_mem_bucket hx, by simp [← hk]⟩
  | set t =>
    obtain ⟨x, hx, hk⟩ := Table.mem_filings.1 h
    exact hk ▸ Table.mem_of_mem_bucket hx
  | _ => cases h

theorem Object.Permanent.filings_eq {o : Object} (h : o.Permanent) : o.filings = [] := by
  cases o with
  | dict | set => exact h.elim
  | _ => rfl

theorem Object.Permanent.trim {o : Object} (h : o.Permanent) : o.Trim := by
  cases o with
  | dict | set => exact h.elim
  | _ => trivial

/-- A change keeps buckets and count in order. -/
theorem Change.trim {heap : Heap} {o o' : Object} (c : Change heap o o') (h : o.Trim) :
    o'.Trim := by
  cases c with
  | same => exact h
  | dictPush | setPush => exact Table.Trim.push h
  | dictStore => exact Table.Trim.modify h _
  | dictErase | setErase => exact Table.Trim.erase h
  | dictClear | setClear => exact Table.trim_empty
  | _ => trivial

/-- What a change does to the filings: it takes some away, or a key comes in, before those of
greater hashes only. -/
theorem Change.filings {heap : Heap} {o o' : Object} (c : Change heap o o') :
    o'.filings.Sublist o.filings ∨ ∃ hash k pre post, o.filings = pre ++ post ∧
      o'.filings = pre ++ (hash, k) :: post ∧ (∀ e ∈ post, hash < e.1) ∧
      Heap.hash k heap = .ok hash ∧
      ∀ e ∈ o.filings, e.1 = hash → Heap.equal e.2 k heap = .ok false := by
  cases c with
  | @dictPush t hash k v hh hne =>
    obtain ⟨pre, post, h₁, h₂, h₃⟩ := t.filings_push Prod.fst hash (k, v)
    refine .inr ⟨hash, k, pre, post, h₁, h₂, h₃, hh, fun e he hash_eq => ?_⟩
    obtain ⟨x, hx, hk⟩ := Table.mem_filings.1 he
    rw [← hk]
    exact hne x (hash_eq ▸ hx)
  | @setPush t hash k hh hne =>
    obtain ⟨pre, post, h₁, h₂, h₃⟩ := t.filings_push id hash k
    refine .inr ⟨hash, k, pre, post, h₁, h₂, h₃, hh, fun e he hash_eq => ?_⟩
    obtain ⟨x, hx, hk⟩ := Table.mem_filings.1 he
    rw [← hk]
    exact hne x (hash_eq ▸ hx)
  | dictStore t hash i v =>
    have hsame : Object.filings (.dict (t.modify hash i fun e => (e.1, v))) =
        Object.filings (.dict t) := t.filings_modify hash i fun _ => rfl
    exact .inl (hsame ▸ .refl _)
  | dictErase t hash i => exact .inl (t.filings_erase hash i)
  | setErase t hash i => exact .inl (t.filings_erase hash i)
  | dictClear | setClear => exact .inl (List.nil_sublist _)
  | _ => exact .inl (.refl _)

theorem Placeable.filings {ok : Heap → Handle → Prop} {heap : Heap} {o : Object}
    (h : Placeable ok heap o) :
    o.filings = [] ∨ ∃ v, ok heap v ∧ heap.get? v = some o := by
  cases o with
  | dict | set =>
    obtain rfl | hcopy := h
    · exact .inl rfl
    · exact .inr hcopy
  | _ => exact .inl rfl

/-- A table that is placed is empty, or a copy of one that is trim. -/
theorem Placeable.trim {ok : Heap → Handle → Prop} {heap : Heap} {o : Object}
    (h : Placeable ok heap o) (ht : heap.TablesTrim) : o.Trim := by
  cases o with
  | dict | set =>
    obtain rfl | ⟨v, -, hcopy⟩ := h
    · exact Table.trim_empty
    · exact ht v _ hcopy
  | _ => trivial

namespace Filed

variable {see see' : Handle → Option Object} {l l' pre post : List (UInt64 × Handle)}

theorem nil : Filed see [] := ⟨nofun, .nil⟩

theorem sublist (f : Filed see l) (h : l'.Sublist l) : Filed see l' :=
  ⟨fun e he => f.hashed e (h.mem he), f.apart.sublist h⟩

/-- Entries stay filed in a view that shows no key of theirs that was not shown. -/
theorem mono (f : Filed see l)
    (h : ∀ e ∈ l, ∀ n κ, key? see' n e.2 = some κ → key? see n e.2 = some κ) :
    Filed see' l := by
  refine ⟨fun e he n κ hk => f.hashed e he n κ (h e he n κ hk), ?_⟩
  exact f.apart.imp_of_mem fun he hf hne n κ hk hk' => hne n κ (h _ he n κ hk) (h _ hf n κ hk')

/-- A key comes in when it has a hash and is unequal to all keys under that hash. -/
theorem push {heap : Heap} {hash : UInt64} {k : Handle} (hs : Shows heap see)
    (ht : heap.TextsHashed) (f : Filed see (pre ++ post)) (hh : Heap.hash k heap = .ok hash)
    (hne : ∀ e ∈ pre ++ post, e.1 = hash → Heap.equal e.2 k heap = .ok false) :
    Filed see (pre ++ (hash, k) :: post) := by
  obtain ⟨d, -, hh⟩ := Heap.bind_eq_ok.1 hh
  have hnew : ∀ n κ, key? see n k = some κ → κ.hash? = some hash := fun n κ hk =>
    hash_key hs ht hk hh
  constructor
  · intro e he
    rcases List.mem_append.1 he with he | he
    · exact f.hashed e (List.mem_append_left _ he)
    · rcases List.mem_cons.1 he with rfl | he
      · exact hnew
      · exact f.hashed e (List.mem_append_right _ he)
  · have hsymm : ∀ {e g : UInt64 × Handle},
        (∀ n κ, key? see n e.2 = some κ → key? see n g.2 ≠ some κ) →
        ∀ n κ, key? see n g.2 = some κ → key? see n e.2 ≠ some κ :=
      fun h n κ hg he => h n κ he hg
    refine (List.perm_middle.pairwise_iff hsymm).2 (List.pairwise_cons.2 ⟨?_, f.apart⟩)
    intro e he n κ hk hk'
    have hu := f.hashed e he n κ hk'
    have heq : e.1 = hash := by
      have hu' := hnew n κ hk
      rw [hu, Option.some.injEq] at hu'
      exact hu'
    obtain ⟨d', -, hequal⟩ := Heap.bind_eq_ok.1 (hne e he heq)
    have hiff := equal_iff_key hs hk' hk hu hu hequal
    exact Bool.false_ne_true (hiff.2 rfl)

end Filed

/-! ## The invariant -/

/-- A trust with a view: what it shows after a step of what was `ok`, it showed before. -/
structure Sight extends Trust where
  see : Heap → Handle → Option Object
  shows (heap : Heap) : Shows heap (see heap)
  back {s s' : Space} {v : Handle} {o' : Object} : holds s → Step ok s s' → ok s.heap v →
    see s'.heap v = some o' → ∃ o, see s.heap v = some o
  ok_back {s s' : Space} {v : Handle} {o : Object} : holds s → Step ok s s' → ok s'.heap v →
    s.heap.get? v = some o → ok s.heap v

namespace Sight

variable {S : Sight} {s s' : Space}

/-- Texts carry their own hash, tables are trim, and in those behind `ok` handles the entries are
filed. -/
structure Tidy (S : Sight) (heap : Heap) : Prop where
  texts : heap.TextsHashed
  trim : heap.TablesTrim
  filed : ∀ v o, S.ok heap v → heap.get? v = some o → Filed (S.see heap) o.filings

/-- The key of a value after a step is the key it had. -/
theorem key?_back (hs : S.holds s) (st : Step S.ok s s') {n : Nat} {v : Handle} {κ : Key}
    (hv : S.ok s.heap v) (hk : key? (S.see s'.heap) n v = some κ) :
    key? (S.see s.heap) n v = some κ := by
  induction n generalizing v κ with
  | zero => cases hk
  | succ n ih =>
    obtain ⟨o', ho', hk⟩ := Option.bind_eq_some_iff.1 hk
    obtain ⟨o, ho⟩ := S.back hs st hv ho'
    have hget := S.shows _ v o ho
    have hev := st.kept.evolves hget (S.shows _ v o' ho')
    rw [hev.key?_eq] at hk
    refine Option.bind_eq_some_iff.2 ⟨o, ho, Object.key?_mono (fun c hc k hk => ?_) hk⟩
    exact ih (S.child hs hv hget hc) hk

theorem filed_step (hs : S.holds s) (st : Step S.ok s s') {o : Object}
    (hc : ∀ c ∈ o.children, S.ok s.heap c) (f : Filed (S.see s.heap) o.filings) :
    Filed (S.see s'.heap) o.filings :=
  f.mono fun _ he _ _ hk => key?_back hs st (hc _ (Object.mem_children_of_filings he)) hk

theorem Tidy.change (t : Tidy S s.heap) {o o' : Object} (f : Filed (S.see s.heap) o.filings)
    (c : Change s.heap o o') : Filed (S.see s.heap) o'.filings := by
  rcases c.filings with hsub | ⟨hash, k, pre, post, h₁, h₂, -, hh, hne⟩
  · exact f.sublist hsub
  · rw [h₁] at f hne
    rw [h₂]
    exact f.push (S.shows _) t.texts hh hne

/-- Primitive steps keep texts hashed, tables trim and entries filed. -/
theorem Tidy.step (t : Tidy S s.heap) (hs : S.holds s) (st : Step S.ok s s') :
    Tidy S s'.heap := by
  constructor
  · intro v x hash h
    rcases st.object h with ⟨o, ho, hch, -⟩ | ⟨-, hp, -⟩
    · cases hch.evolves.evolution
      exact t.texts v x hash ho
    · exact hp
  · intro v o' h
    rcases st.object h with ⟨o, ho, hch, -⟩ | ⟨-, hp, -⟩
    · exact hch.trim (t.trim v o ho)
    · exact hp.trim t.trim
  · intro v o' hv h
    rcases st.object h with ⟨o, ho, hch, hc⟩ | ⟨-, hp, hc⟩
    · have hok := S.ok_back hs st hv ho
      refine filed_step hs st ?_ (t.change (t.filed v o hok ho) hch)
      rcases hc with rfl | hc
      · exact fun c => S.child hs hok ho
      · exact hc
    · rcases hp.filings with hnil | ⟨w, hw, hcopy⟩
      · rw [hnil]
        exact .nil
      · exact filed_step hs st hc (t.filed w o' hw hcopy)

theorem tidy_of_permanent {heap : Heap} (h : ∀ v o, heap.get? v = some o → o.Permanent) :
    Tidy S heap := by
  refine ⟨fun v x hash hv => (h v _ hv).elim, fun v o hv => (h v o hv).trim, fun v o _ hv => ?_⟩
  rw [(h v o hv).filings_eq]
  exact .nil

/-- Between steps the objects stay, and another sight that trusts and shows no more finds them
tidy as well. -/
theorem Tidy.congr {S S' : Sight} {heap heap' : Heap} (t : Tidy S heap)
    (hget : ∀ v, heap'.get? v = heap.get? v)
    (hok : ∀ v o, S'.ok heap' v → heap.get? v = some o → S.ok heap v)
    (hsee : ∀ v o, S'.see heap' v = some o → S.see heap v = some o) : Tidy S' heap' := by
  refine ⟨fun v x hash h => t.texts v x hash (hget v ▸ h), fun v o h => t.trim v o (hget v ▸ h),
    fun v o hv h => ?_⟩
  rw [hget] at h
  exact (t.filed v o (hok v o hv h) h).mono fun _ _ n κ hk => key?_of_see hsee hk

/-- The trust whose invariant says in addition that tables are trim and their entries filed. -/
def filing (S : Sight) : Trust where
  holds s := S.holds s ∧ Tidy S s.heap
  ok := S.ok
  roomy hs := S.roomy hs.1
  root hs := S.root hs.1
  child hs := S.child hs.1
  step hs st := ⟨S.step hs.1 st, hs.2.step hs.1 st⟩
  ok_step hs := S.ok_step hs.1
  ok_placed hs := S.ok_placed hs.1

end Sight

end ObjectSpace
