import ObjectSpace.Proofs.Value.Runs

/-!
# Hashes of equal values

**Theorem (`equal_hash`).** In every state that a run reaches, equal values that do not contain
themselves have the same hash, or none of them has one and both report the same type as the cause.

Equality is followed down the parts of a tuple, and the two foldings go in step
(`hashWithin_congr`). It crosses variants only from integers to Booleans, which are hashed alike,
and representations only from a text that carries its hash to one that does not; the hash that a
text carries is its own. Values of any other kind that have parts are not hashed at all, and what
they report depends on the kind alone.

**Answers.** Hashing follows the items of tuples, and the report of what cannot be hashed reads the
class of an instance besides. A value is `Whole` when all of that can be read.
-/

namespace ObjectSpace

/-- The class of an instance. -/
def Object.class? : Object → Option Handle
  | userInstance cls _ => some cls
  | _ => none

/-- A value that can be read through and through, the classes of instances included. -/
inductive Whole (see : Handle → Option Object) : Handle → Prop
  | intro {v : Handle} {o : Object} : see v = some o → (∀ p ∈ o.parts, Whole see p) →
      (∀ c, o.class? = some c → ∃ p, see c = some p) → Whole see v

/-- Hashing gives a hash, or the diagnostic that names the type of what has none. -/
def Hashed {α : Type} (r : Except Halt α) : Prop :=
  (∃ u, r = .ok u) ∨ ∃ name, r = .error (.fatal (.unhashable name))

/-- Equal values are hashed alike, and hashing answers. -/
structure HashFollows (heap : Heap) (see : Handle → Option Object) : Prop where
  same : ∀ a b, Grounded see a → Grounded see b → Heap.equal a b heap = .ok true →
    Heap.hash a heap = Heap.hash b heap
  answers : ∀ a, Whole see a → Hashed (Heap.hash a heap)

namespace Heap

variable {heap : Heap} {see : Handle → Option Object} {n l : Nat} {a b : Handle}
  {xs ys : List Handle}

/-! ## Hashes of objects -/

section Objects

theorem hashWithin_number {o : Object} {i : Int64} (ho : heap.get? a = some o)
    (hi : o.asInt? = some i) : hashWithin (n + 1) a heap = .ok i.toUInt64 := by
  rw [hashWithin, bind_of_ok (get_eq_ok.2 ho)]
  cases o with
  | int j =>
    obtain rfl : j = i := Option.some.inj hi
    rfl
  | bool b =>
    obtain rfl : (if b then 1 else 0) = i := Option.some.inj hi
    cases b <;> rfl
  | _ => cases hi

theorem hashWithin_text (ht : heap.TextsHashed) {s : String} {x : Option UInt64}
    (hs : heap.get? a = some (.str s x)) : hashWithin (n + 1) a heap = .ok (Fnv.hashText s) := by
  rw [hashWithin, bind_of_ok (get_eq_ok.2 hs)]
  cases x with
  | none => rfl
  | some u =>
    rw [← ht a s u hs]
    rfl

theorem typeName_of_kind {o : Object} {k : Kind} (ho : heap.get? a = some o)
    (hk : o.kind? = some k) : typeName a heap = .ok k.name := by
  rw [typeName, bind_of_ok (get_eq_ok.2 ho)]
  cases o with
  | userInstance | context => cases hk
  | _ =>
    obtain rfl := Option.some.inj hk
    rfl

theorem unhashable_eq {name : String} (h : typeName a heap = .ok name) :
    (do fatal (.unhashable (← typeName a)) : Query UInt64) heap =
      .error (.fatal (.unhashable name)) := by
  rw [bind_of_ok h]
  rfl

end Objects

/-! ## Hashing in step -/

theorem hashItems_congr {R : Handle → Handle → Prop} (h : List.Forall₂ R xs ys)
    {f g : Handle → Query UInt64} (hR : ∀ x ∈ xs, ∀ y ∈ ys, R x y → f x heap = g y heap)
    (start : Fnv) :
    (xs.foldlM (fun h x => return h.word (← f x)) start : Query Fnv) heap =
      (ys.foldlM (fun h y => return h.word (← g y)) start : Query Fnv) heap := by
  induction h generalizing start with
  | nil => rfl
  | @cons x y xs ys hxy _ ih =>
    have hhead : f x heap = g y heap := hR x List.mem_cons_self y List.mem_cons_self hxy
    rw [List.foldlM_cons, List.foldlM_cons]
    refine bind_congr (bind_congr hhead fun _ => rfl) fun h => ih (fun p hp q hq => ?_) h
    exact hR p (List.mem_cons_of_mem _ hp) q (List.mem_cons_of_mem _ hq)

/-- Equal values are hashed alike, to any depth that both are nested within. -/
theorem hashWithin_congr (hs : Shows heap see) (ht : heap.TextsHashed) (ha : Within see n a)
    (hb : Within see n b) (h : equalWithin l a b heap = .ok true) :
    hashWithin n a heap = hashWithin n b heap := by
  induction n generalizing l a b with
  | zero => exact ha.elim
  | succ n ih =>
    cases l with
    | zero => cases h
    | succ l =>
      obtain ⟨x, hx, hax⟩ := ha
      obtain ⟨y, hy, hby⟩ := hb
      have hxa := hs a x hx
      have hyb := hs b y hy
      rw [equalWithin_succ hxa hyb] at h
      split at h
      · rename_i hab
        rw [hab]
      cases sameContent_eq_true.1 h with
      | str => exact (hashWithin_text ht hxa).trans (hashWithin_text ht hyb).symm
      | number hi hj => exact (hashWithin_number hxa hi).trans (hashWithin_number hyb hj).symm
      | bytes =>
        rw [hashWithin, hashWithin, bind_of_ok (get_eq_ok.2 hxa), bind_of_ok (get_eq_ok.2 hyb)]
      | tuple hpairs =>
        rw [hashWithin, hashWithin, bind_of_ok (get_eq_ok.2 hxa), bind_of_ok (get_eq_ok.2 hyb)]
        refine bind_congr (hashItems_congr hpairs (fun p hp q hq hpq => ?_) _) fun _ => rfl
        exact ih (hax p hp) (hby q hq) hpq
      | list | dict | set | range | boundMethod =>
        rw [hashWithin, hashWithin, bind_of_ok (get_eq_ok.2 hxa), bind_of_ok (get_eq_ok.2 hyb)]
        exact (unhashable_eq (typeName_of_kind hxa rfl)).trans
          (unhashable_eq (typeName_of_kind hyb rfl)).symm

/-! ## Answers -/

theorem typeName_ok {o : Object} (ho : heap.get? a = some o)
    (hc : ∀ c, o.class? = some c → ∃ p, heap.get? c = some p) :
    ∃ name, typeName a heap = .ok name := by
  cases o with
  | userInstance cls =>
    obtain ⟨p, hp⟩ := hc cls rfl
    rw [typeName, bind_of_ok (get_eq_ok.2 ho)]
    dsimp only
    rw [bind_of_ok (get_eq_ok.2 hp)]
    cases p <;> exact ⟨_, rfl⟩
  | context =>
    rw [typeName, bind_of_ok (get_eq_ok.2 ho)]
    exact ⟨_, rfl⟩
  | _ => exact ⟨_, typeName_of_kind ho rfl⟩

theorem hashItems_hashed (h : ∀ x ∈ xs, Hashed (hashWithin n x heap)) (start : Fnv) :
    Hashed ((xs.foldlM (fun h x => return h.word (← hashWithin n x)) start : Query Fnv) heap) := by
  induction xs generalizing start with
  | nil => exact .inl ⟨start, rfl⟩
  | cons x xs ih =>
    rw [List.forall_mem_cons] at h
    rw [List.foldlM_cons]
    rcases h.1 with ⟨u, hu⟩ | ⟨name, hname⟩
    · rw [bind_of_ok (bind_of_ok hu)]
      exact ih h.2 _
    · rw [bind_of_error (bind_of_error hname)]
      exact .inr ⟨name, rfl⟩

/-- Hashing answers on a value that is whole. -/
theorem hashWithin_hashed (hs : Shows heap see) (w : Whole see a) (ha : Within see n a) :
    Hashed (hashWithin n a heap) := by
  induction n generalizing a with
  | zero => exact ha.elim
  | succ n ih =>
    obtain ⟨hx, hparts, hclass⟩ := w
    rename_i x
    obtain ⟨y, hy, hdeep⟩ := ha
    obtain rfl : x = y := Option.some.inj (hx.symm.trans hy)
    have hxa := hs a x hx
    rw [hashWithin, bind_of_ok (get_eq_ok.2 hxa)]
    cases x with
    | tuple items =>
      rcases hashItems_hashed (fun p hp => ih (hparts p hp) (hdeep p hp)) Fnv.start with
        ⟨h, hh⟩ | ⟨name, hname⟩
      · exact .inl ⟨h.state, bind_of_ok hh⟩
      · exact .inr ⟨name, bind_of_error hname⟩
    | str s u => cases u <;> exact .inl ⟨_, rfl⟩
    | nothing | bool | int | bytes | type | userClass | function => exact .inl ⟨_, rfl⟩
    | _ =>
      obtain ⟨name, hname⟩ := typeName_ok hxa fun c hc => (hclass c hc).imp fun p => hs c p
      exact .inr ⟨name, unhashable_eq hname⟩

end Heap

/-! ## Runs -/

theorem Whole.grounded {see : Handle → Option Object} {v : Handle} (w : Whole see v) :
    Grounded see v := by
  induction w with
  | intro ho _ _ ih => exact .intro ho ih

theorem Grounded.whole {see : Handle → Option Object} {v : Handle} (g : Grounded see v)
    (hc : ∀ v o c, see v = some o → o.class? = some c → ∃ p, see c = some p) : Whole see v := by
  induction g with
  | intro ho _ ih => exact .intro ho ih fun c => hc _ _ c ho

/-- What can be read in a legible view is hashed as it is compared. -/
theorem Legible.hashFollows {heap : Heap} {see : Handle → Option Object} (L : Legible heap see) :
    HashFollows heap see := by
  have hdeep : ∀ v, Grounded see v → Within see (heap.capacity + 1) v := fun v g =>
    (g.within L.shows).mono (Nat.le_succ _)
  refine ⟨fun a b ga gb h => ?_, fun a w => ?_⟩
  · obtain ⟨l, -, h⟩ := Heap.bind_eq_ok.1 h
    exact Heap.hashWithin_congr L.shows L.texts (hdeep a ga) (hdeep b gb) h
  · exact Heap.hashWithin_hashed L.shows w (hdeep a w.grounded)

theorem Space.Sound.whole {s : Space} (i : s.Sound) {v : Handle}
    (g : Grounded (seeLive s.heap) v) : Whole (seeLive s.heap) v := by
  refine g.whole fun v o c ho hc => ?_
  obtain ⟨hv, hget⟩ := seeLive_eq_some.1 ho
  obtain ⟨p, hp, hlive⟩ := i.get? hv
  rw [hget, Option.some.injEq] at hp
  subst hp
  cases o with
  | userInstance cls attributes =>
    obtain rfl : cls = c := Option.some.inj hc
    have hcls := hlive cls List.mem_cons_self
    obtain ⟨q, hq, -⟩ := i.get? hcls
    exact ⟨q, seeLive_eq_some.2 ⟨hcls, hq⟩⟩
  | _ => cases hc

/-- **Hashes of equal values.** In every state of a run equal grounded values are hashed alike: they
have the same hash, or the same type is reported for both. That one of the two happens is known of
live values in a run on live handles, and in a run on any issued handles where classes of instances
are not lost. -/
theorem equal_hash {settings : Settings} {disk : Disk} {s : Space} :
    (∀ lost, Ran settings disk s lost → HashFollows s.heap (seeKept lost s.heap)) ∧
      (LiveRun settings disk s → HashFollows s.heap (seeLive s.heap) ∧
        ∀ v, Grounded (seeLive s.heap) v → Hashed (Heap.hash v s.heap)) :=
  ⟨fun _ r => r.legible.hashFollows, fun r => ⟨r.legible.hashFollows, fun v g =>
    r.legible.hashFollows.answers v ((Space.sound_of_liveRun r).whole g)⟩⟩

theorem leave_internStr {s : Space} (hr : s.heap.Roomy) (text : String)
    (hnone : s.texts.lookup text = none) :
    ∃ v old, Arena.Placed s.heap (Object.str text (some (Fnv.hashText text))).sizeClass
      (.str text (some (Fnv.hashText text))) v old
      ((Turn.operation (.internStr text)).leave s).heap := by
  obtain ⟨v, old, heap, p, heq⟩ := Trust.alloc_placed hr (.str text (some (Fnv.hashText text)))
  refine ⟨v, old, ?_⟩
  rw [Turn.leave, Turn.run, Operation.run, Space.leftBy_returned]
  simp only [Space.internStr, bind, EStateM.bind, Space.get_apply, hnone, heq]
  exact p

/-- An interned text and a new one of the same content are hashed alike. -/
theorem equal_hash_texts :
    ∃ s lost a b, Ran {} {} s lost ∧ LiveRun {} {} s ∧
      s.heap.get? a = some (.str "key" (some (Fnv.hashText "key"))) ∧
      s.heap.get? b = some (.str "key" none) ∧ Heap.equal a b s.heap = .ok true ∧
      Heap.hash a s.heap = Heap.hash b s.heap ∧ Hashed (Heap.hash a s.heap) := by
  obtain ⟨s₀, h₀⟩ := Space.create_ok {} rfl {}
  have hr := (Space.create_sound h₀).roomy
  have htexts := (Space.create_new h₀).1.texts
  let t : Turn := .operation (.internStr "key")
  let t' : Turn := .operation (.newStr "key")
  obtain ⟨a, x, pa⟩ := leave_internStr hr "key" (by rw [htexts]; rfl)
  obtain ⟨b, y, pb⟩ := leave_alloc (pa.roomy hr) (.newStr "key") rfl
  have r := Ran.turn t' (.turn t (.start h₀) nofun) nofun
  have l := LiveRun.turn t' (.turn t (.start h₀) nofun) nofun
  have hb := pb.has_self
  have ha := pb.has pa.has_self
  have ga : Grounded (seeLive (t'.leave (t.leave s₀)).heap) a :=
    .intro (seeLive_eq_some.2 ha) nofun
  have heq : Heap.equal a b (t'.leave (t.leave s₀)).heap = .ok true := by
    refine Heap.bind_eq_ok.2 ⟨_, Heap.depth_eq_ok.2 rfl, ?_⟩
    rw [Heap.equalWithin_succ ha.2 hb.2]
    split
    · rfl
    · exact Heap.sameContent_eq_true.2 (.str ..)
  have hla := not_lost t (Set.notMem_empty a) (.inl pa.get?_new)
  have hlb := not_lost t (Set.notMem_empty b) (.inl (pa.get?_new_before pb))
  have gak : Grounded (seeKept _ (t'.leave (t.leave s₀)).heap) a := .intro
    (seeKept_eq_some.2 ⟨not_lost t' hla (.inr (Arena.isCurrent_iff.2 ⟨_, ha.2⟩)), ha.2⟩) nofun
  have gbk : Grounded (seeKept _ (t'.leave (t.leave s₀)).heap) b := .intro
    (seeKept_eq_some.2 ⟨not_lost t' hlb (.inr (Arena.isCurrent_iff.2 ⟨_, hb.2⟩)), hb.2⟩) nofun
  exact ⟨_, _, a, b, r, l, ha.2, hb.2, heq, (equal_hash.1 _ r).same a b gak gbk heq,
    (equal_hash.2 l).2 a ga⟩

end ObjectSpace
