import ObjectSpace.Proofs.Effects.Values
import ObjectSpace.Proofs.Heap.Depth

/-!
# What does not depend on the content of containers

Filling lists, dicts and sets leaves the heap the same up to their contents (`Heap.Refilled`). A
query that reads an object and goes on in the same way whatever a container holds gives the same
answer in both heaps (`Refilled.get_bind`).

**Theorem (`Refilled.hash_eq`).** So a value has the same hash, or none for the same reason, before
and after changes of containers: hashing follows tuples, and a container has no hash.
-/

namespace ObjectSpace

theorem Arena.capacity_modify {α : Type} (a : Arena α) (h : Handle) (f : α → α) :
    (a.modify h f).capacity = a.capacity := by
  have hsize : ∀ c, ((a.modify h f).pool c).cells.size = (a.pool c).cells.size := fun c => by
    rw [modify, pool_modifyPool]
    split
    · rw [Pool.update, Array.size_modify]
    · rfl
  simp only [capacity, hsize]

/-! ## Other contents -/

theorem Object.Refills.refl (o : Object) : o.Refills o := by
  cases o <;> simp [Refills]

theorem Object.Refills.trans {x y z : Object} (h : x.Refills y) (h' : y.Refills z) :
    x.Refills z := by
  cases x with
  | list | dict | set =>
    cases y <;> cases h
    cases z <;> trivial
  | _ =>
    obtain rfl := h
    exact h'

namespace Heap

variable {α β : Type} {a b c : Heap} {v : Handle}

/-- The same objects up to the content of lists, dicts and sets. -/
structure Refilled (a b : Heap) : Prop where
  capacity : b.capacity = a.capacity
  read : ∀ v, Option.Rel Object.Refills (a.get? v) (b.get? v)

theorem Refilled.refl (a : Heap) : Refilled a a := by
  refine ⟨rfl, fun v => ?_⟩
  cases a.get? v with
  | none => exact .none
  | some o => exact .some (.refl o)

/-! ## Queries -/

/-- A sequence of queries gives the same when its parts do. -/
theorem bind_eq_bind {q : Query α} {f : α → Query β} (hq : q a = q b)
    (hf : ∀ x, f x a = f x b) : (q >>= f) a = (q >>= f) b := by
  simp only [bind, ReaderT.bind, Except.bind, hq, hf]

/-- Hashing items in turn gives the same when hashing each does. -/
theorem foldlM_eq_foldlM {f : Handle → Query UInt64} (hf : ∀ x, f x a = f x b) {l : List Handle}
    {start : Fnv} :
    (l.foldlM (fun h x => return h.word (← f x)) start : Query Fnv) a =
      (l.foldlM (fun h x => return h.word (← f x)) start : Query Fnv) b := by
  induction l generalizing start with
  | nil => rfl
  | cons x l ih =>
    rw [List.foldlM_cons]
    exact bind_eq_bind (bind_eq_bind (hf x) fun _ => rfl) fun _ => ih

namespace Refilled

variable (h : Refilled a b)

include h

/-- Reading an object and going on in the same way whatever a container holds. -/
theorem get_bind {F : Object → Query α} (hF : ∀ o, F o a = F o b)
    (hlist : ∀ x y, F (.list x) b = F (.list y) b) (hdict : ∀ x y, F (.dict x) b = F (.dict y) b)
    (hset : ∀ x y, F (.set x) b = F (.set y) b) (v : Handle) :
    (get v >>= F) a = (get v >>= F) b := by
  have hread := h.read v
  cases hv : a.get? v with
  | none =>
    rw [hv] at hread
    cases hb : b.get? v with
    | none =>
      have herror : get v a = get v b := by simp only [get, Arena.fetch, hv, hb]
      exact bind_eq_bind herror fun o => hF o
    | some o' =>
      rw [hb] at hread
      cases hread
  | some o =>
    rw [hv] at hread
    cases hb : b.get? v with
    | none =>
      rw [hb] at hread
      cases hread
    | some o' =>
      rw [hb] at hread
      cases hread with
      | some hr =>
        rw [bind_of_ok (get_eq_ok.2 hv), bind_of_ok (get_eq_ok.2 hb), hF]
        exact (hr.observe_eq (p := fun o => F o b) hlist hdict hset).symm

theorem typeName_eq (v : Handle) : typeName v a = typeName v b := by
  refine h.get_bind (fun o => ?_) (fun _ _ => rfl) (fun _ _ => rfl) (fun _ _ => rfl) v
  cases o with
  | userInstance cls attributes =>
    refine h.get_bind (fun p => ?_) (fun _ _ => rfl) (fun _ _ => rfl) (fun _ _ => rfl) cls
    cases p <;> rfl
  | _ => rfl

theorem hashWithin_eq (n : Nat) (v : Handle) : hashWithin n v a = hashWithin n v b := by
  induction n generalizing v with
  | zero => rfl
  | succ n ih =>
    refine h.get_bind (fun o => ?_) (fun _ _ => rfl) (fun _ _ => rfl) (fun _ _ => rfl) v
    cases o with
    | tuple items => exact bind_eq_bind (foldlM_eq_foldlM fun x => ih x) fun _ => rfl
    | str s u => cases u <;> rfl
    | nothing | bool | int | bytes | type | userClass | function => rfl
    | _ => exact bind_eq_bind (h.typeName_eq v) fun _ => rfl

/-- Hashing does not depend on what containers hold. -/
theorem hash_eq (v : Handle) : hash v a = hash v b := by
  have hdepth : depth a = depth b := by simp only [depth, h.capacity]
  exact bind_eq_bind hdepth fun n => h.hashWithin_eq n v

end Refilled

end Heap

/-! ## Filling -/

namespace Space

variable {s s' : Space} {d u : Handle}

/-- Filling a container, again and again. -/
theorem refilled_fill (a : Heap) (d : Handle) :
    Bears (fun s => Heap.Refilled a s.heap) (.fill d) := by
  intro s o f h hget hf
  refine ⟨(Arena.capacity_modify ..).trans h.capacity, fun v => ?_⟩
  have hread := h.read v
  rw [Arena.get?_modify hget]
  split
  · subst v
    rw [hget] at hread
    cases ha : a.get? d with
    | none =>
      rw [ha] at hread
      cases hread
    | some p =>
      rw [ha] at hread
      cases hread with
      | some hr => exact .some (hr.trans hf)
  · exact hread

end Space

end ObjectSpace
