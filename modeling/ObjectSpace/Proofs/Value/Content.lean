import ObjectSpace.Proofs.Heap.Query
import Mathlib.Data.List.Forall2

/-!
# Same content

What `Heap.sameContent` says of two objects when it answers `true`, as a relation (`Same`) with one
rule for each kind of value that has parts or a content. Comparing stops with an answer if
comparing the parts does.
-/

namespace ObjectSpace.Heap

variable {α : Type} {heap : Heap}

/-- Comparing with `related` gives `true`. -/
def Yes (heap : Heap) (related : Handle → Handle → Query Bool) (a b : Handle) : Prop :=
  related a b heap = .ok true

/-- Two objects have the same content, where `related` compares what they consist of. -/
inductive Same (heap : Heap) (related : Handle → Handle → Query Bool) : Object → Object → Prop
  | str (s : String) (x y : Option UInt64) : Same heap related (.str s x) (.str s y)
  | bytes (bs : Array UInt8) : Same heap related (.bytes bs) (.bytes bs)
  | list {xs ys : Array Handle} : List.Forall₂ (Yes heap related) xs.toList ys.toList →
      Same heap related (.list xs) (.list ys)
  | tuple {xs ys : Array Handle} : List.Forall₂ (Yes heap related) xs.toList ys.toList →
      Same heap related (.tuple xs) (.tuple ys)
  | dict {d e : Table (Handle × Handle)} : d.size = e.size →
      (∀ p ∈ d.toList, ∃ h, hash p.1 heap = .ok h ∧ ∃ q,
        (e.bucket h).findM? (fun q => related q.1 p.1) heap = .ok (some q) ∧
          Yes heap related p.2 q.2) →
      Same heap related (.dict d) (.dict e)
  | set {d e : Table Handle} : d.size = e.size →
      (∀ k ∈ d.toList, ∃ h, hash k heap = .ok h ∧
        (e.bucket h).anyM (fun k' => related k' k) heap = .ok true) →
      Same heap related (.set d) (.set e)
  | range {p q : Progression} : p.sameTerms q = true → Same heap related (.range p) (.range q)
  | boundMethod (r f : Handle) : Same heap related (.boundMethod r f) (.boundMethod r f)
  | number {x y : Object} {i : Int64} : x.asInt? = some i → y.asInt? = some i →
      Same heap related x y

theorem allM_eq_true {test : α → Query Bool} {l : List α} :
    l.allM test heap = .ok true ↔ ∀ x ∈ l, test x heap = .ok true := by
  induction l with
  | nil => exact ⟨fun _ => nofun, fun _ => rfl⟩
  | cons x l ih =>
    rw [List.forall_mem_cons, ← ih, List.allM, bind_eq_ok]
    constructor
    · rintro ⟨b, hb, h⟩
      cases b with
      | true => exact ⟨hb, h⟩
      | false => cases h
    · exact fun ⟨hb, h⟩ => ⟨true, hb, h⟩

theorem allPairs_eq_true {related : Handle → Handle → Query Bool} {xs ys : List Handle} :
    allPairs related xs ys heap = .ok true ↔ List.Forall₂ (Yes heap related) xs ys := by
  induction xs generalizing ys with
  | nil =>
    cases ys with
    | nil => exact ⟨fun _ => .nil, fun _ => rfl⟩
    | cons y ys => exact ⟨nofun, nofun⟩
  | cons x xs ih =>
    cases ys with
    | nil => exact ⟨nofun, nofun⟩
    | cons y ys =>
      rw [List.forall₂_cons, ← ih, allPairs, bind_eq_ok]
      constructor
      · rintro ⟨b, hb, h⟩
        cases b with
        | true => exact ⟨hb, h⟩
        | false => cases h
      · exact fun ⟨hb, h⟩ => ⟨true, hb, h⟩

theorem attempt_eq_some {q : Query α} {a : α} :
    attempt q heap = .ok (some a) ↔ q heap = .ok a := by
  unfold attempt
  rcases q heap with (d | v) | a <;> simp

/-- Sequences are compared element by element when they have the same length. -/
theorem sized_allPairs {related : Handle → Handle → Query Bool} {xs ys : Array Handle} :
    (if xs.size = ys.size then allPairs related xs.toList ys.toList else return false) heap =
      .ok true ↔ List.Forall₂ (Yes heap related) xs.toList ys.toList := by
  split
  · exact allPairs_eq_true
  · rename_i hne
    exact ⟨nofun, fun h => absurd h.length_eq (by simpa using hne)⟩

theorem numbers_eq_true {a b : Option Int64}
    (h : (match a, b with
      | some i, some j => return i == j
      | _, _ => return false : Query Bool) heap = .ok true) : ∃ i, a = some i ∧ b = some i := by
  rcases a with _ | i <;> rcases b with _ | j
  · cases h
  · cases h
  · cases h
  · obtain rfl : i = j := by simpa using h
    exact ⟨i, rfl, rfl⟩

theorem sameContent_eq_true {related : Handle → Handle → Query Bool} {x y : Object} :
    sameContent related x y heap = .ok true ↔ Same heap related x y := by
  constructor
  · intro h
    unfold sameContent at h
    split at h
    case h_1 s _ t _ =>
      obtain rfl : s = t := by simpa using h
      exact .str ..
    case h_2 s t =>
      obtain rfl : s = t := by simpa using h
      exact .bytes s
    case h_3 => exact .list (sized_allPairs.1 h)
    case h_4 => exact .tuple (sized_allPairs.1 h)
    case h_5 d e =>
      split at h
      · refine .dict ‹_› fun p hp => ?_
        have h := allM_eq_true.1 h p hp
        obtain ⟨o, ho, h⟩ := bind_eq_ok.1 h
        cases o with
        | none => cases h
        | some hash =>
          obtain ⟨q, hq, h⟩ := bind_eq_ok.1 h
          cases q with
          | none => cases h
          | some q => exact ⟨hash, attempt_eq_some.1 ho, q, hq, h⟩
      · cases h
    case h_6 d e =>
      split at h
      · refine .set ‹_› fun k hk => ?_
        have h := allM_eq_true.1 h k hk
        obtain ⟨o, ho, h⟩ := bind_eq_ok.1 h
        cases o with
        | none => cases h
        | some hash => exact ⟨hash, attempt_eq_some.1 ho, h⟩
      · cases h
    case h_7 => exact .range (by simpa using h)
    case h_8 r f r' f' =>
      obtain ⟨rfl, rfl⟩ : r = r' ∧ f = f' := by simpa using h
      exact .boundMethod r f
    case h_9 =>
      obtain ⟨i, hx, hy⟩ := numbers_eq_true h
      exact .number hx hy
  · intro h
    cases h with
    | str | bytes | boundMethod => simp [sameContent]
    | range hp => simp [sameContent, hp]
    | list h => exact sized_allPairs.2 h
    | tuple h => exact sized_allPairs.2 h
    | dict hs h =>
      simp only [sameContent, if_pos hs]
      refine allM_eq_true.2 fun p hp => ?_
      obtain ⟨hash, hh, q, hq, hv⟩ := h p hp
      exact bind_eq_ok.2 ⟨_, attempt_eq_some.2 hh, bind_eq_ok.2 ⟨_, hq, hv⟩⟩
    | set hs h =>
      simp only [sameContent, if_pos hs]
      refine allM_eq_true.2 fun k hk => ?_
      obtain ⟨hash, hh, hv⟩ := h k hk
      exact bind_eq_ok.2 ⟨_, attempt_eq_some.2 hh, hv⟩
    | number hx hy =>
      cases x <;> simp only [Object.asInt?, reduceCtorEq] at hx <;>
        cases y <;> simp only [Object.asInt?, reduceCtorEq] at hy <;>
        simp_all [sameContent, Object.asInt?]

/-- Comparing values that can be read comes to comparing their objects. -/
theorem equalWithin_succ {n : Nat} {a b : Handle} {x y : Object} (hx : heap.get? a = some x)
    (hy : heap.get? b = some y) : equalWithin (n + 1) a b heap =
      if a = b then .ok true else sameContent (equalWithin n) x y heap := by
  rw [equalWithin]
  split
  · rfl
  · simp only [bind, ReaderT.bind, Except.bind, get_eq_ok.2 hx, get_eq_ok.2 hy]

/-- Values are equal as the contents of their objects are, when these are compared without going
deeper. -/
theorem equal_of_sameContent {a b : Handle} {x y : Object} {r : Bool} (hx : heap.get? a = some x)
    (hy : heap.get? b = some y) (h : ∀ related, sameContent related x y heap = .ok r)
    (hr : a = b → r = true) : equal a b heap = .ok r := by
  rw [equal]
  refine bind_eq_ok.2 ⟨_, depth_eq_ok.2 rfl, ?_⟩
  rw [equalWithin_succ hx hy]
  split
  · rw [hr ‹_›]
  · exact h _

end ObjectSpace.Heap
