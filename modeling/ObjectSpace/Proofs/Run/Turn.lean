import ObjectSpace.Proofs.Collector.Collection
import ObjectSpace.Proofs.Run.Operation

/-!
# Turns

A run is a sequence of turns, each an operation or a collection. A turn may succeed or stop half-way
with a diagnostic or a violation, and the run goes on from the space as the turn left it.

A collection changes nothing but liveness bits and counters, also when it stops (`leave_collect`).
-/

namespace ObjectSpace

/-- A turn of a run: an operation or a collection. -/
inductive Turn where
  | operation (op : Operation)
  | collectNow (ctx : Handle) (inFlight : Option Handle)
  | collectIfDue (ctx : Handle) (inFlight : Option Handle)

namespace Space

/-- The space that a computation leaves, whether it succeeded or stopped half-way. -/
def leftBy {α : Type} : EStateM.Result Halt Space α → Space
  | .ok _ s => s
  | .error _ s => s

variable {α : Type} [Carries α] {s s' : Space}

theorem returned_eq_ok {act : Action α} {a : α} (h : act s = .ok a s') :
    Operation.returned act s = .ok (Carries.handles a) s' := by
  simp only [Operation.returned, Functor.map, EStateM.map, h]

theorem exists_of_returned {act : Action α} {l : List Handle}
    (h : Operation.returned act s = .ok l s') : ∃ a, act s = .ok a s' ∧ Carries.handles a = l := by
  simp only [Operation.returned, Functor.map, EStateM.map] at h
  cases hact : act s with
  | ok a t =>
    rw [hact] at h
    obtain ⟨rfl, rfl⟩ := EStateM.Result.ok.inj h
    exact ⟨a, rfl, rfl⟩
  | error e t =>
    rw [hact] at h
    cases h

theorem leftBy_returned (act : Action α) (s : Space) :
    leftBy (Operation.returned act s) = leftBy (act s) := by
  simp only [Operation.returned, Functor.map, EStateM.map]
  cases act s <;> rfl

theorem collectIfDue_eq (ctx : Handle) (inFlight : Option Handle) (s : Space) :
    collectIfDue ctx inFlight s =
      if s.pending < s.threshold then .ok false s
      else match collectNow ctx inFlight s with
        | .ok _ s' => .ok true s'
        | .error e s' => .error e s' := by
  simp only [collectIfDue, bind, EStateM.bind, get_apply]
  split
  · rfl
  · simp only [EStateM.bind]
    cases collectNow ctx inFlight s <;> rfl

end Space

namespace Turn

/-- The handles that a turn is given. -/
def handles : Turn → List Handle
  | operation op => op.handles
  | collectNow ctx inFlight | collectIfDue ctx inFlight => ctx :: inFlight.toList

/-- Take a turn, giving the handles that it returns. -/
def run : Turn → Action (List Handle)
  | operation op => op.run
  | collectNow ctx inFlight => Operation.returned (Space.collectNow ctx inFlight)
  | collectIfDue ctx inFlight => Operation.returned (Space.collectIfDue ctx inFlight)

/-- The space after a turn. -/
def leave (t : Turn) (s : Space) : Space := Space.leftBy (t.run s)

/-- Whether a turn is a collection. -/
def Collects : Turn → Prop
  | operation _ => False
  | collectNow .. | collectIfDue .. => True

theorem leave_collectNow (ctx : Handle) (inFlight : Option Handle) (s : Space) :
    Arena.SameObjects s.heap (Space.leftBy (Space.collectNow ctx inFlight s)).heap ∧
      (Space.leftBy (Space.collectNow ctx inFlight s)).permanentRoots = s.permanentRoots := by
  have hsame := (Arena.sameObjects_clearMarks s.heap).trans
    (Heap.sameObjects_markFrom s.heap.clearMarks 0 (s.roots ctx inFlight).reverse)
  rcases hs : (Heap.markFrom s.heap.clearMarks 0 (s.roots ctx inFlight).reverse).stale with _ | h
  · rw [Space.collectNow_eq ctx inFlight s rfl hs]
    exact ⟨hsame, rfl⟩
  · rw [Space.collectNow_eq_error ctx inFlight s rfl hs]
    exact ⟨hsame, rfl⟩

/-- What holds, and after every forced collection, holds after a turn that collects. -/
theorem leave_collect_of {P : Space → Prop} {t : Turn} (ht : t.Collects) {s : Space} (hs : P s)
    (hnow : ∀ ctx inFlight, P (Space.leftBy (Space.collectNow ctx inFlight s))) :
    P (t.leave s) := by
  cases t with
  | operation op => exact ht.elim
  | collectNow ctx inFlight =>
    rw [leave, run, Space.leftBy_returned]
    exact hnow ctx inFlight
  | collectIfDue ctx inFlight =>
    rw [leave, run, Space.leftBy_returned, Space.collectIfDue_eq]
    have hc := hnow ctx inFlight
    split
    · exact hs
    · split
      · rename_i hcollect
        rw [hcollect] at hc
        exact hc
      · rename_i hcollect
        rw [hcollect] at hc
        exact hc

/-- A collection leaves the objects and the roots as they are. -/
theorem leave_collect {t : Turn} (ht : t.Collects) (s : Space) :
    Arena.SameObjects s.heap (t.leave s).heap ∧
      (t.leave s).permanentRoots = s.permanentRoots :=
  leave_collect_of (P := fun s' => Arena.SameObjects s.heap s'.heap ∧
    s'.permanentRoots = s.permanentRoots) ht ⟨.refl _, rfl⟩
    fun ctx inFlight => leave_collectNow ctx inFlight s

/-- A collection leaves the global context and the disk. -/
theorem leave_collect_rest {t : Turn} (ht : t.Collects) (s : Space) :
    (t.leave s).globals = s.globals ∧ (t.leave s).disk = s.disk := by
  refine leave_collect_of (P := fun s' => s'.globals = s.globals ∧ s'.disk = s.disk) ht
    ⟨rfl, rfl⟩ fun ctx inFlight => ?_
  cases hs : (Heap.markFrom s.heap.clearMarks 0 (s.roots ctx inFlight).reverse).stale with
  | none =>
    rw [Space.collectNow_eq ctx inFlight s rfl hs]
    exact ⟨rfl, rfl⟩
  | some h =>
    rw [Space.collectNow_eq_error ctx inFlight s rfl hs]
    exact ⟨rfl, rfl⟩

/-- A collection that completes was not due, or it went through. -/
theorem of_collects {t : Turn} (ht : t.Collects) {s s' : Space} {hs : List Handle}
    (h : t.run s = .ok hs s') :
    s' = s ∨ ∃ ctx inFlight, Space.collectNow ctx inFlight s = .ok () s' := by
  cases t with
  | operation op => exact ht.elim
  | collectNow ctx inFlight =>
    obtain ⟨⟨⟩, h, -⟩ := Space.exists_of_returned h
    exact .inr ⟨ctx, inFlight, h⟩
  | collectIfDue ctx inFlight =>
    obtain ⟨b, h, -⟩ := Space.exists_of_returned h
    rw [Space.collectIfDue_eq] at h
    split at h
    · cases h
      exact .inl rfl
    · cases hc : Space.collectNow ctx inFlight s with
      | ok u s₁ =>
        rw [hc] at h
        cases h
        exact .inr ⟨ctx, inFlight, hc⟩
      | error e s₁ =>
        rw [hc] at h
        cases h

end Turn

namespace Space

variable {α : Type} [Carries α] {s s' : Space}

/-- A turn that succeeds leaves the space that its action does. -/
theorem leave_of_ok (op : Operation) {act : Action α} {a : α}
    (hop : op.run = Operation.returned act) (h : act s = .ok a s') :
    (Turn.operation op).leave s = s' := by
  rw [Turn.leave, Turn.run, hop, leftBy_returned, h]
  rfl

end Space

end ObjectSpace
