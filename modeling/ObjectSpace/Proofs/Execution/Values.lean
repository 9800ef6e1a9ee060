import ObjectSpace.Proofs.Execution.Startup
import ObjectSpace.Proofs.Value.Always

/-!
# New values in runs

An action that does no more than make a value is described by the object of that value (`Makes`):
its handle named nothing before, and everything else stays. In a run the value is live afterwards
(`LiveRun.making`).
-/

namespace ObjectSpace

namespace Space

variable {s s' : Space} {o : Object} {act act' : Action Handle}

/-- An action ends with a new value, whose object is `o`, and leaves everything else. -/
def Makes (s : Space) (act : Action Handle) (o : Object) : Prop :=
  ∃ v s', act s = .ok v s' ∧ s.heap.get? v = none ∧ Frame [] s s' ∧ s'.heap.Has v o

theorem Makes.of_eq (m : s.Makes act o) (h : act' s = act s) : s.Makes act' o := by
  rwa [Makes, h]

theorem makes_alloc (i : s.Steady)
    (hp : Placeable (fun heap g => heap.isLive g = true) s.heap o)
    (hc : ∀ c ∈ o.children, s.heap.isLive c = true) (ho : ¬ o.Writes) : s.Makes (alloc o) o := by
  obtain ⟨v, s', hs', f, hv⟩ := alloc_frame i hp hc ho
  exact ⟨v, s', hs', alloc_new i hs', f, hv⟩

theorem makes_newInt (i : s.Steady) (n : Int64) : s.Makes (newInt n) (.int n) :=
  makes_alloc i trivial nofun nofun

theorem makes_newStr (i : s.Steady) (text : String) : s.Makes (newStr text) (.str text none) :=
  makes_alloc i trivial nofun nofun

theorem makes_newBytes (i : s.Steady) (bs : Array UInt8) : s.Makes (newBytes bs) (.bytes bs) :=
  makes_alloc i trivial nofun nofun

theorem makes_newList (i : s.Steady) {items : Array Handle}
    (h : ∀ g ∈ items.toList, s.heap.isLive g = true) : s.Makes (newList items) (.list items) :=
  makes_alloc i trivial h nofun

theorem makes_newTuple (i : s.Steady) {items : Array Handle}
    (h : ∀ g ∈ items.toList, s.heap.isLive g = true) : s.Makes (newTuple items) (.tuple items) :=
  makes_alloc i trivial h nofun

theorem makes_newRange (i : s.Steady) (p : Progression) :
    s.Makes (newRange p.start p.stop p.step) (.range p) := by
  rw [newRange, dif_neg p.step_ne_zero]
  exact makes_alloc i trivial nofun nofun

/-- The handle of a Boolean. -/
def truth (s : Space) (b : Bool) : Handle := if b then s.trueValue else s.falseValue

end Space

open Space

variable {settings : Settings} {disk : Disk} {s s' : Space} {v : Handle} {o : Object}

/-- The Booleans stay where a step leads. -/
theorem Step.truth {ok : Heap → Handle → Prop} (st : Step ok s s') (b : Bool) :
    s'.truth b = s.truth b := by
  cases st <;> rfl

/-- In a run the Booleans are what they were made as. -/
theorem LiveRun.truth (r : LiveRun settings disk s) (b : Bool) :
    s.heap.Has (s.truth b) (.bool b) := by
  induction r with
  | start h => exact (create_new h).1.boolean b
  | @turn s t r ht ih =>
    have i := sound_of_liveRun r
    by_cases hc : t.Collects
    · -- the Booleans are roots of a collection
      obtain ⟨hsame, hroots⟩ := Turn.leave_collect hc s
      obtain ⟨-, htrue, hfalse, -⟩ := by simpa [permanentRoots] using hroots
      have heq : (t.leave s).truth b = s.truth b := by rw [Space.truth, Space.truth, htrue, hfalse]
      rw [heq]
      refine ⟨(i.leave t ht).roots _ (hroots ▸ ?_), (hsame.get?_eq _).trans ih.2⟩
      cases b <;> simp [permanentRoots, Space.truth]
    · cases t with
      | operation op =>
        have l := Trust.later_leave (T := liveTrust) i op ht
        have hkeep : ∀ s s', Step liveTrust.ok s s' → s.heap.Has (s.truth b) (.bool b) →
            s'.heap.Has (s'.truth b) (.bool b) := fun s s' st h =>
          st.truth b ▸ st.kept.fixed h fun _ h => h
        exact l.always i (I := fun s => s.heap.Has (s.truth b) (.bool b))
          (fun s s' _ => hkeep s s') ih
      | collectNow | collectIfDue => exact absurd trivial hc

/-- An operation that succeeds goes on with a run. -/
theorem LiveRun.after {α : Type} [Carries α] {a : α} (r : LiveRun settings disk s)
    (op : Operation) {act : Action α} (hop : op.run = Operation.returned act)
    (hg : ∀ h ∈ op.handles, s.heap.isLive h = true) (h : act s = .ok a s') :
    LiveRun settings disk s' := by
  have r' := r.turn (.operation op) hg
  rwa [leave_of_ok op hop h] at r'

/-- An operation that makes a value goes on with a run in which it is live. -/
theorem LiveRun.making (r : LiveRun settings disk s) (op : Operation) {act : Action Handle}
    (hop : op.run = Operation.returned act) (hg : ∀ h ∈ op.handles, s.heap.isLive h = true)
    (m : s.Makes act o) :
    ∃ v s', LiveRun settings disk s' ∧ Space.Frame [] s s' ∧ s'.heap.Has v o := by
  obtain ⟨v, s', hs', -, f, hv⟩ := m
  exact ⟨v, s', r.after op hop hg hs', f, hv⟩

/-- A new integer in a run. -/
theorem LiveRun.newInt (r : LiveRun settings disk s) (n : Int64) :
    ∃ v s', LiveRun settings disk s' ∧ Space.Frame [] s s' ∧ s'.heap.Has v (.int n) :=
  r.making (.newInt n) rfl nofun (makes_newInt (steady_of_liveRun r) n)

/-- A new text in a run. -/
theorem LiveRun.newStr (r : LiveRun settings disk s) (text : String) :
    ∃ v s', LiveRun settings disk s' ∧ Space.Frame [] s s' ∧ IsText s'.heap v text := by
  obtain ⟨v, s', r', f, hv⟩ :=
    r.making (.newStr text) rfl nofun (makes_newStr (steady_of_liveRun r) text)
  exact ⟨v, s', r', f, none, hv⟩

/-- New bytes in a run. -/
theorem LiveRun.newBytes (r : LiveRun settings disk s) (bs : Array UInt8) :
    ∃ b s', LiveRun settings disk s' ∧ Space.Frame [] s s' ∧ s'.heap.Has b (.bytes bs) :=
  r.making (.newBytes bs) rfl nofun (makes_newBytes (steady_of_liveRun r) bs)

/-- A new list in a run. -/
theorem LiveRun.newList (r : LiveRun settings disk s) {items : Array Handle}
    (h : ∀ g ∈ items.toList, s.heap.isLive g = true) :
    ∃ l s', LiveRun settings disk s' ∧ Space.Frame [] s s' ∧ s'.heap.Has l (.list items) :=
  r.making (.newList items) rfl h (makes_newList (steady_of_liveRun r) h)

end ObjectSpace
