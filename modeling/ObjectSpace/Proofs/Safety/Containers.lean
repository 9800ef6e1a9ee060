import ObjectSpace.Items
import ObjectSpace.Proofs.Run.Operators
import ObjectSpace.Proofs.Safety.Queries

/-!
# Calm changes of values

Where all stand, making and changing values and iterating is calm on live values. A container stays
what it is while steps are taken (`Heap.Kept.list`, `Heap.Kept.dict`, `Heap.Kept.set`), so it can be
changed as such later.
-/

namespace ObjectSpace

/-- The objects that can be iterated over. -/
def Object.Iterable : Object → Prop
  | list _ | tuple _ | str .. | bytes _ | range _ | dict _ | view .. | set _ | iter _ => True
  | _ => False

namespace Heap

variable {a b : Heap} {v : Handle}

theorem Kept.list (k : Kept a b) {items : Array Handle} (hv : a.Has v (.list items)) :
    ∃ items, b.Has v (.list items) := by
  obtain ⟨o', ho', he⟩ := k.has hv
  cases he.evolution <;> exact ⟨_, ho'⟩

theorem Kept.dict (k : Kept a b) {t : Table (Handle × Handle)} (hv : a.Has v (.dict t)) :
    ∃ t, b.Has v (.dict t) := by
  obtain ⟨o', ho', he⟩ := k.has hv
  cases he.evolution <;> exact ⟨_, ho'⟩

theorem Kept.set (k : Kept a b) {t : Table Handle} (hv : a.Has v (.set t)) :
    ∃ t, b.Has v (.set t) := by
  obtain ⟨o', ho', he⟩ := k.has hv
  cases he.evolution <;> exact ⟨_, ho'⟩

theorem Kept.file (k : Kept a b) {f : File} (hv : a.Has v (.file f)) :
    ∃ f, b.Has v (.file f) := by
  obtain ⟨o', ho', he⟩ := k.has hv
  cases he.evolution <;> exact ⟨_, ho'⟩

end Heap

namespace Space.Firm

open Trust

variable {E : Prop} {s s' : Space} (i : s.Firm) {d key u v w it : Handle} {o : Object}
  {name : String}

include i

/-! ## Values -/

theorem calm_alloc (o : Object) : Calm E s (alloc o) := by
  obtain ⟨h, old, heap, -, heq⟩ := alloc_placed i.sound.roomy o
  exact .of_ok heq

omit i in
theorem calm_nothing : Calm E s nothing := .state_bind (.pure _)

omit i in
theorem calm_boolean (b : Bool) : Calm E s (boolean b) := .state_bind (.pure _)

omit i in
theorem calm_isNone (h : Handle) : Calm E s (isNone h) := .state_bind (.pure _)

theorem calm_newCount (n : Nat) : Calm E s (newCount name n) :=
  .check_bind fun _ _ => i.calm_alloc _

theorem calm_newRange (start stop step : Int64) : Calm E s (newRange start stop step) := by
  unfold newRange
  split
  · exact .fatal _
  · exact i.calm_alloc _

/-- A value that is no context has a type. -/
theorem calm_typeOf (hv : s.heap.isLive v = true)
    (hc : ∀ c, s.heap.get? v ≠ some (.context c)) : Calm E s (typeOf v) := by
  obtain ⟨o, ho, -⟩ := i.sound.get? hv
  refine .get_bind ho ?_
  cases o with
  | context c => exact absurd ho (hc c)
  | userInstance => exact .pure _
  | _ => exact .state_bind (.pure _)

omit i in
theorem calm_update (ho : s.heap.get? v = some o) (f : Object → Object) : Calm E s (update v f) :=
  .of_ok (update_eq ho f)

omit i in
theorem calm_updateList {items : Array Handle} (ho : s.heap.get? v = some (.list items))
    (f : Array Handle → Array Handle) : Calm E s (updateList v f) :=
  .ask_bind_of_ok (Heap.list_of_get? ho) (calm_update ho _)

omit i in
theorem calm_updateDict {t : Table (Handle × Handle)} (ho : s.heap.get? d = some (.dict t))
    (f : Table (Handle × Handle) → Table (Handle × Handle)) : Calm E s (updateDict d f) :=
  .ask_bind_of_ok (Heap.dict_eq_ok.2 ho) (calm_update ho _)

omit i in
theorem calm_updateSet {t : Table Handle} (ho : s.heap.get? u = some (.set t))
    (f : Table Handle → Table Handle) : Calm E s (updateSet u f) :=
  .ask_bind_of_ok (Heap.set_eq_ok.2 ho) (calm_update ho _)

/-! ## Iteration -/

theorem calm_iter (hv : s.heap.isLive v = true) : Calm E s (iter v) := by
  obtain ⟨o, ho, -⟩ := i.sound.get? hv
  refine .get_bind ho ?_
  split
  · exact .pure _
  · split
    · exact i.calm_alloc _
    · exact .ask_bind (i.calm_typeName hv) fun _ _ => .fatal _

theorem calm_reversed (hv : s.heap.isLive v = true) : Calm E s (reversed v) := by
  obtain ⟨o, ho, -⟩ := i.sound.get? hv
  refine .get_bind ho ?_
  split
  · exact i.calm_alloc _
  · exact .ask_bind (i.calm_typeName hv) fun _ _ => .fatal _

theorem calm_next (hit : s.heap.isLive it = true) : Calm E s (next it) := by
  by_cases h : ∃ c, s.heap.get? it = some (.iter c)
  · obtain ⟨c, hc⟩ := h
    obtain ⟨r, s', hr⟩ := i.next_total hit hc
    exact .of_ok hr
  · refine .ask_bind_of_ok (Heap.depth_eq_ok.2 rfl) (.ask_bind ?_ fun c hc => ?_)
    · refine .bind (i.calm_get hit) fun o ho => ?_
      split
      · exact .pure _
      · exact i.calm_unimplemented hit
    · exact absurd ⟨c, get?_of_cursor hc⟩ h

/-- There is an iterator for a value, or it is refused. -/
theorem iter_ends (hv : s.heap.Has v o) :
    o.Iterable ∧ (∃ it s₁, iter v s = .ok it s₁) ∨
      ¬ o.Iterable ∧ ∃ name, iter v s = .error (.fatal (.notIterable name)) s := by
  rw [iter, get_bind_of_has hv]
  obtain ⟨name, hname⟩ := i.typeName_total hv.1
  cases o with
  | list | tuple | str | bytes | range | dict | view | set | iter => exact .inl ⟨trivial, _, _, rfl⟩
  | _ => exact .inr ⟨id, name, ask_bind_of_ok hname⟩

/-- Listing what a value gives ends; what is not iterable is refused before anything changes. -/
theorem collect_ends (hv : s.heap.Has v o) :
    o.Iterable ∧ (∃ items s', collect v s = .ok items s') ∨
      ¬ o.Iterable ∧ ∃ name, collect v s = .error (.fatal (.notIterable name)) s := by
  have hdrain : o.Iterable ∧ (∃ items s', (do
      let it ← iter v
      let steps ← Heap.stepsWithin (← Heap.depth) it
      drain it #[] (steps + 1) : Action (Array Handle)) s = .ok items s') ∨
      ¬ o.Iterable ∧ ∃ name, (do
        let it ← iter v
        let steps ← Heap.stepsWithin (← Heap.depth) it
        drain it #[] (steps + 1) : Action (Array Handle)) s =
          .error (.fatal (.notIterable name)) s := by
    refine (i.iter_ends hv).imp (fun ⟨ho, it, s₁, hit⟩ => ⟨ho, ?_⟩)
      fun ⟨ho, name, herror⟩ => ⟨ho, name, bind_of_error herror⟩
    have hr := (runs_iter (T := firmTrust) hv.1).result i
    rw [hit] at hr
    obtain ⟨l₁, hlive⟩ := hr
    have hlive := (ok_handle it).1 hlive
    obtain ⟨c, hc⟩ := iter_gives i.sound.roomy hit
    have i₁ : s₁.Firm := l₁.holds
    obtain ⟨m, hm, hl⟩ := i₁.stepsWithin_total hlive hc ((i₁.nested hlive).le (Nat.le_succ _))
    obtain ⟨items, s₂, h⟩ := i₁.drain_total hlive hl (Nat.lt_succ_self m) #[]
    refine ⟨items, s₂, (bind_of_ok hit).trans ?_⟩
    exact (ask_bind_of_ok (Heap.depth_eq_ok.2 rfl)).trans ((ask_bind_of_ok hm).trans h)
  rw [collect, get_bind_of_has hv]
  cases o with
  | list | tuple | set => exact .inl ⟨trivial, _, s, rfl⟩
  | _ => exact hdrain

theorem calm_collect (hv : s.heap.isLive v = true) : Calm E s (collect v) := by
  obtain ⟨o, ho, -⟩ := i.sound.get? hv
  rcases i.collect_ends ⟨hv, ho⟩ with ⟨-, items, s', h⟩ | ⟨-, name, h⟩
  · exact .of_ok h
  · refine ⟨fun e s' he => ?_⟩
    rw [h] at he
    obtain ⟨rfl, -⟩ := EStateM.Result.error.inj he
    exact .fatal _

/-! ## Dicts -/

theorem calm_dictInsert {t : Table (Handle × Handle)} (hd : s.heap.Has d (.dict t))
    (hkey : s.heap.isLive key = true) (value : Handle) : Calm E s (dictInsert d key value) := by
  refine .ask_bind (i.calm_dictPlace hd hkey) fun (hash, place) _ => ?_
  cases place with
  | some j => exact calm_updateDict hd.2 _
  | none => exact calm_updateDict hd.2 _

theorem calm_dictRemove {t : Table (Handle × Handle)} (hd : s.heap.Has d (.dict t))
    (hkey : s.heap.isLive key = true) : Calm E s (dictRemove d key) := by
  refine .ask_bind (i.calm_dictPlace hd hkey) fun (hash, place) _ => ?_
  cases place with
  | some j =>
    refine .ask_bind_of_ok (Heap.dict_eq_ok.2 hd.2) ?_
    exact .bind_of_ok (calm_updateDict hd.2 _) fun _ _ _ => .pure _
  | none => exact .pure _

theorem calm_insertPairs {t : Table (Handle × Handle)} (hd : s.heap.Has d (.dict t))
    {pairs : List (Handle × Handle)} (hp : firmTrust.Ok s pairs) :
    Calm E s (insertPairs d pairs) := by
  refine i.calm_forM fun (k, w) hkw s' l => ?_
  have hkw := (ok_list _).1 (l.ok hp) (k, w) hkw
  simp only [ok_pair, ok_handle] at hkw
  obtain ⟨t', hd'⟩ := l.kept.dict hd
  exact ⟨runs_dictInsert hd'.1 hkw.1 hkw.2, l.holds.calm_dictInsert hd' hkw.1 w⟩

theorem calm_pairOf (hv : s.heap.isLive v = true) : s.heap.Calm E (pairOf v) := by
  refine .bind (i.calm_get hv) fun o _ => ?_
  split
  · exact .pure _
  · exact .bind (i.calm_repr hv) fun _ _ => .fatal _

theorem calm_pairsOf (hv : s.heap.isLive v = true) : Calm E s (pairsOf v) := by
  obtain ⟨o, ho, -⟩ := i.sound.get? hv
  refine .get_bind ho ?_
  split
  · exact .pure _
  · refine i.calm_bind (runs_collect hv) (i.calm_collect hv) fun items s₁ _ l₁ hi => ?_
    refine l₁.holds.calm_mapM fun x hx s₂ l₂ => ?_
    have hx : s₂.heap.isLive x = true := l₂.ok_mono x ((ok_handle x).1 ((ok_array _).1 hi x hx))
    exact ⟨runs_ask (asks_pairOf hx), .ask (l₂.holds.calm_pairOf hx)⟩

theorem calm_dictUpdate {t : Table (Handle × Handle)} (hd : s.heap.Has d (.dict t))
    (hv : s.heap.isLive v = true) : Calm E s (dictUpdate d v) := by
  refine i.calm_bind (runs_pairsOf hv) (i.calm_pairsOf hv) fun pairs s₁ _ l₁ hp => ?_
  obtain ⟨t', hd'⟩ := l₁.kept.dict hd
  exact l₁.holds.calm_insertPairs hd' hp

/-! ## Sets -/

theorem calm_setInsert {t : Table Handle} (hu : s.heap.Has u (.set t))
    (hkey : s.heap.isLive key = true) : Calm E s (setInsert u key) := by
  refine .ask_bind (i.calm_setPlace hu hkey) fun (hash, place) _ => ?_
  cases place with
  | some j => exact .pure _
  | none => exact .bind_of_ok (calm_updateSet hu.2 _) fun _ _ _ => .pure _

theorem calm_setRemove {t : Table Handle} (hu : s.heap.Has u (.set t))
    (hkey : s.heap.isLive key = true) : Calm E s (setRemove u key) := by
  refine .ask_bind (i.calm_setPlace hu hkey) fun (hash, place) _ => ?_
  cases place with
  | some j => exact .bind_of_ok (calm_updateSet hu.2 _) fun _ _ _ => .pure _
  | none => exact .pure _

/-- Changing a set by each of some live values, one after the other. -/
theorem calm_setAll {t : Table Handle} (hu : s.heap.Has u (.set t)) {items : List Handle}
    (hi : ∀ x ∈ items, s.heap.isLive x = true) {change : Handle → Handle → Action Bool}
    (hr : ∀ (s' : Space) x, s'.heap.isLive u = true → s'.heap.isLive x = true →
      firmTrust.Runs s' (change u x))
    (hc : ∀ (s' : Space) (_ : s'.Firm) t x, s'.heap.Has u (.set t) → s'.heap.isLive x = true →
      Calm E s' (change u x)) :
    Calm E s (items.forM fun x => do
      let _ ← change u x) := by
  refine i.calm_forM fun x hx s' l => ?_
  obtain ⟨t', hu'⟩ := l.kept.set hu
  have hx := l.ok_mono x (hi x hx)
  refine ⟨runs_bind (hr s' x hu'.1 hx) fun _ _ _ _ => runs_pure (ok_plain _), ?_⟩
  exact .bind_of_ok (hc s' l.holds t' x hu' hx) fun _ _ _ => .pure _

theorem calm_newSet {items : List Handle} (hi : ∀ x ∈ items, s.heap.isLive x = true) :
    Calm E s (newSet items) := by
  refine i.calm_bind (runs_alloc_plain (.inl rfl) rfl) (i.calm_alloc _) fun u s₁ h₁ l₁ _ => ?_
  obtain ⟨g, old, heap, p, heq⟩ := alloc_placed i.sound.roomy (.set .empty)
  obtain ⟨rfl, rfl⟩ := EStateM.Result.ok.inj (heq.symm.trans h₁)
  refine .bind_of_ok ?_ fun _ _ _ => .pure _
  exact l₁.holds.calm_setAll p.has_self (fun x hx => l₁.ok_mono x (hi x hx))
    (fun _ _ hu hx => runs_setInsert hu hx) fun _ i' _ _ hu hx => i'.calm_setInsert hu hx

end Space.Firm

end ObjectSpace
