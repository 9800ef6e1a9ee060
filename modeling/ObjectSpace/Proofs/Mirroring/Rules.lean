import ObjectSpace.Proofs.Arena.Twins
import ObjectSpace.Proofs.Run.Live

/-!
# Computations in twin spaces

Two spaces are `Twins` when a computation that knows certain handles cannot tell them apart. They
differ in objects that nothing else refers to: each may have its own in one size class, and some
that both have may differ in content. What is placed in any other class gets the same handle in
both.

**Rules.** `Reflect s t q q'` says that two queries give the same answer or the same diagnostic, and
`Mirror s t act act'` that two actions do and leave twins behind. A violation on either side is let
through: the bound on the depth of values is that of a space, so where one computation follows a
value without end, the other may do so later or come to an end. The two computations of a rule
differ in these bounds only.
-/

namespace ObjectSpace

/-! ## Objects apart -/

/-- Nothing but themselves refers to the live objects behind some handles. -/
structure Space.Apart (J : List Handle) (s : Space) : Prop where
  sound : s.Sound
  live : ∀ j ∈ J, s.heap.isLive j = true
  roots : ∀ g ∈ s.permanentRoots, g ∉ J
  closed : ∀ v o, s.heap.Has v o → v ∉ J → ∀ c ∈ o.children, c ∉ J

namespace Space.Apart

variable {J : List Handle} {s s' : Space} {h : Handle} {o : Object} (i : s.Apart J)

include i

/-- A live object that refers to objects not apart keeps them so when it is placed. -/
theorem placed {c : SizeClass} {old : Option Object} (p : Arena.Placed s.heap c o h old s'.heap)
    (hc : ∀ g ∈ o.children, s.heap.isLive g = true ∧ g ∉ J)
    (hr : ∀ g ∈ s'.permanentRoots, g ∈ s.permanentRoots) : s'.Apart J := by
  have hlive : ∀ g, s.heap.isLive g = true → s'.heap.isLive g = true := fun g hg =>
    p.isLive_iff.2 (.inr hg)
  refine ⟨⟨p.roomy i.sound.roomy, i.sound.placed p fun g hg => (hc g hg).1, fun g hg => ?_⟩,
    fun j hj => hlive j (i.live j hj), fun g hg => i.roots g (hr g hg), fun v w hv hvJ => ?_⟩
  · exact hlive g (i.sound.roots g (hr g hg))
  · rcases p.of_has hv with ⟨-, rfl⟩ | hv
    · exact fun g hg => (hc g hg).2
    · exact i.closed v w hv hvJ

theorem modify {f : Object → Object} (ho : s.heap.get? h = some o)
    (hc : ∀ g ∈ (f o).children, s.heap.isLive g = true ∧ g ∉ J) :
    Apart J { s with heap := s.heap.modify h f } := by
  have hlive : ∀ g, (s.heap.modify h f).isLive g = s.heap.isLive g := Arena.isLive_modify ho f
  refine ⟨⟨i.sound.roomy.modify h f, i.sound.modify ho fun g hg => (hc g hg).1, fun g hg => ?_⟩,
    fun j hj => (hlive j).trans (i.live j hj), i.roots, fun v w hv hvJ => ?_⟩
  · exact (hlive g).trans (i.sound.roots g hg)
  · have hget := hv.2
    rw [Arena.get?_modify ho] at hget
    split at hget
    · obtain rfl := Option.some.inj hget
      exact fun g hg => (hc g hg).2
    · exact i.closed v w ⟨(hlive v).symm.trans hv.1, hget⟩ hvJ

omit i in
/-- The objects apart stay so when nothing but roots changes, and the roots are none of them. -/
theorem of_roots (i : s.Apart J) (hheap : s'.heap = s.heap)
    (hr : ∀ g ∈ s'.permanentRoots, s.heap.isLive g = true ∧ g ∉ J) : s'.Apart J := by
  refine ⟨⟨hheap ▸ i.sound.roomy, hheap ▸ i.sound.closed, fun g hg => hheap ▸ (hr g hg).1⟩,
    hheap ▸ i.live, fun g hg => (hr g hg).2, hheap ▸ i.closed⟩

end Space.Apart

/-- The trust in live handles other than those of objects apart. -/
def apartTrust (J : List Handle) : Trust where
  holds := Space.Apart J
  ok heap h := heap.isLive h = true ∧ h ∉ J
  roomy i := i.sound.roomy
  root i hh := ⟨i.sound.roots _ hh, i.roots _ hh⟩
  child i hh ho hc := ⟨liveTrust.child i.sound hh.1 ho hc, i.closed _ _ ⟨hh.1, ho⟩ hh.2 _ hc⟩
  step := by
    intro s s' i st
    have hroot : ∀ g ∈ s'.permanentRoots, s.heap.isLive g = true ∧ g ∉ J := fun g hg =>
      (st.root hg).elim (fun hg => ⟨i.sound.roots g hg, i.roots g hg⟩) id
    cases st with
    | alloc p _ hc => exact i.placed p hc fun _ => id
    | update ho _ _ hc => exact i.modify ho hc
    | _ => exact i.of_roots rfl hroot
  ok_step i st hh := ⟨st.kept.live hh.1, hh.2⟩
  ok_placed := by
    intro s c o h old heap i p
    refine ⟨p.isLive_self, fun hj => ?_⟩
    obtain ⟨o', ho', -⟩ := i.sound.get? (i.live h hj)
    rw [p.get?_new] at ho'
    cases ho'

/-- All handles in a result are live, and none is that of an object apart. -/
abbrev Known {α : Type} [Carries α] (J : List Handle) (s : Space) (a : α) : Prop :=
  (apartTrust J).Ok s a

theorem known_handle {J : List Handle} {s : Space} {v : Handle} :
    Known J s v ↔ s.heap.isLive v = true ∧ v ∉ J :=
  Trust.ok_handle v

/-! ## Objects in their classes -/

/-- The size class of bound methods and of lists, bytes and ranges. -/
def Space.wide : SizeClass := (Object.list #[]).sizeClass

/-- The objects of the other classes. -/
def Object.Narrow : Object → Prop
  | .boundMethod .. | .list _ | .bytes _ | .range _ => False
  | _ => True

theorem Object.narrow_iff {o : Object} : o.Narrow ↔ o.sizeClass ≠ Space.wide := by
  cases o with
  | boundMethod | list | bytes | range => exact ⟨False.elim, fun h => h rfl⟩
  | _ => exact ⟨fun _ => of_decide_eq_false rfl, fun _ => trivial⟩

/-- Every object lies in the class of its size. -/
def Heap.Shelved (heap : Heap) : Prop :=
  ∀ c i x o, heap.cellAt? c i = some x → x.value = some o → o.sizeClass = c

namespace Heap.Shelved

variable {a b : Heap} {o : Object} {h : Handle} {old : Option Object}

theorem placed (hs : a.Shelved) (p : Arena.Placed a o.sizeClass o h old b) : b.Shelved := by
  intro d i x w hx hw
  by_cases hp : d = o.sizeClass ∧ i = a.position h
  · obtain ⟨rfl, rfl⟩ := hp
    rw [p.here, Option.some.injEq] at hx
    rw [← hx, Option.some.injEq] at hw
    rw [← hw]
  · rcases p.elsewhere d i hp with he | ⟨-, he⟩
    · exact hs d i x w (he ▸ hx) hw
    · rw [hx, Option.some.injEq] at he
      rw [he] at hw
      cases hw

theorem modify (hs : a.Shelved) {f : Object → Object} (ho : a.get? h = some o)
    (hf : (f o).sizeClass = o.sizeClass) : Heap.Shelved (a.modify h f) := by
  intro d i x w hx hw
  rw [Arena.cellAt?_modify] at hx
  split at hx
  · rename_i hp
    obtain ⟨rfl, rfl⟩ := hp
    obtain ⟨y, hy, hyv⟩ := Arena.get?_eq_some.1 ho
    rw [Arena.cellAt?_of_cell? hy, Option.map_some, Option.some.injEq] at hx
    rw [← hx, hyv, Option.map_some, Option.some.injEq] at hw
    rw [← hw, hf]
    exact hs _ _ y o (Arena.cellAt?_of_cell? hy) hyv
  · exact hs d i x w hx hw

/-- No file is dropped for an object of the class of bound methods. -/
theorem settle (hs : a.Shelved) (p : Arena.Placed a Space.wide o h old b) (disk : Disk) :
    Space.settle old disk = disk := by
  have hold := p.dropped
  unfold Space.settle
  split
  · rename_i path binary w
    rcases hat : a.cellAt? Space.wide (a.position h) with _ | y
    · rw [hat] at hold
      cases hold
    · rw [hat, Option.getD_some] at hold
      exact absurd (hs _ _ y _ hat hold.symm) (show ¬ (0 : SizeClass) = Space.wide by decide)
  · rfl

end Heap.Shelved

/-! ## Twins -/

namespace Space

/-- Spaces that cannot be told apart by the handles that are known, as long as nothing is placed in
the class where they differ. -/
structure Twins (J : List Handle) (spare : SizeClass → Nat → Prop) (s t : Space) : Prop where
  apart : s.Apart J
  roomy : t.heap.Roomy
  shelved : s.heap.Shelved ∧ t.heap.Shelved
  arena : s.heap.Twins wide spare t.heap
  has : ∀ v o, Known J s v → s.heap.get? v = some o → t.heap.Has v o
  noneValue : t.noneValue = s.noneValue
  trueValue : t.trueValue = s.trueValue
  falseValue : t.falseValue = s.falseValue
  disk : t.disk = s.disk
  output : t.output = s.output

end Space

/-! ## Queries -/

/-- The same answer or the same diagnostic, or a violation on one side. -/
inductive Concur {α : Type} (P : α → Prop) : Except Halt α → Except Halt α → Prop
  | ok {a : α} : P a → Concur P (.ok a) (.ok a)
  | fatal (d : Diagnostic) : Concur P (.error (.fatal d)) (.error (.fatal d))
  | left (e : Violation) (y : Except Halt α) : Concur P (.error (.violation e)) y
  | right (x : Except Halt α) (e : Violation) : Concur P x (.error (.violation e))

/-- Two queries concur, and their answer is known. -/
def Reflect {α : Type} [Carries α] (J : List Handle) (s t : Space) (q q' : Query α) : Prop :=
  Concur (Known J s) (q s.heap) (q' t.heap)

section Reflect

variable {α β γ : Type} [Carries α] [Carries β] {J : List Handle}
  {spare : SizeClass → Nat → Prop} {s t : Space} {q q' : Query α} {f f' : α → Query β}
  {v : Handle}

theorem reflect_pure {a : α} (ha : Known J s a) : Reflect J s t (pure a) (pure a) := .ok ha

theorem reflect_fatal (d : Diagnostic) : Reflect J s t (fatal d : Query α) (fatal d) := .fatal d

theorem reflect_violate (e : Violation) (q' : Query α) : Reflect J s t (violate e) q' := .left e _

theorem reflect_violated (q : Query α) (e : Violation) : Reflect J s t q (violate e) := .right _ e

theorem reflect_bind (hq : Reflect J s t q q')
    (hf : ∀ a, q s.heap = .ok a → Known J s a → Reflect J s t (f a) (f' a)) :
    Reflect J s t (q >>= f) (q' >>= f') := by
  simp only [Reflect, bind, ReaderT.bind, Except.bind] at hq hf ⊢
  generalize q s.heap = x at hq hf
  generalize q' t.heap = y at hq
  cases hq with
  | ok ha => exact hf _ rfl ha
  | fatal d => exact .fatal d
  | left e y => exact .left e _
  | right x e => exact .right _ e

theorem reflect_ite {c : Prop} [Decidable c] {p p' : Query α} (hp : c → Reflect J s t p p')
    (hq : ¬ c → Reflect J s t q q') :
    Reflect J s t (if c then p else q) (if c then p' else q') := by
  split
  · exact hp ‹_›
  · exact hq ‹_›

/-- Going on at a position that has been checked. -/
theorem reflect_inRange {c : Prop} [Decidable c] {e : Violation} {f f' : PUnit → Query α}
    (hf : c → Reflect J s t (f ⟨⟩) (f' ⟨⟩)) :
    Reflect J s t (if c then f ⟨⟩ else violate e >>= f) (if c then f' ⟨⟩ else violate e >>= f') :=
  reflect_ite hf fun _ => .left e _

omit [Carries α] in
/-- The bound on depths is the one thing that twins read otherwise. -/
theorem reflect_depth {f f' : Nat → Query β} (hf : ∀ n n', Reflect J s t (f n) (f' n')) :
    Reflect J s t (Heap.depth >>= f) (Heap.depth >>= f') :=
  hf _ _

theorem reflect_get (w : s.Twins J spare t) (hv : Known J s v) :
    Reflect J s t (Heap.get v) (Heap.get v) := by
  obtain ⟨o, ho, hlive⟩ := w.apart.sound.get? (known_handle.1 hv).1
  have hs : Heap.get v s.heap = .ok o := Heap.get_eq_ok.2 ho
  have ht : Heap.get v t.heap = .ok o := Heap.get_eq_ok.2 (w.has v o hv ho).2
  rw [Reflect, hs, ht]
  exact .ok fun c hc => (apartTrust J).child w.apart (known_handle.1 hv) ho hc

theorem reflect_get_bind (w : s.Twins J spare t) (hv : Known J s v) {f f' : Object → Query β}
    (hf : ∀ o, s.heap.get? v = some o → Known J s o → Reflect J s t (f o) (f' o)) :
    Reflect J s t (Heap.get v >>= f) (Heap.get v >>= f') :=
  reflect_bind (reflect_get w hv) fun o ho => hf o (Heap.get_eq_ok.1 ho)

theorem reflect_attempt (h : Reflect J s t q q') :
    Reflect J s t (Heap.attempt q) (Heap.attempt q') := by
  simp only [Reflect, Heap.attempt] at h ⊢
  generalize q s.heap = x at h
  generalize q' t.heap = y at h
  cases h with
  | ok ha => exact .ok ((Trust.ok_some _).2 ha)
  | fatal d => exact .ok Trust.ok_none
  | left e y => exact .left e _
  | right x e => exact .right _ e

section Lists

variable {l : List γ}

theorem reflect_mapM {f f' : γ → Query β} (hf : ∀ x ∈ l, Reflect J s t (f x) (f' x)) :
    Reflect J s t (l.mapM f) (l.mapM f') := by
  induction l with
  | nil =>
    rw [List.mapM_nil, List.mapM_nil]
    exact reflect_pure (by simp)
  | cons x l ih =>
    rw [List.mapM_cons, List.mapM_cons]
    refine reflect_bind (hf x List.mem_cons_self) fun b _ hb => ?_
    refine reflect_bind (ih fun y hy => hf y (List.mem_cons_of_mem x hy)) fun bs _ hbs => ?_
    exact reflect_pure (by simpa using ⟨hb, by simpa using hbs⟩)

theorem reflect_foldlM {f f' : β → γ → Query β} {b : β} (hb : Known J s b)
    (hf : ∀ b, Known J s b → ∀ x ∈ l, Reflect J s t (f b x) (f' b x)) :
    Reflect J s t (l.foldlM f b) (l.foldlM f' b) := by
  induction l generalizing b with
  | nil => exact reflect_pure hb
  | cons x l ih =>
    rw [List.foldlM_cons, List.foldlM_cons]
    exact reflect_bind (hf b hb x List.mem_cons_self) fun b' _ hb' =>
      ih hb' fun c hc y hy => hf c hc y (List.mem_cons_of_mem x hy)

theorem reflect_allM {f f' : γ → Query Bool} (hf : ∀ x ∈ l, Reflect J s t (f x) (f' x)) :
    Reflect J s t (l.allM f) (l.allM f') := by
  induction l with
  | nil => exact reflect_pure (Trust.ok_plain _)
  | cons x l ih =>
    refine reflect_bind (hf x List.mem_cons_self) fun b _ _ => ?_
    cases b with
    | true => exact ih fun y hy => hf y (List.mem_cons_of_mem x hy)
    | false => exact reflect_pure (Trust.ok_plain _)

theorem reflect_anyM {f f' : γ → Query Bool} (hf : ∀ x ∈ l, Reflect J s t (f x) (f' x)) :
    Reflect J s t (l.anyM f) (l.anyM f') := by
  induction l with
  | nil => exact reflect_pure (Trust.ok_plain _)
  | cons x l ih =>
    refine reflect_bind (hf x List.mem_cons_self) fun b _ _ => ?_
    cases b with
    | true => exact reflect_pure (Trust.ok_plain _)
    | false => exact ih fun y hy => hf y (List.mem_cons_of_mem x hy)

theorem reflect_findM? {l : List α} {f f' : α → Query Bool} (hl : Known J s l)
    (hf : ∀ x ∈ l, Reflect J s t (f x) (f' x)) : Reflect J s t (l.findM? f) (l.findM? f') := by
  induction l with
  | nil => exact reflect_pure Trust.ok_none
  | cons x l ih =>
    have hl := List.forall_mem_cons.1 ((Trust.ok_list _).1 hl)
    refine reflect_bind (hf x List.mem_cons_self) fun b _ _ => ?_
    cases b with
    | true => exact reflect_pure ((Trust.ok_some x).2 hl.1)
    | false =>
      exact ih ((Trust.ok_list l).2 hl.2) fun y hy => hf y (List.mem_cons_of_mem x hy)

theorem reflect_findPlace {test test' : γ → Query Bool}
    (h : ∀ x ∈ l, Reflect J s t (test x) (test' x)) :
    Reflect J s t (Heap.findPlace test l) (Heap.findPlace test' l) := by
  induction l with
  | nil => exact reflect_pure (Trust.ok_plain _)
  | cons x l ih =>
    refine reflect_bind (h x List.mem_cons_self) fun b _ _ => ?_
    cases b with
    | true => exact reflect_pure (Trust.ok_plain _)
    | false =>
      refine reflect_bind (ih fun y hy => h y (List.mem_cons_of_mem x hy)) fun place _ _ => ?_
      exact reflect_pure (Trust.ok_plain _)

theorem reflect_allPairs {related related' : Handle → Handle → Query Bool} {xs ys : List Handle}
    (h : ∀ x ∈ xs, ∀ y ∈ ys, Reflect J s t (related x y) (related' x y)) :
    Reflect J s t (Heap.allPairs related xs ys) (Heap.allPairs related' xs ys) := by
  induction xs generalizing ys with
  | nil => cases ys <;> exact reflect_pure (Trust.ok_plain _)
  | cons x xs ih =>
    cases ys with
    | nil => exact reflect_pure (Trust.ok_plain _)
    | cons y ys =>
      refine reflect_bind (h x List.mem_cons_self y List.mem_cons_self) fun b _ _ => ?_
      refine reflect_ite (fun _ => ?_) fun _ => reflect_pure (Trust.ok_plain _)
      exact ih fun x' hx y' hy => h x' (List.mem_cons_of_mem x hx) y' (List.mem_cons_of_mem y hy)

end Lists

end Reflect

/-! ## Actions -/

/-- What two computations have led to: twins, where what was live is live. -/
structure Onward (J : List Handle) (spare : SizeClass → Nat → Prop) (s s' t' : Space) : Prop where
  twins : s'.Twins J spare t'
  live : ∀ h, s.heap.isLive h = true → s'.heap.isLive h = true

/-- The same result or the same diagnostic in spaces that are twins, or a violation on one side. -/
inductive Echo {α : Type} [Carries α] (J : List Handle) (spare : SizeClass → Nat → Prop)
    (s : Space) : EStateM.Result Halt Space α → EStateM.Result Halt Space α → Prop
  | ok {a : α} {s' t' : Space} : Onward J spare s s' t' → Known J s' a →
      Echo J spare s (.ok a s') (.ok a t')
  | fatal (d : Diagnostic) {s' t' : Space} : Onward J spare s s' t' →
      Echo J spare s (.error (.fatal d) s') (.error (.fatal d) t')
  | left (e : Violation) (s' : Space) (y : EStateM.Result Halt Space α) :
      Echo J spare s (.error (.violation e) s') y
  | right (x : EStateM.Result Halt Space α) (e : Violation) (t' : Space) :
      Echo J spare s x (.error (.violation e) t')

/-- Two actions do the same and leave twins behind. -/
def Mirror {α : Type} [Carries α] (J : List Handle) (spare : SizeClass → Nat → Prop)
    (s t : Space) (act act' : Action α) : Prop :=
  Echo J spare s (act s) (act' t)

section Mirror

variable {α β γ : Type} [Carries α] [Carries β] {J : List Handle}
  {spare : SizeClass → Nat → Prop} {s t s' t' s'' t'' : Space} {act act' : Action α}
  {f f' : α → Action β}

namespace Onward

theorem refl (w : s.Twins J spare t) : Onward J spare s s t := ⟨w, fun _ h => h⟩

theorem trans (l : Onward J spare s s' t') (m : Onward J spare s' s'' t'') :
    Onward J spare s s'' t'' :=
  ⟨m.twins, fun h hh => m.live h (l.live h hh)⟩

/-- What is known stays known. -/
theorem known (l : Onward J spare s s' t') {a : α} (ha : Known J s a) : Known J s' a :=
  fun h hh => ⟨l.live h (ha h hh).1, (ha h hh).2⟩

end Onward

theorem mirror_pure (w : s.Twins J spare t) {a : α} (ha : Known J s a) :
    Mirror J spare s t (pure a) (pure a) := .ok (.refl w) ha

theorem mirror_fatal (w : s.Twins J spare t) (d : Diagnostic) :
    Mirror J spare s t (fatal d : Action α) (fatal d) := .fatal d (.refl w)

theorem mirror_violate (e : Violation) (act' : Action α) :
    Mirror J spare s t (violate e) act' := .left e s _

theorem mirror_violated (act : Action α) (e : Violation) :
    Mirror J spare s t act (violate e) := .right _ e t

theorem mirror_bind (h : Mirror J spare s t act act')
    (hf : ∀ a s' t', Onward J spare s s' t' → Known J s' a → Mirror J spare s' t' (f a) (f' a)) :
    Mirror J spare s t (act >>= f) (act' >>= f') := by
  simp only [Mirror, bind, EStateM.bind] at h ⊢
  generalize act s = x at h
  generalize act' t = y at h
  cases h with
  | @ok a s' t' l ha =>
    have h' := hf a s' t' l ha
    dsimp only [Mirror] at h' ⊢
    generalize f a s' = x at h'
    generalize f' a t' = y at h'
    cases h' with
    | ok m hb => exact .ok (l.trans m) hb
    | fatal d m => exact .fatal d (l.trans m)
    | left e s'' y => exact .left e s'' y
    | right x e t'' => exact .right x e t''
  | fatal d l => exact .fatal d l
  | left e s' y => exact .left e s' _
  | right x e t' => exact .right _ e t'

omit [Carries α] in
theorem mirror_pure_bind {a : α} (h : Mirror J spare s t (f a) (f' a)) :
    Mirror J spare s t (pure a >>= f) (pure a >>= f') := h

theorem mirror_state_bind {f : Space → Action α} (h : Mirror J spare s t (f s) (f t)) :
    Mirror J spare s t ((get : Action Space) >>= f) ((get : Action Space) >>= f) := h

theorem mirror_ite {c : Prop} [Decidable c] {p p' q q' : Action α}
    (hp : c → Mirror J spare s t p p') (hq : ¬ c → Mirror J spare s t q q') :
    Mirror J spare s t (if c then p else q) (if c then p' else q') := by
  split
  · exact hp ‹_›
  · exact hq ‹_›

/-- Going on unless a condition stops the action with a diagnostic. -/
theorem mirror_guard (w : s.Twins J spare t) {c : Prop} [Decidable c] {d : Diagnostic}
    {f f' : Unit → Action α} (hf : ¬ c → Mirror J spare s t (f ()) (f' ())) :
    Mirror J spare s t (if c then fatal d >>= f else f ())
      (if c then fatal d >>= f' else f' ()) :=
  mirror_ite (fun _ => .fatal d (.refl w)) hf

/-- Going on at a position that has been checked. -/
theorem mirror_inRange {c : Prop} [Decidable c] {e : Violation} {f f' : PUnit → Action α}
    (hf : c → Mirror J spare s t (f ⟨⟩) (f' ⟨⟩)) :
    Mirror J spare s t (if c then f ⟨⟩ else violate e >>= f)
      (if c then f' ⟨⟩ else violate e >>= f') :=
  mirror_ite hf fun _ => .left e s _

theorem mirror_ask (w : s.Twins J spare t) {q q' : Query α} (h : Reflect J s t q q') :
    Mirror J spare s t (liftM q) (liftM q') := by
  simp only [Mirror, Trust.ask_eq]
  simp only [Reflect] at h
  generalize q s.heap = x at h
  generalize q' t.heap = y at h
  cases h with
  | ok ha => exact .ok (.refl w) ha
  | fatal d => exact .fatal d (.refl w)
  | left e y => exact .left e s _
  | right x e => exact .right _ e t

/-- After queries the spaces are as before. -/
theorem mirror_ask_bind (w : s.Twins J spare t) {q q' : Query α} (h : Reflect J s t q q')
    (hf : ∀ a, q s.heap = .ok a → Known J s a → Mirror J spare s t (f a) (f' a)) :
    Mirror J spare s t (liftM q >>= f) (liftM q' >>= f') := by
  simp only [Mirror, bind, EStateM.bind, Trust.ask_eq]
  simp only [Reflect] at h
  generalize q s.heap = x at h hf
  generalize q' t.heap = y at h
  cases h with
  | ok ha => exact hf _ rfl ha
  | fatal d => exact .fatal d (.refl w)
  | left e y => exact .left e s _
  | right x e => exact .right _ e t

omit [Carries α] in
/-- A check of arguments leaves the spaces alone. -/
theorem mirror_check_bind (w : s.Twins J spare t) {c : Except Diagnostic α}
    (hf : ∀ a, c = .ok a → Mirror J spare s t (f a) (f' a)) :
    Mirror J spare s t (liftM c >>= f) (liftM c >>= f') := by
  cases c with
  | ok a => exact hf a rfl
  | error d => exact .fatal d (.refl w)

theorem mirror_get_bind (w : s.Twins J spare t) {v : Handle} (hv : Known J s v)
    {f f' : Object → Action β}
    (hf : ∀ o, s.heap.get? v = some o → Known J s o → Mirror J spare s t (f o) (f' o)) :
    Mirror J spare s t (liftM (Heap.get v) >>= f) (liftM (Heap.get v) >>= f') :=
  mirror_ask_bind w (reflect_get w hv) fun o ho => hf o (Heap.get_eq_ok.1 ho)

section Lists

variable {l : List γ}

theorem mirror_mapM (w : s.Twins J spare t) {f f' : γ → Action β}
    (hf : ∀ x ∈ l, ∀ s' t', Onward J spare s s' t' → Mirror J spare s' t' (f x) (f' x)) :
    Mirror J spare s t (l.mapM f) (l.mapM f') := by
  induction l generalizing s t with
  | nil =>
    rw [List.mapM_nil, List.mapM_nil]
    exact mirror_pure w (by simp)
  | cons x l ih =>
    rw [List.mapM_cons, List.mapM_cons]
    refine mirror_bind (hf x List.mem_cons_self s t (.refl w)) fun b s₁ t₁ l₁ hb => ?_
    refine mirror_bind (ih l₁.twins fun y hy s₂ t₂ l₂ =>
      hf y (List.mem_cons_of_mem x hy) s₂ t₂ (l₁.trans l₂)) fun bs s₂ t₂ l₂ hbs => ?_
    exact mirror_pure l₂.twins (by simpa using ⟨l₂.known hb, by simpa using hbs⟩)

theorem mirror_forM (w : s.Twins J spare t) {f f' : γ → Action PUnit}
    (hf : ∀ x ∈ l, ∀ s' t', Onward J spare s s' t' → Mirror J spare s' t' (f x) (f' x)) :
    Mirror J spare s t (l.forM f) (l.forM f') := by
  induction l generalizing s t with
  | nil => exact mirror_pure w (Trust.ok_plain _)
  | cons x l ih =>
    exact mirror_bind (hf x List.mem_cons_self s t (.refl w)) fun _ s₁ t₁ l₁ _ =>
      ih l₁.twins fun y hy s₂ t₂ l₂ => hf y (List.mem_cons_of_mem x hy) s₂ t₂ (l₁.trans l₂)

theorem mirror_optionMapM (w : s.Twins J spare t) {o : Option γ} {f f' : γ → Action β}
    (hf : ∀ x, o = some x → Mirror J spare s t (f x) (f' x)) :
    Mirror J spare s t (o.mapM f) (o.mapM f') := by
  cases o with
  | none => exact mirror_pure w Trust.ok_none
  | some x =>
    exact mirror_bind (hf x rfl) fun b s₁ t₁ l₁ hb => mirror_pure l₁.twins ((Trust.ok_some b).2 hb)

end Lists

/-! ## Primitive actions -/

open Space

variable {o : Object} {h : Handle}

theorem mirror_nothing (w : s.Twins J spare t) : Mirror J spare s t nothing nothing := by
  have hnone : nothing t = .ok s.noneValue t := congrArg (EStateM.Result.ok · t) w.noneValue
  rw [Mirror, hnone]
  refine .ok (.refl w) (known_handle.2 ((apartTrust J).root w.apart ?_))
  exact List.mem_cons_self

/-- Giving None afterwards. -/
theorem mirror_bind_nothing {act act' : Action α} (h : Mirror J spare s t act act') :
    Mirror J spare s t (act >>= fun _ => nothing) (act' >>= fun _ => nothing) :=
  mirror_bind h fun _ _ _ l _ => mirror_nothing l.twins

theorem mirror_boolean (w : s.Twins J spare t) (b : Bool) :
    Mirror J spare s t (boolean b) (boolean b) := by
  have hb : boolean b t = .ok (if b then s.trueValue else s.falseValue) t := by
    rw [← w.trueValue, ← w.falseValue]
    rfl
  rw [Mirror, hb]
  refine .ok (.refl w) (known_handle.2 ((apartTrust J).root w.apart ?_))
  cases b <;> simp [permanentRoots]

theorem mirror_isNone (w : s.Twins J spare t) (h : Handle) :
    Mirror J spare s t (isNone h) (isNone h) := by
  have hn : isNone h t = .ok (decide (h = s.noneValue)) t := by
    rw [← w.noneValue]
    rfl
  rw [Mirror, hn]
  exact .ok (.refl w) (Trust.ok_plain _)

theorem alloc_eq (o : Object) (s : Space) :
    alloc o s = .ok (s.heap.allocateIn o.sizeClass o).1
      { s with
        heap := (s.heap.allocateIn o.sizeClass o).2.2
        pending := s.pending + 1
        disk := settle (s.heap.allocateIn o.sizeClass o).2.1 s.disk } := by
  rcases hplaced : s.heap.allocateIn o.sizeClass o with ⟨v, dropped, heap⟩
  rw [alloc, hplaced]

/-- An object that is placed in a class that the spaces have in common gets the same handle. -/
theorem mirror_alloc (w : s.Twins J spare t) (hnarrow : o.Narrow) (ho : Known J s o) :
    Mirror J spare s t (alloc o) (alloc o) := by
  have hclass := Object.narrow_iff.1 hnarrow
  obtain ⟨hhandle, hdropped⟩ :=
    w.arena.allocateIn_eq_allocateIn w.apart.sound.roomy hclass o o
  have harena := w.arena.allocateIn w.apart.sound.roomy hclass o o
  have p := Arena.allocateIn_placed w.apart.sound.roomy o.sizeClass o
  have q := Arena.allocateIn_placed w.roomy o.sizeClass o
  rw [Mirror, alloc_eq, alloc_eq, ← hhandle]
  refine .ok ⟨⟨?_, q.roomy w.roomy, ⟨w.shelved.1.placed p, w.shelved.2.placed q⟩, ?_, ?_,
    w.noneValue, w.trueValue, w.falseValue, ?_, w.output⟩, fun g hg => p.isLive_iff.2 (.inr hg)⟩ ?_
  · exact w.apart.placed p (fun g hg => ho g hg) fun _ => id
  · exact ⟨fun c hc => (harena.pool c hc).mono fun i hi => hi.resolve_right fun h => h.2.2 rfl,
      fun c i hi => harena.busy c i (.inl hi)⟩
  · intro v u hv hget
    rcases p.get?_eq hget with ⟨rfl, rfl⟩ | ⟨hne, hget⟩
    · exact hhandle ▸ q.has_self
    · obtain ⟨hlive, hJ⟩ := known_handle.1 hv
      have hold := (p.isLive_iff.1 hlive).resolve_left hne
      exact q.has (w.has v u (known_handle.2 ⟨hold, hJ⟩) hget)
  · dsimp only
    rw [hdropped, w.disk]
  · exact known_handle.2 ((apartTrust J).ok_placed w.apart p)

/-- A change of an object that is known, in both spaces. -/
theorem mirror_update (w : s.Twins J spare t) (hh : Known J s h) {f : Object → Object}
    (hf : ∀ o, s.heap.get? h = some o → Known J s o →
      Known J s (f o) ∧ (f o).sizeClass = o.sizeClass) :
    Mirror J spare s t (update h f) (update h f) := by
  obtain ⟨o, ho, hchildren⟩ := w.apart.sound.get? (known_handle.1 hh).1
  have ho' := w.has h o hh ho
  obtain ⟨hknown, hclass⟩ := hf o ho fun c hc =>
    (apartTrust J).child w.apart (known_handle.1 hh) ho hc
  have hlive : ∀ v, (s.heap.modify h f).isLive v = s.heap.isLive v := Arena.isLive_modify ho f
  rw [Mirror, Trust.update_eq ho, Trust.update_eq ho'.2]
  refine .ok ⟨⟨?_, w.roomy.modify h f, ⟨w.shelved.1.modify ho hclass,
    w.shelved.2.modify ho'.2 hclass⟩, w.arena.modify h f, ?_, w.noneValue, w.trueValue,
    w.falseValue, w.disk, w.output⟩, fun v hv => (hlive v).trans hv⟩ (Trust.ok_plain _)
  · exact w.apart.modify ho fun g hg => hknown g hg
  · intro v u hv hget
    obtain ⟨hl, hJ⟩ := known_handle.1 hv
    have hv' : Known J s v := known_handle.2 ⟨(hlive v).symm.trans hl, hJ⟩
    have hread : (s.heap.modify h f).get? v = if v = h then some (f o) else s.heap.get? v :=
      Arena.get?_modify ho f v
    have hread' : (t.heap.modify h f).get? v = if v = h then some (f o) else t.heap.get? v :=
      Arena.get?_modify ho'.2 f v
    have hlive' : (t.heap.modify h f).isLive v = t.heap.isLive v := Arena.isLive_modify ho'.2 f v
    have hget := hread.symm.trans hget
    by_cases hvh : v = h
    · rw [if_pos hvh] at hget hread'
      exact ⟨hlive'.trans (hvh ▸ ho'.1), hread'.trans hget⟩
    · rw [if_neg hvh] at hget hread'
      obtain ⟨hl', hget'⟩ := w.has v u hv' hget
      exact ⟨hlive'.trans hl', hread'.trans hget'⟩

theorem mirror_changeDisk [Plain α] (w : s.Twins J spare t) (f : Disk → α × Disk) :
    Mirror J spare s t (changeDisk f) (changeDisk f) := by
  have hs : changeDisk f s = .ok (f s.disk).1 { s with disk := (f s.disk).2 } := rfl
  have ht : changeDisk f t = .ok (f s.disk).1 { t with disk := (f s.disk).2 } := by
    rw [← w.disk]
    rfl
  rw [Mirror, hs, ht]
  exact .ok ⟨⟨w.apart.of_roots rfl fun g hg => (apartTrust J).root w.apart hg, w.roomy, w.shelved,
    w.arena, w.has, w.noneValue, w.trueValue, w.falseValue, rfl, w.output⟩, fun _ h => h⟩
    (Trust.ok_plain _)

end Mirror

end ObjectSpace
