import ObjectSpace.Proofs.Execution.Enumerating
import ObjectSpace.Proofs.Execution.Sets
import ObjectSpace.Proofs.Value.DictEdits
import ObjectSpace.Proofs.Value.Tables

/-!
# The operators of sets

Union, intersection, difference and symmetric difference make new sets of two. Terms are put
together of these operators (`SetTerm`) and evaluated from the inside out.

**Theorem (`set_algebra`).** In a run on live handles, a term of sets gives a new set and changes
nothing. What is in the new set is what the term says, read as a combination of memberships. So
terms that mean the same for all memberships are equal: the laws of Boolean algebra hold up to
equality. Inclusion is told by comparing, and the methods `update` and `difference_update` do in
place what union and difference do.

The reason is that a set has the keys that the term says of the keys of its sets
(`SetTerm.eval_keyed`), by one operator after the other (`binary_keyed`), and that equality,
inclusion and membership are about keys.
-/

namespace ObjectSpace

open Heap (Keyed)

/-! ## Operators and terms -/

/-- An operator of sets. -/
inductive SetOperator where
  | union
  | inter
  | diff
  | symmDiff

namespace SetOperator

/-- The operator that programs use. -/
def binary : SetOperator → BinaryOp
  | union => .or
  | inter => .and
  | diff => .sub
  | symmDiff => .xor

/-- What an operator makes of two memberships. -/
def Combine : SetOperator → Prop → Prop → Prop
  | union, p, q => p ∨ q
  | inter, p, q => p ∧ q
  | diff, p, q => p ∧ ¬ q
  | symmDiff, p, q => p ∧ ¬ q ∨ q ∧ ¬ p

/-- The method that does in place what an operator does, with the right operand as its argument. -/
def method? : SetOperator → Option SetMethod
  | union => some .update
  | diff => some .differenceUpdate
  | inter | symmDiff => none

theorem combine_congr {p p' q q' : Prop} (op : SetOperator) (hp : p ↔ p') (hq : q ↔ q') :
    op.Combine p q ↔ op.Combine p' q' := by
  rw [propext hp, propext hq]

end SetOperator

/-- What programs put together of sets. -/
inductive SetTerm where
  | set (v : Handle)
  | op (op : SetOperator) (left right : SetTerm)

namespace SetTerm

/-- The sets of a term. -/
def sets : SetTerm → List Handle
  | set v => [v]
  | op _ l r => l.sets ++ r.sets

/-- Evaluate a term, its operands from left to right. -/
def eval : SetTerm → Action Handle
  | set v => pure v
  | op o l r => do
    let a ← l.eval
    let b ← r.eval
    Space.binary o.binary a b

/-- Membership in a term, given in which sets there is membership. -/
def Holds (p : Handle → Prop) : SetTerm → Prop
  | set v => p v
  | op o l r => o.Combine (l.Holds p) (r.Holds p)

theorem holds_congr {p q : Handle → Prop} {e : SetTerm} (h : ∀ v ∈ e.sets, (p v ↔ q v)) :
    e.Holds p ↔ e.Holds q := by
  induction e with
  | set v => exact h v List.mem_cons_self
  | op o l r ihl ihr =>
    rw [sets, List.forall_mem_append] at h
    exact o.combine_congr (ihl h.1) (ihr h.2)

end SetTerm

namespace Space

open Heap (keySet mem_keySet)

variable {s s' : Space} {u v a b : Handle} {t t' : Table Handle} {κ : Key} {items : List Handle}

/-! ## One operator -/

theorem select_keyed (i : s.Ordered) (hu : s.heap.Has u (.set t))
    (h : ∀ x ∈ items, ∃ κ, s.heap.Keyed x κ) (wanted : Bool) :
    ∃ l, Heap.select (Heap.setContains u) wanted items s.heap = .ok l ∧ (∀ x ∈ l, x ∈ items) ∧
      s.heap.keySet l =
        {κ | κ ∈ s.heap.keySet items ∧ (κ ∈ s.heap.keySet t.toList ↔ wanted = true)} := by
  let test (x : Handle) : Query Bool := return (← Heap.setContains u x) == wanted
  have htest : ∀ {x κ}, s.heap.Keyed x κ → ∃ r, test x s.heap = .ok r ∧
      (r = true ↔ (κ ∈ s.heap.keySet t.toList ↔ wanted = true)) := fun {x κ} k => by
    obtain ⟨r, hr, hiff⟩ := setContains_keyed i hu k
    refine ⟨r == wanted, Heap.bind_eq_ok.2 ⟨r, hr, rfl⟩, ?_⟩
    rw [← hiff, beq_iff_eq, Bool.eq_iff_iff]
  have hanswers : ∀ x ∈ items, ∃ r, test x s.heap = .ok r := fun x hx => by
    obtain ⟨κ, k⟩ := h x hx
    exact (htest k).imp fun _ => And.left
  obtain ⟨l, hl, hmem⟩ := Heap.filterM_ok hanswers
  refine ⟨l, hl, fun x hx => ((hmem x).1 hx).1, ?_⟩
  have hpass : ∀ {x κ}, s.heap.Keyed x κ →
      (test x s.heap = .ok true ↔ (κ ∈ s.heap.keySet t.toList ↔ wanted = true)) := fun k => by
    obtain ⟨r, hr, hiff⟩ := htest k
    rw [hr, Except.ok.injEq, hiff]
  ext κ
  constructor
  · rintro ⟨x, hx, k⟩
    obtain ⟨hx, htrue⟩ := (hmem x).1 hx
    exact ⟨⟨x, hx, k⟩, (hpass k).1 htrue⟩
  · rintro ⟨⟨x, hx, k⟩, hiff⟩
    exact ⟨x, (hmem x).2 ⟨hx, (hpass k).2 hiff⟩, k⟩

/-- The members of the result of an operator have the keys that the operator says. -/
theorem setMembers_keyed (i : s.Ordered) (hu : s.heap.Has u (.set t))
    (hv : s.heap.Has v (.set t')) (op : SetOperator) :
    ∃ l, Heap.setMembers op.binary u v s.heap = .ok (some l) ∧
      (∀ x ∈ l, ∃ κ, s.heap.Keyed x κ) ∧ s.heap.keySet l =
        {κ | op.Combine (κ ∈ s.heap.keySet t.toList) (κ ∈ s.heap.keySet t'.toList)} := by
  have ku := fun x (hx : x ∈ t.toList) => member_keyed i hu hx
  have kv := fun x (hx : x ∈ t'.toList) => member_keyed i hv hx
  have start : ∀ op, Heap.setMembers op u v s.heap = _ := fun op =>
    (Heap.bind_of_ok (Heap.set_eq_ok.2 hu.2)).trans (Heap.bind_of_ok (Heap.set_eq_ok.2 hv.2))
  cases op with
  | union =>
    refine ⟨_, start _, List.forall_mem_append.2 ⟨ku, kv⟩, ?_⟩
    exact Heap.keySet_append
  | inter =>
    obtain ⟨l, hl, hof, hkeys⟩ := select_keyed i hv ku true
    refine ⟨l, (start _).trans (Heap.bind_of_ok hl), fun x hx => ku x (hof x hx), ?_⟩
    simpa [SetOperator.Combine] using hkeys
  | diff =>
    obtain ⟨l, hl, hof, hkeys⟩ := select_keyed i hv ku false
    refine ⟨l, (start _).trans (Heap.bind_of_ok hl), fun x hx => ku x (hof x hx), ?_⟩
    simpa [SetOperator.Combine] using hkeys
  | symmDiff =>
    obtain ⟨l, hl, hof, hkeys⟩ := select_keyed i hv ku false
    obtain ⟨l', hl', hof', hkeys'⟩ := select_keyed i hu kv false
    refine ⟨l ++ l', (start _).trans ((Heap.bind_of_ok hl).trans (Heap.bind_of_ok hl')),
      List.forall_mem_append.2 ⟨fun x hx => ku x (hof x hx), fun x hx => kv x (hof' x hx)⟩, ?_⟩
    rw [Heap.keySet_append, hkeys, hkeys']
    ext κ
    simp [SetOperator.Combine]

theorem binary_sets (hu : s.heap.Has u (.set t)) (hv : s.heap.Has v (.set t'))
    (op : SetOperator) {l : List Handle}
    (hl : Heap.setMembers op.binary u v s.heap = .ok (some l)) :
    binary op.binary u v s = newSet l s := by
  rw [binary, get_bind_of_has hu, get_bind_of_has hv]
  cases op with
  | union | inter | diff | symmDiff => exact ask_bind_of_ok hl

/-- A handle refers to a live set. -/
def IsSet (s : Space) (v : Handle) : Prop := ∃ t, s.heap.Has v (.set t)

/-- The keys of the members of a set. -/
def keysOf (s : Space) (v : Handle) : Set Key :=
  {κ | ∃ t, s.heap.Has v (.set t) ∧ κ ∈ s.heap.keySet t.toList}

theorem keysOf_eq (hv : s.heap.Has v (.set t)) : s.keysOf v = s.heap.keySet t.toList := by
  ext κ
  constructor
  · rintro ⟨t', hv', hκ⟩
    obtain rfl : t = t' := by simpa [hv.2] using hv'.2
    exact hκ
  · exact fun hκ => ⟨t, hv, hκ⟩

theorem Frame.isSet {touched : List Handle} (f : Frame touched s s') (hv : s.IsSet v)
    (hne : v ∉ touched) : s'.IsSet v :=
  hv.imp fun t => f.has v (.set t) hne

/-- A set that is not touched keeps its keys. -/
theorem Frame.keysOf_eq {touched : List Handle} (f : Frame touched s s') (i : s.Ordered)
    (hv : s.IsSet v) (hne : v ∉ touched) : s'.keysOf v = s.keysOf v := by
  obtain ⟨t, hv⟩ := hv
  rw [Space.keysOf_eq hv, Space.keysOf_eq (f.has v _ hne hv)]
  exact f.kept.keySet_eq fun x hx => member_keyed i hv hx

theorem binary_keyed (i : s.Steady) (hu : s.IsSet u) (hv : s.IsSet v) (op : SetOperator) :
    ∃ r s', binary op.binary u v s = .ok r s' ∧ s.heap.get? r = none ∧ Frame [] s s' ∧
      s'.IsSet r ∧ s'.keysOf r = {κ | op.Combine (κ ∈ s.keysOf u) (κ ∈ s.keysOf v)} := by
  obtain ⟨t, hu⟩ := hu
  obtain ⟨t', hv⟩ := hv
  obtain ⟨l, hl, hkeyed, hkeys⟩ := setMembers_keyed i.ordered hu hv op
  obtain ⟨r, w, s', hs', hnew, f, hr, -, hw⟩ := newSet_keyed i hkeyed
  refine ⟨r, s', (binary_sets hu hv op hl).trans hs', hnew, f, ⟨w, hr⟩, ?_⟩
  rw [keysOf_eq hr, keysOf_eq hu, keysOf_eq hv, hw, hkeys]

/-- A term of sets gives a set with the keys that the term says. -/
theorem eval_keyed (i : s.Steady) (e : SetTerm) (h : ∀ v ∈ e.sets, s.IsSet v) :
    ∃ r s', e.eval s = .ok r s' ∧ Frame [] s s' ∧ s'.IsSet r ∧
      s'.keysOf r = {κ | e.Holds fun v => κ ∈ s.keysOf v} := by
  induction e generalizing s with
  | set v => exact ⟨v, s, rfl, .refl i, h v List.mem_cons_self, rfl⟩
  | op o l r ihl ihr =>
    rw [SetTerm.sets, List.forall_mem_append] at h
    obtain ⟨a, s₁, hs₁, f₁, ha, hkeysA⟩ := ihl i h.1
    obtain ⟨b, s₂, hs₂, f₂, hb, hkeysB⟩ := ihr f₁.steady fun v hv =>
      f₁.isSet (h.2 v hv) List.not_mem_nil
    obtain ⟨c, s', hs', -, f, hc, hkeys⟩ :=
      binary_keyed f₂.steady (f₂.isSet ha List.not_mem_nil) hb o
    refine ⟨c, s', ?_, (f₁.trans f₂).trans f, hc, hkeys.trans ?_⟩
    · exact (bind_of_ok hs₁).trans ((bind_of_ok hs₂).trans hs')
    · ext κ
      refine o.combine_congr ?_ ?_
      · rw [f₂.keysOf_eq f₁.steady.ordered ha List.not_mem_nil, hkeysA]
        rfl
      · rw [hkeysB]
        refine SetTerm.holds_congr fun v hv => ?_
        rw [f₁.keysOf_eq i.ordered (h.2 v hv) List.not_mem_nil]

/-! ## Methods in place -/

theorem addAll_keyed (i : s.Steady) (hu : s.IsSet u) (hv : s.IsSet v) :
    ∃ s', addAll u v s = .ok () s' ∧ Frame [u] s s' ∧ s'.IsSet u ∧
      s'.keysOf u = s.keysOf u ∪ s.keysOf v := by
  obtain ⟨t, hu⟩ := hu
  obtain ⟨t', hv⟩ := hv
  obtain ⟨w, s', hs', f, hw, -, hkeys⟩ :=
    insertAll_keyed i hu fun x (hx : x ∈ t'.toList) => member_keyed i.ordered hv hx
  refine ⟨s', ?_, f, ⟨w, hw⟩, ?_⟩
  · rw [addAll, bind_of_ok (collect_set hv)]
    exact hs'
  · rw [keysOf_eq hw, keysOf_eq hu, keysOf_eq hv, hkeys]

theorem removeFrom_keyed (i : s.Steady) (hu : s.IsSet u) (hv : s.IsSet v) :
    ∃ s', removeAll u v s = .ok () s' ∧ Frame [u] s s' ∧ s'.IsSet u ∧
      s'.keysOf u = s.keysOf u \ s.keysOf v := by
  obtain ⟨t, hu⟩ := hu
  obtain ⟨t', hv⟩ := hv
  obtain ⟨w, s', hs', f, hw, -, hkeys⟩ :=
    removeAll_keyed i hu fun x (hx : x ∈ t'.toList) => member_keyed i.ordered hv hx
  refine ⟨s', ?_, f, ⟨w, hw⟩, ?_⟩
  · rw [removeAll, bind_of_ok (collect_set hv)]
    exact hs'
  · rw [keysOf_eq hw, keysOf_eq hu, keysOf_eq hv, hkeys]

/-- A method in place leaves the set with the keys that the operator says, also if the argument is
the set itself: the argument is read whole before the set is touched. -/
theorem method_keyed (i : s.Steady) (hu : s.IsSet u) (hv : s.IsSet v) {op : SetOperator}
    {m : SetMethod} (hm : op.method? = some m) :
    ∃ s', runMethod (.set m) u [v] s = .ok s.noneValue s' ∧ Frame [u] s s' ∧ s'.IsSet u ∧
      s'.keysOf u = {κ | op.Combine (κ ∈ s.keysOf u) (κ ∈ s.keysOf v)} := by
  obtain ⟨t, ht⟩ := hu
  have hrun : runMethod (.set m) u [v] s = setMethod m u t [v] s := by
    rw [runMethod, get_bind_of_has ht]
  have hlast : ∀ {act : Handle → Action Unit} {s'}, act v s = .ok () s' → Frame [u] s s' →
      ([v].forM act >>= fun _ => nothing : Action Handle) s = .ok s.noneValue s' :=
    fun {act s'} hs' f => by
      have hall : [v].forM act s = .ok () s' := bind_of_ok hs'
      exact (bind_of_ok hall).trans (congrArg (EStateM.Result.ok · s') f.noneValue)
  rw [hrun]
  cases op with
  | inter | symmDiff => cases hm
  | union =>
    obtain rfl := Option.some.inj hm
    obtain ⟨s', hs', f, hu', hkeys⟩ := addAll_keyed i ⟨t, ht⟩ hv
    exact ⟨s', hlast hs' f, f, hu', hkeys⟩
  | diff =>
    obtain rfl := Option.some.inj hm
    obtain ⟨s', hs', f, hu', hkeys⟩ := removeFrom_keyed i ⟨t, ht⟩ hv
    exact ⟨s', hlast hs' f, f, hu', hkeys⟩

/-! ## Answers -/

theorem contains_keyed (i : s.Ordered) (hu : s.IsSet u) (k : s.heap.Keyed v κ) :
    ∃ r, Heap.contains u v s.heap = .ok r ∧ (r = true ↔ κ ∈ s.keysOf u) := by
  obtain ⟨t, hu⟩ := hu
  obtain ⟨r, hr, hiff⟩ := setContains_keyed i hu k
  refine ⟨r, ?_, by rw [hiff, keysOf_eq hu]⟩
  rw [Heap.contains, Heap.bind_of_ok (Heap.get_eq_ok.2 hu.2)]
  exact hr

theorem equal_keyed (i : s.Ordered) (hu : s.IsSet u) (hv : s.IsSet v) :
    ∃ r, Heap.equal u v s.heap = .ok r ∧ (r = true ↔ s.keysOf u = s.keysOf v) := by
  obtain ⟨t, hu⟩ := hu
  obtain ⟨t', hv⟩ := hv
  rw [keysOf_eq hu, keysOf_eq hv]
  exact equal_sets i hu hv

theorem equal_of_keysOf (i : s.Ordered) (hu : s.IsSet u) (hv : s.IsSet v)
    (h : s.keysOf u = s.keysOf v) : Heap.equal u v s.heap = .ok true := by
  obtain ⟨r, hr, hiff⟩ := equal_keyed i hu hv
  rw [hr, hiff.2 h]

theorem IsSet.orderly (i : s.Ordered) (hu : s.IsSet u) :
    ∃ t, s.heap.Has u (.set t) ∧ (Object.set t).Orderly s.heap := by
  obtain ⟨t, hu⟩ := hu
  refine ⟨t, hu, i.legible.orderly_object (seeLive_eq_some.2 hu) fun m hm => ?_⟩
  obtain ⟨κ, k⟩ := member_keyed i hu hm
  exact k.grounded

theorem contains_term (i : s.Ordered) (hu : s.IsSet u) {e : SetTerm}
    (h : ∀ v ∈ e.sets, s.IsSet v) (hkeys : s.keysOf u = {κ | e.Holds fun v => κ ∈ s.keysOf v})
    (hx : s.Hashable v) :
    ∃ r, Heap.contains u v s.heap = .ok r ∧
      (r = true ↔ e.Holds fun w => Heap.contains w v s.heap = .ok true) := by
  obtain ⟨κ, k⟩ := i.keyed_of_hashable hx
  obtain ⟨r, hr, hiff⟩ := contains_keyed i hu k
  refine ⟨r, hr, hiff.trans ?_⟩
  rw [hkeys]
  refine SetTerm.holds_congr fun w hw => ?_
  obtain ⟨q, hq, hqiff⟩ := contains_keyed i (h w hw) k
  rw [hq, Except.ok.injEq]
  exact hqiff.symm

/-! ## The laws -/

/-- Two terms, evaluated one after the other, give equal sets. -/
def Equates (s : Space) (e e' : SetTerm) : Prop :=
  ∃ r s₁ r' s₂, e.eval s = .ok r s₁ ∧ e'.eval s₁ = .ok r' s₂ ∧ Heap.equal r r' s₂.heap = .ok true

/-- Set operators are set algebra, up to equality. -/
structure SetAlgebra (s : Space) : Prop where
  /-- A term gives a new set, and in it is what the term says. -/
  term : ∀ e : SetTerm, (∀ v ∈ e.sets, s.IsSet v) → ∃ r t s', e.eval s = .ok r s' ∧
    Frame [] s s' ∧ s'.heap.Has r (.set t) ∧ (Object.set t).Orderly s'.heap ∧
    ∀ x, s'.Hashable x → ∃ b, Heap.contains r x s'.heap = .ok b ∧
      (b = true ↔ e.Holds fun v => Heap.contains v x s'.heap = .ok true)
  /-- Terms that say the same of all memberships are equal. -/
  equation : ∀ e e', (∀ v ∈ e.sets ++ e'.sets, s.IsSet v) → (∀ p, e.Holds p ↔ e'.Holds p) →
    s.Equates e e'
  comm : ∀ (op : SetOperator) (a b : Handle), op ≠ .diff → s.IsSet a → s.IsSet b →
    s.Equates (.op op (.set a) (.set b)) (.op op (.set b) (.set a))
  assoc : ∀ (op : SetOperator) (a b c : Handle), op ≠ .diff → s.IsSet a → s.IsSet b → s.IsSet c →
    s.Equates (.op op (.op op (.set a) (.set b)) (.set c))
      (.op op (.set a) (.op op (.set b) (.set c)))
  symmDiff : ∀ a b, s.IsSet a → s.IsSet b → s.Equates (.op .symmDiff (.set a) (.set b))
    (.op .union (.op .diff (.set a) (.set b)) (.op .diff (.set b) (.set a)))
  inclusion : ∀ a b, s.IsSet a → s.IsSet b → ∃ r s' le eq, binary .and a b s = .ok r s' ∧
    Heap.equal r a s'.heap = .ok le ∧ Heap.compares .le a b s.heap = .ok le ∧
    Heap.equal a b s.heap = .ok eq ∧ Heap.compares .lt a b s.heap = .ok (le && !eq)
  /-- The method leaves the set equal to what the operator gave before, whether or not it is its own
  argument. -/
  inPlace : ∀ (op : SetOperator) (m : SetMethod) (a b : Handle), op.method? = some m →
    s.IsSet a → s.IsSet b → ∃ r s₁ t s₂, binary op.binary a b s = .ok r s₁ ∧
      runMethod (.set m) a [b] s₁ = .ok s₁.noneValue s₂ ∧ Frame [a] s₁ s₂ ∧
      s₂.heap.Has a (.set t) ∧ (Object.set t).Orderly s₂.heap ∧
      Heap.equal a r s₂.heap = .ok true

theorem equates (i : s.Steady) {e e' : SetTerm} (h : ∀ v ∈ e.sets ++ e'.sets, s.IsSet v)
    (hiff : ∀ p, e.Holds p ↔ e'.Holds p) : s.Equates e e' := by
  rw [List.forall_mem_append] at h
  obtain ⟨r, s₁, hs₁, f₁, hr, hkeys⟩ := eval_keyed i e h.1
  obtain ⟨r', s₂, hs₂, f₂, hr', hkeys'⟩ := eval_keyed f₁.steady e' fun v hv =>
    f₁.isSet (h.2 v hv) List.not_mem_nil
  refine ⟨r, s₁, r', s₂, hs₁, hs₂,
    equal_of_keysOf f₂.steady.ordered (f₂.isSet hr List.not_mem_nil) hr' ?_⟩
  rw [f₂.keysOf_eq f₁.steady.ordered hr List.not_mem_nil, hkeys, hkeys']
  ext κ
  refine (hiff _).trans (SetTerm.holds_congr fun v hv => ?_)
  rw [f₁.keysOf_eq i.ordered (h.2 v hv) List.not_mem_nil]

/-- One set is included in another when it is its intersection with it. -/
theorem inclusion_keyed (i : s.Steady) (ha : s.IsSet a) (hb : s.IsSet b) :
    ∃ r s' le eq, binary .and a b s = .ok r s' ∧ Heap.equal r a s'.heap = .ok le ∧
      Heap.compares .le a b s.heap = .ok le ∧ Heap.equal a b s.heap = .ok eq ∧
      Heap.compares .lt a b s.heap = .ok (le && !eq) := by
  obtain ⟨r, s', hs', -, f, hr, hkeys⟩ := binary_keyed i ha hb .inter
  obtain ⟨p, hp, hpiff⟩ := equal_keyed f.steady.ordered hr (f.isSet ha List.not_mem_nil)
  obtain ⟨eq, heq, heqiff⟩ := equal_keyed i.ordered ha hb
  have hka := f.keysOf_eq i.ordered ha List.not_mem_nil
  obtain ⟨t, ht⟩ := ha
  obtain ⟨t', ht'⟩ := hb
  obtain ⟨⟨le, hle, hleiff⟩, lt, hlt, hltiff⟩ := compares_sets i.ordered ht ht'
  rw [← keysOf_eq ht, ← keysOf_eq ht'] at hleiff hltiff
  refine ⟨r, s', le, eq, hs', ?_, hle, heq, ?_⟩
  · rw [hp, Except.ok.injEq, Bool.eq_iff_iff, hpiff, hleiff, hkeys, hka]
    exact Set.inter_eq_left
  · rw [hlt, Except.ok.injEq, Bool.eq_iff_iff, hltiff, Bool.and_eq_true, hleiff,
      Bool.not_eq_true', ← Bool.not_eq_true, heqiff]
    exact and_congr_right fun h =>
      not_congr ⟨Set.Subset.antisymm h, fun heq => heq ▸ Set.Subset.refl _⟩

/-- A method in place makes the set equal to what the operator gave before. -/
theorem inPlace_keyed (i : s.Steady) (ha : s.IsSet a) (hb : s.IsSet b) {op : SetOperator}
    {m : SetMethod} (hm : op.method? = some m) :
    ∃ r s₁ t s₂, binary op.binary a b s = .ok r s₁ ∧
      runMethod (.set m) a [b] s₁ = .ok s₁.noneValue s₂ ∧ Frame [a] s₁ s₂ ∧
      s₂.heap.Has a (.set t) ∧ (Object.set t).Orderly s₂.heap ∧
      Heap.equal a r s₂.heap = .ok true := by
  obtain ⟨r, s₁, hs₁, hnew, f₁, hr, hkeys⟩ := binary_keyed i ha hb op
  have hne : r ∉ [a] := by
    obtain ⟨t, ht⟩ := ha
    rw [List.mem_singleton]
    rintro rfl
    rw [ht.2] at hnew
    cases hnew
  obtain ⟨s₂, hs₂, f₂, ha₂, hkeys₂⟩ :=
    method_keyed f₁.steady (f₁.isSet ha List.not_mem_nil) (f₁.isSet hb List.not_mem_nil) hm
  obtain ⟨t, ht, hord⟩ := ha₂.orderly f₂.steady.ordered
  refine ⟨r, s₁, t, s₂, hs₁, hs₂, f₂, ht, hord,
    equal_of_keysOf f₂.steady.ordered ha₂ (f₂.isSet hr hne) ?_⟩
  rw [hkeys₂, f₂.keysOf_eq f₁.steady.ordered hr hne, hkeys,
    f₁.keysOf_eq i.ordered ha List.not_mem_nil, f₁.keysOf_eq i.ordered hb List.not_mem_nil]

end Space

open Space

/-- **Set algebra.** In runs the operators of sets are set algebra, up to equality. -/
theorem set_algebra {settings : Settings} {disk : Disk} {s : Space}
    (r : LiveRun settings disk s) : s.SetAlgebra := by
  have i := steady_of_liveRun r
  refine
    { term := fun e h => ?term
      equation := fun e e' => equates i
      comm := fun op a b hop ha hb => equates i (by simp [SetTerm.sets, ha, hb]) fun p => ?comm
      assoc := fun op a b c hop ha hb hc =>
        equates i (by simp [SetTerm.sets, ha, hb, hc]) fun p => ?assoc
      symmDiff := fun a b ha hb => equates i (by simp [SetTerm.sets, ha, hb]) fun p => Iff.rfl
      inclusion := fun a b => inclusion_keyed i
      inPlace := fun op m a b hm ha hb => inPlace_keyed i ha hb hm }
  case term =>
    obtain ⟨r, s', hs', f, hr, hkeys⟩ := eval_keyed i e h
    obtain ⟨t, ht, hord⟩ := hr.orderly f.steady.ordered
    have hsets := fun v hv => f.isSet (h v hv) List.not_mem_nil
    refine ⟨r, t, s', hs', f, ht, hord, fun x hx =>
      contains_term f.steady.ordered hr hsets (hkeys.trans ?_) hx⟩
    ext κ
    refine SetTerm.holds_congr fun v hv => ?_
    rw [f.keysOf_eq i.ordered (h v hv) List.not_mem_nil]
  case comm =>
    cases op with
    | union => exact or_comm
    | inter => exact and_comm
    | diff => exact absurd rfl hop
    | symmDiff => exact or_comm
  case assoc =>
    cases op with
    | union => exact or_assoc
    | inter => exact and_assoc
    | diff => exact absurd rfl hop
    | symmDiff =>
      simp only [SetTerm.Holds, SetOperator.Combine]
      tauto

theorem LiveRun.newSet {settings : Settings} {disk : Disk} {s : Space}
    (r : LiveRun settings disk s) {items : List Handle} (h : ∀ x ∈ items, ∃ κ, s.heap.Keyed x κ) :
    ∃ v s', LiveRun settings disk s' ∧ Space.Frame [] s s' ∧ s'.IsSet v ∧
      s'.keysOf v = s.heap.keySet items := by
  obtain ⟨v, t, s', hs', -, f, hv, -, hkeys⟩ := newSet_keyed (steady_of_liveRun r) h
  refine ⟨v, s', r.after (.newSet items) rfl ?_ hs', f, ⟨t, hv⟩, (keysOf_eq hv).trans hkeys⟩
  intro x hx
  obtain ⟨κ, k⟩ := h x hx
  exact k.live

/-- A set of True and a set of 1 and None: 1 is in both and so in their intersection. -/
theorem set_algebra_one :
    ∃ s a b x r s', LiveRun {} {} s ∧ s.keysOf a = {.number 1} ∧
      s.keysOf b = {.number 1, .nothing s.noneValue} ∧ s.heap.Has x (.int 1) ∧
      binary .and a b s = .ok r s' ∧ Heap.contains r x s'.heap = .ok true := by
  obtain ⟨s₀, h₀⟩ := create_ok {} rfl {}
  obtain ⟨x, s₁, r₁, f₁, hx⟩ := (LiveRun.start h₀).newInt 1
  have htrue := keyed_bool (r₁.truth true)
  have hone := keyed_int hx
  have hnone := keyed_nothing (steady_of_liveRun r₁).nothing
  have hkeyedA : ∀ v ∈ [s₁.truth true], ∃ κ, s₁.heap.Keyed v κ :=
    List.forall_mem_singleton.2 ⟨_, htrue⟩
  obtain ⟨a, s₂, r₂, f₂, ha, hkeysA⟩ := r₁.newSet hkeyedA
  have hkeyedB : ∀ v ∈ [x, s₁.noneValue], ∃ κ, s₂.heap.Keyed v κ :=
    List.forall_mem_cons.2 ⟨⟨_, hone.later f₂.kept⟩,
      List.forall_mem_singleton.2 ⟨_, hnone.later f₂.kept⟩⟩
  obtain ⟨b, s, r, f, hb, hkeysB⟩ := r₂.newSet hkeyedB
  have ha' := f.isSet ha List.not_mem_nil
  have hx' := f.keep (f₂.keep hx)
  have hinA : s.keysOf a = {.number 1} := by
    rw [f.keysOf_eq (ordered_of_liveRun r₂) ha List.not_mem_nil, hkeysA, Heap.keySet_cons htrue,
      Heap.keySet_nil]
    exact insert_empty_eq _
  have hinB : s.keysOf b = {.number 1, .nothing s.noneValue} := by
    rw [hkeysB, Heap.keySet_cons (hone.later f₂.kept), Heap.keySet_cons (hnone.later f₂.kept),
      Heap.keySet_nil, f.noneValue, f₂.noneValue, insert_empty_eq]
  obtain ⟨c, t, s', hs', f', -, -, hmem⟩ := (set_algebra r).term
    (.op .inter (.set a) (.set b)) (by simp [SetTerm.sets, ha', hb])
  have hone' := keyed_int (f'.keep hx')
  have i' := f'.steady.ordered
  obtain ⟨q, hq, hiff⟩ := hmem x (i'.hashable_of_keyed hone')
  obtain ⟨p, hp, hpiff⟩ := contains_keyed i' (f'.isSet ha' List.not_mem_nil) hone'
  obtain ⟨p', hp', hpiff'⟩ := contains_keyed i' (f'.isSet hb List.not_mem_nil) hone'
  have hboth : q = true := hiff.2
    ⟨hp.trans (congrArg _ (hpiff.2 (by simp [f'.keysOf_eq (ordered_of_liveRun r) ha', hinA]))),
      hp'.trans (congrArg _ (hpiff'.2 (by simp [f'.keysOf_eq (ordered_of_liveRun r) hb, hinB])))⟩
  exact ⟨s, a, b, x, c, s', r, hinA, hinB, hx', hs', hq.trans (congrArg _ hboth)⟩

end ObjectSpace
