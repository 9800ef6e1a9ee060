import ObjectSpace.Equality
import ObjectSpace.Proofs.Arena.Cells

/-!
# Answers of queries

When a query gives an answer, and which. A query that is put together answers when its parts do.
-/

namespace ObjectSpace.Heap

variable {α β γ : Type} {heap : Heap}

theorem bind_eq_ok {q : Query α} {f : α → Query β} {b : β} :
    (q >>= f) heap = .ok b ↔ ∃ a, q heap = .ok a ∧ f a heap = .ok b := by
  simp only [bind, ReaderT.bind, Except.bind]
  cases q heap with
  | ok a => simp
  | error e => simp

/-- What follows a query depends on its answer only. -/
theorem bind_congr {p q : Query α} {f g : α → Query β} (hpq : p heap = q heap)
    (hfg : ∀ x, f x heap = g x heap) : (p >>= f) heap = (q >>= g) heap := by
  simp only [bind, ReaderT.bind, Except.bind, hpq, hfg]

theorem bind_of_ok {q : Query α} {f : α → Query β} {x : α} (h : q heap = .ok x) :
    (q >>= f) heap = f x heap := by
  simp only [bind, ReaderT.bind, Except.bind, h]

theorem bind_of_error {q : Query α} {f : α → Query β} {e : Halt} (h : q heap = .error e) :
    (q >>= f) heap = .error e := by
  simp only [bind, ReaderT.bind, Except.bind, h]

/-- Only what follows a query that succeeds matters. -/
theorem bind_congr_of_ok {q : Query α} {f g : α → Query β}
    (h : ∀ x, q heap = .ok x → f x heap = g x heap) : (q >>= f) heap = (q >>= g) heap := by
  cases hq : q heap with
  | ok x => rw [bind_of_ok hq, bind_of_ok hq, h x hq]
  | error e => rw [bind_of_error hq, bind_of_error hq]

@[simp] theorem pure_eq_ok {a b : α} : (pure a : Query α) heap = .ok b ↔ a = b := by
  simp [pure, ReaderT.pure, Except.pure]

/-- Going on unless a check fails. -/
theorem unless_eq_ok {c : Prop} [Decidable c] {v : Violation} {f : PUnit → Query α} {a : α} :
    (if c then f ⟨⟩ else violate v >>= f) heap = .ok a ↔ c ∧ f ⟨⟩ heap = .ok a := by
  by_cases h : c
  · simp only [h, if_true, true_and]
  · simp only [h, if_false, false_and, iff_false]
    exact nofun

@[simp] theorem get_eq_ok {h : Handle} {o : Object} :
    get h heap = .ok o ↔ heap.get? h = some o := by
  unfold get Arena.fetch
  cases heap.get? h <;> simp

@[simp] theorem depth_eq_ok {n : Nat} : depth heap = .ok n ↔ n = heap.capacity + 1 := by
  simp [depth, eq_comm]

theorem dict_eq_ok {h : Handle} {t : Table (Handle × Handle)} :
    dict h heap = .ok t ↔ heap.get? h = some (.dict t) := by
  unfold dict
  rw [bind_eq_ok]
  constructor
  · rintro ⟨o, ho, h'⟩
    rw [get_eq_ok] at ho
    split at h'
    · rw [ho, pure_eq_ok.1 h']
    · cases h'
  · exact fun ho => ⟨_, get_eq_ok.2 ho, rfl⟩

theorem set_eq_ok {h : Handle} {t : Table Handle} :
    set h heap = .ok t ↔ heap.get? h = some (.set t) := by
  unfold set
  rw [bind_eq_ok]
  constructor
  · rintro ⟨o, ho, h'⟩
    rw [get_eq_ok] at ho
    split at h'
    · rw [ho, pure_eq_ok.1 h']
    · cases h'
  · exact fun ho => ⟨_, get_eq_ok.2 ho, rfl⟩

theorem list_of_get? {h : Handle} {items : Array Handle} (ho : heap.get? h = some (.list items)) :
    list h heap = .ok items :=
  bind_eq_ok.2 ⟨_, get_eq_ok.2 ho, rfl⟩

theorem file_of_get? {h : Handle} {f : File} (ho : heap.get? h = some (.file f)) :
    file h heap = .ok f :=
  bind_eq_ok.2 ⟨_, get_eq_ok.2 ho, rfl⟩

/-! ## Look-ups -/

/-- A search that finds nothing tests every element. -/
theorem findPlace_eq_none {test : α → Query Bool} {l : List α}
    (h : findPlace test l heap = .ok none) : ∀ x ∈ l, test x heap = .ok false := by
  induction l with
  | nil => exact nofun
  | cons x l ih =>
    obtain ⟨b, hb, h⟩ := bind_eq_ok.1 h
    cases b with
    | true => exact absurd (pure_eq_ok.1 h) nofun
    | false =>
      obtain ⟨p, hp, h⟩ := bind_eq_ok.1 h
      obtain rfl : p = none := Option.map_eq_none_iff.1 (pure_eq_ok.1 h)
      exact List.forall_mem_cons.2 ⟨hb, ih hp⟩

/-- A search finds the first element that passes, and those before it are tested. -/
theorem findPlace_eq_some {test : α → Query Bool} {l : List α} {j : Nat} :
    findPlace test l heap = .ok (some j) ↔ ∃ before x after, l = before ++ x :: after ∧
      before.length = j ∧ (∀ y ∈ before, test y heap = .ok false) ∧ test x heap = .ok true := by
  induction l generalizing j with
  | nil => exact ⟨nofun, fun ⟨before, _, _, h, _⟩ => by cases before <;> cases h⟩
  | cons y l ih =>
    rw [findPlace, bind_eq_ok]
    constructor
    · rintro ⟨b, hb, h⟩
      cases b with
      | true =>
        obtain rfl := Option.some.inj (pure_eq_ok.1 h)
        exact ⟨[], y, l, rfl, rfl, List.forall_mem_nil _, hb⟩
      | false =>
        obtain ⟨place, hplace, h⟩ := bind_eq_ok.1 h
        obtain ⟨k, rfl, rfl⟩ := Option.map_eq_some_iff.1 (pure_eq_ok.1 h)
        obtain ⟨before, x, after, rfl, rfl, hbefore, hx⟩ := ih.1 hplace
        exact ⟨y :: before, x, after, rfl, rfl, List.forall_mem_cons.2 ⟨hb, hbefore⟩, hx⟩
    · rintro ⟨before, x, after, hl, rfl, hbefore, hx⟩
      cases before with
      | nil =>
        obtain ⟨rfl, rfl⟩ := List.cons.inj hl
        exact ⟨true, hx, rfl⟩
      | cons z before =>
        obtain ⟨rfl, hrest⟩ := List.cons.inj hl
        obtain ⟨hy, hbefore⟩ := List.forall_mem_cons.1 hbefore
        have hplace := ih.2 ⟨before, x, after, hrest, rfl, hbefore, hx⟩
        exact ⟨false, hy, bind_eq_ok.2 ⟨_, hplace, rfl⟩⟩

/-- A place that is found is one of the list. -/
theorem findPlace_lt {test : α → Query Bool} {l : List α} {j : Nat}
    (h : findPlace test l heap = .ok (some j)) : j < l.length := by
  obtain ⟨before, x, after, rfl, rfl, -⟩ := findPlace_eq_some.1 h
  simp

/-- A search whose tests all answer finds the first element that passes, or none does. -/
theorem findPlace_ok {test : α → Query Bool} {l : List α}
    (h : ∀ x ∈ l, ∃ r, test x heap = .ok r) :
    (∃ i x, findPlace test l heap = .ok (some i) ∧ l[i]? = some x ∧ test x heap = .ok true) ∨
      findPlace test l heap = .ok none ∧ ∀ x ∈ l, test x heap = .ok false := by
  induction l with
  | nil => exact .inr ⟨rfl, List.forall_mem_nil _⟩
  | cons x l ih =>
    rw [List.forall_mem_cons] at h
    obtain ⟨⟨r, hr⟩, h⟩ := h
    cases r with
    | true => exact .inl ⟨0, x, bind_eq_ok.2 ⟨true, hr, rfl⟩, rfl, hr⟩
    | false =>
      rcases ih h with ⟨i, y, hi, hy, ht⟩ | ⟨hnone, hfalse⟩
      · exact .inl ⟨i + 1, y, bind_eq_ok.2 ⟨false, hr, bind_eq_ok.2 ⟨some i, hi, rfl⟩⟩, hy, ht⟩
      · exact .inr ⟨bind_eq_ok.2 ⟨false, hr, bind_eq_ok.2 ⟨none, hnone, rfl⟩⟩,
          List.forall_mem_cons.2 ⟨hr, hfalse⟩⟩

/-- Filtering by a test that always answers. -/
theorem filterM_ok {test : α → Query Bool} {l : List α} (h : ∀ x ∈ l, ∃ r, test x heap = .ok r) :
    ∃ l', l.filterM test heap = .ok l' ∧ ∀ x, x ∈ l' ↔ x ∈ l ∧ test x heap = .ok true := by
  -- the loop carries what it has kept so far
  have key : ∀ done : List α, ∃ l', List.filterAuxM test l done heap = .ok l' ∧
      ∀ x, x ∈ l' ↔ x ∈ done ∨ x ∈ l ∧ test x heap = .ok true := by
    induction l with
    | nil => exact fun done => ⟨done, rfl, by simp⟩
    | cons a l ih =>
      intro done
      rw [List.forall_mem_cons] at h
      obtain ⟨⟨r, hr⟩, h⟩ := h
      obtain ⟨l', hl', hmem⟩ := ih h (cond r (a :: done) done)
      refine ⟨l', bind_eq_ok.2 ⟨r, hr, hl'⟩, fun x => ?_⟩
      rw [hmem]
      cases r <;> grind
  obtain ⟨l', hl', hmem⟩ := key []
  exact ⟨l'.reverse, bind_eq_ok.2 ⟨l', hl', rfl⟩, by simpa using hmem⟩

theorem dictPlace_eq_ok {d key : Handle} {h : UInt64} {p : Option Nat} :
    dictPlace d key heap = .ok (h, p) ↔ hash key heap = .ok h ∧
      ∃ t, heap.get? d = some (.dict t) ∧
        findPlace (fun (k, _) => equal k key) (t.bucket h) heap = .ok p := by
  unfold dictPlace
  simp only [bind_eq_ok, dict_eq_ok, pure_eq_ok, Prod.mk.injEq]
  constructor
  · rintro ⟨_, hh, t, ht, _, hp, rfl, rfl⟩
    exact ⟨hh, t, ht, hp⟩
  · rintro ⟨hh, t, ht, hp⟩
    exact ⟨h, hh, t, ht, p, hp, rfl, rfl⟩

theorem setPlace_eq_ok {u member : Handle} {h : UInt64} {p : Option Nat} :
    setPlace u member heap = .ok (h, p) ↔ hash member heap = .ok h ∧
      ∃ t, heap.get? u = some (.set t) ∧
        findPlace (fun k => equal k member) (t.bucket h) heap = .ok p := by
  unfold setPlace
  simp only [bind_eq_ok, set_eq_ok, pure_eq_ok, Prod.mk.injEq]
  constructor
  · rintro ⟨_, hh, t, ht, _, hp, rfl, rfl⟩
    exact ⟨hh, t, ht, hp⟩
  · rintro ⟨hh, t, ht, hp⟩
    exact ⟨h, hh, t, ht, p, hp, rfl, rfl⟩

/-! ## Where a query stops

A query that goes through a list stops where it stops at an element. -/

section Stops

variable {e : Halt}

theorem bind_eq_error {q : Query α} {f : α → Query β} :
    (q >>= f) heap = .error e ↔
      q heap = .error e ∨ ∃ a, q heap = .ok a ∧ f a heap = .error e := by
  simp only [bind, ReaderT.bind, Except.bind]
  cases q heap with
  | ok a => simp
  | error e => simp

variable {l : List γ} {f : γ → Query β} {test : γ → Query Bool}

theorem error_of_mapM (h : l.mapM f heap = .error e) : ∃ x ∈ l, f x heap = .error e := by
  induction l with
  | nil =>
    rw [List.mapM_nil] at h
    cases h
  | cons x l ih =>
    rw [List.exists_mem_cons_iff]
    rw [List.mapM_cons] at h
    refine (bind_eq_error.1 h).imp_right fun ⟨_, _, h⟩ => ?_
    rcases bind_eq_error.1 h with h | ⟨_, -, h⟩
    · exact ih h
    · cases h

theorem error_of_forM {f : γ → Query PUnit} (h : l.forM f heap = .error e) :
    ∃ x ∈ l, f x heap = .error e := by
  induction l with
  | nil => cases h
  | cons x l ih =>
    rw [List.exists_mem_cons_iff]
    exact (bind_eq_error.1 h).imp_right fun ⟨_, _, h⟩ => ih h

theorem error_of_allM (h : l.allM test heap = .error e) : ∃ x ∈ l, test x heap = .error e := by
  induction l with
  | nil => cases h
  | cons x l ih =>
    rw [List.exists_mem_cons_iff]
    refine (bind_eq_error.1 h).imp_right fun ⟨b, _, h⟩ => ?_
    cases b with
    | true => exact ih h
    | false => cases h

theorem error_of_anyM (h : l.anyM test heap = .error e) : ∃ x ∈ l, test x heap = .error e := by
  induction l with
  | nil => cases h
  | cons x l ih =>
    rw [List.exists_mem_cons_iff]
    refine (bind_eq_error.1 h).imp_right fun ⟨b, _, h⟩ => ?_
    cases b with
    | true => cases h
    | false => exact ih h

theorem error_of_findM? (h : l.findM? test heap = .error e) : ∃ x ∈ l, test x heap = .error e := by
  induction l with
  | nil => cases h
  | cons x l ih =>
    rw [List.exists_mem_cons_iff]
    refine (bind_eq_error.1 h).imp_right fun ⟨b, _, h⟩ => ?_
    cases b with
    | true => cases h
    | false => exact ih h

theorem error_of_findPlace (h : findPlace test l heap = .error e) :
    ∃ x ∈ l, test x heap = .error e := by
  induction l with
  | nil => cases h
  | cons x l ih =>
    rw [List.exists_mem_cons_iff]
    refine (bind_eq_error.1 h).imp_right fun ⟨b, _, h⟩ => ?_
    cases b with
    | true => cases h
    | false =>
      rcases bind_eq_error.1 h with h | ⟨_, -, h⟩
      · exact ih h
      · cases h

theorem error_of_allPairs {related : Handle → Handle → Query Bool} {xs ys : List Handle}
    (h : allPairs related xs ys heap = .error e) :
    ∃ x ∈ xs, ∃ y ∈ ys, related x y heap = .error e := by
  induction xs generalizing ys with
  | nil => cases ys <;> cases h
  | cons x xs ih =>
    cases ys with
    | nil => cases h
    | cons y ys =>
      simp only [List.exists_mem_cons_iff]
      rcases bind_eq_error.1 h with h | ⟨b, -, h⟩
      · exact .inl (.inl h)
      · cases b with
        | true =>
          obtain ⟨x, hx, y, hy, h⟩ := ih h
          exact .inr ⟨x, hx, .inr ⟨y, hy, h⟩⟩
        | false => cases h

end Stops

/-! ## Refusals -/

/-- A query never answers. -/
def Refuses (q : Query α) : Prop := ∀ heap a, q heap ≠ .ok a

theorem refuses_fatal (d : Diagnostic) : Refuses (fatal d : Query α) := fun _ _ => nofun

theorem refuses_bind {q : Query α} {f : α → Query β} (h : ∀ a, Refuses (f a)) :
    Refuses (q >>= f) := by
  intro heap b hb
  obtain ⟨a, -, hb⟩ := bind_eq_ok.1 hb
  exact h a heap b hb

theorem Refuses.error {q : Query α} (h : Refuses q) (heap : Heap) : ∃ e, q heap = .error e := by
  cases hq : q heap with
  | ok a => exact absurd hq (h heap a)
  | error e => exact ⟨e, rfl⟩

theorem refuses_badArgument (name expected : String) (v : Handle) :
    Refuses (badArgument name expected v : Query α) := refuses_bind fun _ => refuses_fatal _

theorem refuses_unimplemented (operation : String) (v : Handle) :
    Refuses (unimplemented operation v : Query α) := refuses_bind fun _ => refuses_fatal _

theorem refuses_unsupported (operation : String) (v w : Handle) :
    Refuses (unsupported operation v w : Query α) :=
  refuses_bind fun _ => refuses_bind fun _ => refuses_fatal _

end ObjectSpace.Heap
