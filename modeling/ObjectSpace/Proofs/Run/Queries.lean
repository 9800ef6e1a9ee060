import ObjectSpace.Membership
import ObjectSpace.Ordering
import ObjectSpace.Proofs.Run.Trust
import ObjectSpace.Proofs.Table.Entries
import ObjectSpace.Repr

/-!
# Queries under a trust

Queries of the heap, of equality and order, of membership and of text forms, asked with `ok`
handles: each goes only to handles that an `ok` handle leads to.
-/

namespace ObjectSpace.Trust

variable {T : Trust} {s : Space} {v a b : Handle}

/-! ## Objects -/

theorem asks_typeName (hv : T.ok s.heap v) : T.Asks s (Heap.typeName v) := by
  unfold Heap.typeName
  refine asks_bind (asks_get hv) fun o ho => ?_
  split
  · refine asks_bind (asks_get ((ok_instanceObject _ _).1 ho).1) fun _ _ => ?_
    split <;> exact asks_pure (ok_plain _)
  · exact asks_pure (ok_plain _)
  · exact asks_pure (ok_plain _)

theorem asks_dict (hv : T.ok s.heap v) : T.Asks s (Heap.dict v) := by
  unfold Heap.dict
  refine asks_bind (asks_get hv) fun o ho => ?_
  split
  · exact asks_pure ((ok_dictObject _).1 ho)
  · exact asks_violate fun _ => trivial

theorem asks_set (hv : T.ok s.heap v) : T.Asks s (Heap.set v) := by
  unfold Heap.set
  refine asks_bind (asks_get hv) fun o ho => ?_
  split
  · exact asks_pure ((ok_setObject _).1 ho)
  · exact asks_violate fun _ => trivial

theorem asks_list (hv : T.ok s.heap v) : T.Asks s (Heap.list v) := by
  unfold Heap.list
  refine asks_bind (asks_get hv) fun o ho => ?_
  split
  · exact asks_pure ((ok_listObject _).1 ho)
  · exact asks_violate fun _ => trivial

theorem asks_file (hv : T.ok s.heap v) : T.Asks s (Heap.file v) := by
  unfold Heap.file
  refine asks_bind (asks_get hv) fun o _ => ?_
  split
  · exact asks_pure (ok_plain _)
  · exact asks_violate fun _ => trivial

theorem asks_context (hv : T.ok s.heap v) : T.Asks s (Heap.context v) := by
  unfold Heap.context
  refine asks_bind (asks_get hv) fun o ho => ?_
  split
  · exact asks_pure ((ok_contextObject _).1 ho)
  · exact asks_violate fun _ => trivial

/-- A query of the object behind a handle for data without handles. -/
theorem asks_get_plain {α : Type} [Carries α] [Plain α] (hv : T.ok s.heap v) (f : Object → α) :
    T.Asks s (do return f (← Heap.get v)) :=
  asks_bind (asks_get hv) fun _ _ => asks_pure (ok_plain _)

theorem asks_asInt? (hv : T.ok s.heap v) : T.Asks s (Heap.asInt? v) := asks_get_plain hv _

theorem asks_asStr? (hv : T.ok s.heap v) : T.Asks s (Heap.asStr? v) := asks_get_plain hv _

section Diagnostics

variable {α : Type} [Carries α]

theorem asks_badArgument (name expected : String) (hv : T.ok s.heap v) :
    T.Asks s (Heap.badArgument name expected v : Query α) :=
  asks_bind (asks_typeName hv) fun _ _ => asks_fatal _

theorem asks_unimplemented (operation : String) (hv : T.ok s.heap v) :
    T.Asks s (Heap.unimplemented operation v : Query α) :=
  asks_bind (asks_typeName hv) fun _ _ => asks_fatal _

theorem asks_unsupported (operation : String) (ha : T.ok s.heap a) (hb : T.ok s.heap b) :
    T.Asks s (Heap.unsupported operation a b : Query α) :=
  asks_bind (asks_typeName ha) fun _ _ =>
    asks_bind (asks_typeName hb) fun _ _ => asks_fatal _

end Diagnostics

theorem asks_expectInt (name : String) (hv : T.ok s.heap v) :
    T.Asks s (Heap.expectInt v name) := by
  refine asks_bind (asks_asInt? hv) fun o _ => ?_
  split
  · exact asks_pure (ok_plain _)
  · exact asks_badArgument _ _ hv

theorem asks_expectStr (name : String) (hv : T.ok s.heap v) :
    T.Asks s (Heap.expectStr v name) := by
  refine asks_bind (asks_asStr? hv) fun o _ => ?_
  split
  · exact asks_pure (ok_plain _)
  · exact asks_badArgument _ _ hv

theorem ok_asSequence? {o : Object} (ho : T.Ok s o) : T.Ok s o.asSequence? := by
  cases o <;> simp_all [Object.asSequence?]

theorem asks_arguments (hv : T.ok s.heap v) : T.Asks s (Heap.arguments v) := by
  refine asks_bind (asks_get hv) fun o ho => ?_
  have hseq := ok_asSequence? ho
  split
  · rename_i items hi
    rw [hi, ok_some] at hseq
    exact asks_pure hseq
  · exact asks_violate fun _ => trivial

/-! ## Hashing and equality -/

theorem asks_hashWithin (n : Nat) (hv : T.ok s.heap v) : T.Asks s (Heap.hashWithin n v) := by
  induction n generalizing v with
  | zero => exact asks_violate fun _ => trivial
  | succ n ih =>
    unfold Heap.hashWithin
    refine asks_bind (asks_get hv) fun o ho => ?_
    split
    case h_7 items =>
      have hitems : ∀ item ∈ items.toList, T.ok s.heap item := by simpa using ho
      refine asks_bind (asks_foldlM (ok_plain _) fun h _ item hi => ?_) fun _ _ =>
        asks_pure (ok_plain _)
      exact asks_bind (ih (hitems item hi)) fun _ _ => asks_pure (ok_plain _)
    case h_11 => exact asks_bind (asks_typeName hv) fun _ _ => asks_fatal _
    all_goals exact asks_pure (ok_plain _)

theorem asks_depth : T.Asks s Heap.depth := ⟨fun _ => ok_plain _⟩

theorem asks_hash (hv : T.ok s.heap v) : T.Asks s (Heap.hash v) :=
  asks_bind asks_depth fun n _ => asks_hashWithin n hv

theorem asks_attempt {α : Type} [Carries α] {q : Query α} (hq : T.Asks s q) :
    T.Asks s (Heap.attempt q) := by
  refine ⟨fun hs => ?_⟩
  have h := hq.answer hs
  unfold Heap.attempt
  cases hqs : q s.heap with
  | ok a =>
    rw [hqs] at h
    exact (ok_some a).2 h
  | error e =>
    rw [hqs] at h
    cases e with
    | fatal d => exact ok_none
    | violation w => exact h

/-- Comparisons of `ok` handles. -/
def Compares (T : Trust) (s : Space) (related : Handle → Handle → Query Bool) : Prop :=
  ∀ x y, T.ok s.heap x → T.ok s.heap y → T.Asks s (related x y)

theorem asks_allPairs {related : Handle → Handle → Query Bool} (hr : T.Compares s related)
    {xs ys : List Handle} (hx : ∀ x ∈ xs, T.ok s.heap x) (hy : ∀ y ∈ ys, T.ok s.heap y) :
    T.Asks s (Heap.allPairs related xs ys) := by
  induction xs generalizing ys with
  | nil => cases ys <;> exact asks_pure (ok_plain _)
  | cons x xs ih =>
    cases ys with
    | nil => exact asks_pure (ok_plain _)
    | cons y ys =>
      rw [List.forall_mem_cons] at hx hy
      refine asks_bind (hr x y hx.1 hy.1) fun b _ => asks_ite (fun _ => ?_) fun _ => ?_
      · exact ih hx.2 hy.2
      · exact asks_pure (ok_plain _)

theorem asks_sameContent {related : Handle → Handle → Query Bool} (hr : T.Compares s related)
    {x y : Object} (hx : T.Ok s x) (hy : T.Ok s y) : T.Asks s (Heap.sameContent related x y) := by
  unfold Heap.sameContent
  split
  case h_3 | h_4 =>
    refine asks_ite (fun _ => ?_) fun _ => asks_pure (ok_plain _)
    exact asks_allPairs hr (by simpa using hx) (by simpa using hy)
  case h_5 d e =>
    rw [ok_dictObject, ok_table] at hx hy
    refine asks_ite (fun _ => ?_) fun _ => asks_pure (ok_plain _)
    refine asks_allM fun (k, v) hkv => ?_
    obtain ⟨hk, hv⟩ := (ok_pair k v).1 (hx _ hkv)
    refine asks_bind (asks_attempt (asks_hash ((ok_handle k).1 hk))) fun h? _ => ?_
    cases h? with
    | none => exact asks_pure (ok_plain _)
    | some h =>
      have hbucket : ∀ f ∈ e.bucket h, T.Ok s f := fun f hf =>
        hy f (Table.mem_of_mem_bucket hf)
      refine asks_bind (asks_findM? ((ok_list _).2 hbucket) fun f hf => ?_) fun found hfound => ?_
      · exact hr _ _ ((ok_handle _).1 ((ok_pair _ _).1 (hbucket f hf)).1) ((ok_handle k).1 hk)
      · split
        · exact asks_pure (ok_plain _)
        · rw [ok_some, ok_pair] at hfound
          exact hr _ _ ((ok_handle v).1 hv) ((ok_handle _).1 hfound.2)
  case h_6 t u =>
    rw [ok_setObject, ok_table] at hx hy
    refine asks_ite (fun _ => ?_) fun _ => asks_pure (ok_plain _)
    refine asks_allM fun k hk => ?_
    have hk := (ok_handle k).1 (hx k hk)
    refine asks_bind (asks_attempt (asks_hash hk)) fun h? _ => ?_
    cases h? with
    | none => exact asks_pure (ok_plain _)
    | some h =>
      exact asks_anyM fun k' hk' =>
        hr _ _ ((ok_handle k').1 (hy k' (Table.mem_of_mem_bucket hk'))) hk
  case h_9 => split <;> exact asks_pure (ok_plain _)
  all_goals exact asks_pure (ok_plain _)

theorem compares_equalWithin (n : Nat) : T.Compares s (Heap.equalWithin n) := by
  induction n with
  | zero => exact fun _ _ _ _ => asks_violate fun _ => trivial
  | succ n ih =>
    intro x y hx hy
    unfold Heap.equalWithin
    refine asks_ite (fun _ => asks_pure (ok_plain _)) fun _ => ?_
    exact asks_bind (asks_get hx) fun o ho => asks_bind (asks_get hy) fun p hp =>
      asks_sameContent ih ho hp

theorem asks_equal (ha : T.ok s.heap a) (hb : T.ok s.heap b) : T.Asks s (Heap.equal a b) :=
  asks_bind asks_depth fun n _ => compares_equalWithin n a b ha hb

/-! ## Look-ups -/

theorem asks_findPlace {α : Type} {test : α → Query Bool} {l : List α}
    (h : ∀ x ∈ l, T.Asks s (test x)) : T.Asks s (Heap.findPlace test l) := by
  induction l with
  | nil => exact asks_pure (ok_plain _)
  | cons x l ih =>
    rw [List.forall_mem_cons] at h
    refine asks_bind (h.1) fun b _ => asks_ite (fun _ => asks_pure (ok_plain _)) fun _ => ?_
    exact asks_bind (ih h.2) fun _ _ => asks_pure (ok_plain _)

theorem asks_dictPlace {d key : Handle} (hd : T.ok s.heap d) (hk : T.ok s.heap key) :
    T.Asks s (Heap.dictPlace d key) := by
  refine asks_bind (asks_hash hk) fun h _ => asks_bind (asks_dict hd) fun t ht => ?_
  refine asks_bind (asks_findPlace fun e he => ?_) fun _ _ => asks_pure (ok_plain _)
  rw [ok_table] at ht
  have he := ht e (Table.mem_of_mem_bucket he)
  exact asks_equal ((ok_handle _).1 ((ok_pair _ _).1 he).1) hk

theorem asks_dictLookup {d key : Handle} (hd : T.ok s.heap d) (hk : T.ok s.heap key) :
    T.Asks s (Heap.dictLookup d key) := by
  refine asks_bind (asks_dictPlace hd hk) fun p _ => ?_
  obtain ⟨h, place⟩ := p
  cases place with
  | none => exact asks_pure ok_none
  | some i =>
    refine asks_bind (asks_dict hd) fun t ht => asks_pure (ok_option.2 fun v hv => ?_)
    obtain ⟨e, he, rfl⟩ := Option.map_eq_some_iff.1 hv
    rw [ok_table] at ht
    exact ((ok_pair _ _).1 (ht e (Table.mem_toList.2 ⟨h, Table.mem_of_entryAt? he⟩))).2

theorem asks_setPlace {u member : Handle} (hu : T.ok s.heap u) (hm : T.ok s.heap member) :
    T.Asks s (Heap.setPlace u member) := by
  refine asks_bind (asks_hash hm) fun h _ => asks_bind (asks_set hu) fun t ht => ?_
  refine asks_bind (asks_findPlace fun e he => ?_) fun _ _ => asks_pure (ok_plain _)
  rw [ok_table] at ht
  exact asks_equal ((ok_handle _).1 (ht e (Table.mem_of_mem_bucket he))) hm

theorem asks_setContains {u member : Handle} (hu : T.ok s.heap u) (hm : T.ok s.heap member) :
    T.Asks s (Heap.setContains u member) :=
  asks_bind (asks_setPlace hu hm) fun _ _ => asks_pure (ok_plain _)

theorem asks_indexOf? {items : List Handle} (hi : ∀ x ∈ items, T.ok s.heap x)
    (hv : T.ok s.heap v) : T.Asks s (Heap.indexOf? items v) :=
  asks_findPlace fun x hx => asks_equal (hi x hx) hv

theorem asks_countOf {items : List Handle} (hi : ∀ x ∈ items, T.ok s.heap x)
    (hv : T.ok s.heap v) : T.Asks s (Heap.countOf items v) :=
  asks_foldlM (ok_plain _) fun _ _ x hx =>
    asks_bind (asks_equal (hi x hx) hv) fun _ _ => asks_pure (ok_plain _)

/-! ## Order -/

theorem asks_firstDifference {xs ys : List Handle} (hx : ∀ x ∈ xs, T.ok s.heap x)
    (hy : ∀ y ∈ ys, T.ok s.heap y) : T.Asks s (Heap.firstDifference xs ys) := by
  induction xs generalizing ys with
  | nil => exact asks_pure ok_none
  | cons x xs ih =>
    cases ys with
    | nil => exact asks_pure ok_none
    | cons y ys =>
      rw [List.forall_mem_cons] at hx hy
      refine asks_bind (asks_equal hx.1 hy.1) fun b _ => asks_ite (fun _ => ?_) fun _ => ?_
      · exact ih hx.2 hy.2
      · exact asks_pure (by simp [hx.1, hy.1])

theorem asks_isSubset (ha : T.ok s.heap a) (hb : T.ok s.heap b) :
    T.Asks s (Heap.isSubset a b) := by
  refine asks_bind (asks_set ha) fun t ht => ?_
  rw [ok_table] at ht
  exact asks_allM fun k hk => asks_setContains hb ((ok_handle k).1 (ht k hk))

theorem asks_orderedWithin (n : Nat) (op : Comparison) (ha : T.ok s.heap a)
    (hb : T.ok s.heap b) : T.Asks s (Heap.orderedWithin n op a b) := by
  induction n generalizing a b with
  | zero => exact asks_violate fun _ => trivial
  | succ n ih =>
    unfold Heap.orderedWithin
    refine asks_bind (asks_get ha) fun x hx => asks_bind (asks_get hb) fun y hy => ?_
    split
    case h_3 | h_4 =>
      refine asks_bind (asks_firstDifference (by simpa using hx) (by simpa using hy))
        fun found hfound => ?_
      split
      · rw [ok_some, ok_pair] at hfound
        exact ih ((ok_handle _).1 hfound.1) ((ok_handle _).1 hfound.2)
      · exact asks_pure (ok_plain _)
    case h_5 =>
      split
      case h_1 | h_2 =>
        exact asks_ite (fun _ => asks_isSubset ha hb) fun _ => asks_pure (ok_plain _)
      case h_3 | h_4 =>
        exact asks_ite (fun _ => asks_isSubset hb ha) fun _ => asks_pure (ok_plain _)
      all_goals exact asks_unsupported _ ha hb
    case h_6 =>
      split
      · exact asks_pure (ok_plain _)
      · exact asks_unsupported _ ha hb
    all_goals exact asks_pure (ok_plain _)

theorem asks_lessThan (ha : T.ok s.heap a) (hb : T.ok s.heap b) : T.Asks s (Heap.lessThan a b) :=
  asks_bind asks_depth fun n _ => asks_orderedWithin n .lt ha hb

theorem asks_compares (op : Comparison) (ha : T.ok s.heap a) (hb : T.ok s.heap b) :
    T.Asks s (Heap.compares op a b) := by
  unfold Heap.compares
  split
  case h_1 | h_2 =>
    refine asks_bind (asks_get ha) fun x _ => asks_bind (asks_get hb) fun y _ => ?_
    refine asks_ite (fun _ => ?_) fun _ => asks_unsupported _ ha hb
    exact asks_bind (asks_equal ha hb) fun _ _ => asks_pure (ok_plain _)
  case h_3 => exact asks_bind asks_depth fun n _ => asks_orderedWithin n op ha hb

theorem asks_merge {left right : List Handle} (hl : ∀ x ∈ left, T.ok s.heap x)
    (hr : ∀ x ∈ right, T.ok s.heap x) : T.Asks s (Heap.merge left right) := by
  fun_induction Heap.merge left right with
  | case1 right => exact asks_pure (by simpa using hr)
  | case2 left => exact asks_pure (by simpa using hl)
  | case3 l ls r rs ih₁ ih₂ =>
    rw [List.forall_mem_cons] at hl hr
    refine asks_bind (asks_lessThan hr.1 hl.1) fun b _ => asks_ite (fun _ => ?_) fun _ => ?_
    · refine asks_bind (ih₁ (List.forall_mem_cons.2 hl) hr.2) fun m hm => asks_pure ?_
      simpa [hr.1] using hm
    · refine asks_bind (ih₂ hl.2 (List.forall_mem_cons.2 hr)) fun m hm => asks_pure ?_
      simpa [hl.1] using hm

theorem asks_sort {items : List Handle} (hi : ∀ x ∈ items, T.ok s.heap x) :
    T.Asks s (Heap.sort items) := by
  fun_induction Heap.sort items with
  | case1 items h => exact asks_pure (by simpa using hi)
  | case2 items h half ih₁ ih₂ =>
    refine asks_bind (ih₁ fun x hx => hi x (List.mem_of_mem_take hx)) fun left hleft => ?_
    refine asks_bind (ih₂ fun x hx => hi x (List.mem_of_mem_drop hx)) fun right hright => ?_
    exact asks_merge (by simpa using hleft) (by simpa using hright)

theorem asks_best {better : Handle → Handle → Query Bool} (hb : T.Compares s better)
    {first : Handle} {rest : List Handle} (hf : T.ok s.heap first)
    (hr : ∀ x ∈ rest, T.ok s.heap x) : T.Asks s (Heap.best better first rest) := by
  refine asks_foldlM ((ok_handle _).2 hf) fun b hok x hx => ?_
  refine asks_bind (hb x b (hr x hx) ((ok_handle b).1 hok)) fun c _ => asks_pure ?_
  split
  · exact (ok_handle x).2 (hr x hx)
  · exact hok

/-! ## Membership -/

theorem asks_truthy (hv : T.ok s.heap v) : T.Asks s (Heap.truthy v) := by
  refine asks_bind (asks_get hv) fun o ho => ?_
  split
  case h_11 =>
    exact asks_bind (asks_dict ((ok_viewObject _ _).1 ho)) fun _ _ => asks_pure (ok_plain _)
  all_goals exact asks_pure (ok_plain _)

theorem asks_contains (ha : T.ok s.heap a) (hb : T.ok s.heap b) :
    T.Asks s (Heap.contains a b) := by
  refine asks_bind (asks_get ha) fun o ho => ?_
  split
  case h_1 =>
    refine asks_bind (asks_asStr? hb) fun needle? _ => ?_
    split
    · exact asks_pure (ok_plain _)
    · exact asks_unsupported _ ha hb
  case h_2 =>
    refine asks_bind (asks_get hb) fun p _ => ?_
    split
    case h_3 => exact asks_unsupported _ ha hb
    all_goals exact asks_pure (ok_plain _)
  case h_3 | h_4 =>
    exact asks_bind (asks_indexOf? (by simpa using ho) hb) fun _ _ => asks_pure (ok_plain _)
  case h_5 => exact asks_bind (asks_dictLookup ha hb) fun _ _ => asks_pure (ok_plain _)
  case h_6 => exact asks_setContains ha hb
  case h_7 => exact asks_bind (asks_asInt? hb) fun _ _ => asks_pure (ok_plain _)
  case h_8 d =>
    have hd := (ok_viewObject d .keys).1 ho
    exact asks_bind (asks_dictLookup hd hb) fun _ _ => asks_pure (ok_plain _)
  case h_9 d =>
    have hd := (ok_viewObject d .values).1 ho
    refine asks_bind (asks_dict hd) fun t ht => ?_
    refine asks_bind (asks_indexOf? (fun x hx => ?_) hb) fun _ _ => asks_pure (ok_plain _)
    obtain ⟨e, he, rfl⟩ := List.mem_map.1 hx
    rw [ok_table] at ht
    exact (ok_handle _).1 ((ok_pair _ _).1 (ht e he)).2
  case h_10 d =>
    have hd := (ok_viewObject d .items).1 ho
    refine asks_bind (asks_get hb) fun p hp => ?_
    split
    · rw [ok_tupleObject, ok_array] at hp
      split
      · rename_i items k v heq
        rw [heq] at hp
        have hk : T.ok s.heap k := (ok_handle k).1 (hp k (by simp))
        have hv : T.ok s.heap v := (ok_handle v).1 (hp v (by simp))
        refine asks_bind (asks_dictLookup hd hk) fun stored? hstored => ?_
        split
        · exact asks_equal ((ok_handle _).1 ((ok_some _).1 hstored)) hv
        · exact asks_pure (ok_plain _)
      · exact asks_pure (ok_plain _)
    · exact asks_pure (ok_plain _)
  case h_11 => exact asks_unimplemented _ ha

/-! ## Text forms -/

theorem asks_reprWithin (n : Nat) (active : List Handle) (hv : T.ok s.heap v) :
    T.Asks s (Heap.reprWithin n active v) := by
  induction n generalizing active v with
  | zero => exact asks_violate fun _ => trivial
  | succ n ih =>
    unfold Heap.reprWithin
    refine asks_bind (asks_get hv) fun o ho => asks_ite (fun _ => asks_pure (ok_plain _))
      fun _ => ?_
    have hparts : ∀ items : List Handle, (∀ x ∈ items, T.ok s.heap x) →
        T.Asks s (items.mapM (Heap.reprWithin n (v :: active))) := fun items hi =>
      asks_mapM fun x hx => ih _ (hi x hx)
    dsimp only
    split
    case h_6 | h_7 =>
      exact asks_bind (hparts _ (by simpa using ho)) fun _ _ => asks_pure (ok_plain _)
    case h_8 t =>
      rw [ok_dictObject, ok_table] at ho
      refine asks_bind (asks_mapM fun (k, w) hkw => ?_) fun _ _ => asks_pure (ok_plain _)
      have hkw := ho (k, w) hkw
      simp only [ok_pair, ok_handle] at hkw
      exact asks_bind (ih _ hkw.1) fun _ _ =>
        asks_bind (ih _ hkw.2) fun _ _ => asks_pure (ok_plain _)
    case h_9 t =>
      refine asks_ite (fun _ => asks_pure (ok_plain _)) fun _ => ?_
      exact asks_bind (hparts _ (by simpa using ho)) fun _ _ => asks_pure (ok_plain _)
    case h_10 d shown _ =>
      refine asks_bind (asks_dict ((ok_viewObject d shown).1 ho)) fun t ht => ?_
      rw [ok_table] at ht
      refine asks_bind (asks_mapM fun (k, w) hkw => ?_) fun _ _ => asks_pure (ok_plain _)
      have hkw := ht (k, w) hkw
      simp only [ok_pair, ok_handle] at hkw
      cases shown with
      | keys => exact ih _ hkw.1
      | values => exact ih _ hkw.2
      | items =>
        exact asks_bind (hparts [k, w] (by simp [hkw])) fun _ _ => asks_pure (ok_plain _)
    case h_14 | h_15 => exact asks_bind (asks_typeName hv) fun _ _ => asks_pure (ok_plain _)
    case h_19 receiver f _ =>
      rw [ok_methodObject] at ho
      exact asks_bind (asks_get ho.2) fun _ _ =>
        asks_bind (asks_typeName ho.1) fun _ _ => asks_pure (ok_plain _)
    all_goals exact asks_pure (ok_plain _)

theorem asks_repr (hv : T.ok s.heap v) : T.Asks s (Heap.repr v) :=
  asks_bind asks_depth fun n _ => asks_reprWithin n [] hv

theorem asks_str (hv : T.ok s.heap v) : T.Asks s (Heap.str v) := by
  refine asks_bind (asks_get hv) fun o _ => ?_
  split
  · exact asks_pure (ok_plain _)
  · exact asks_repr hv

theorem asks_conversion {c : Char} {convert : Handle → Query String}
    (h : Heap.conversion? c = some convert) (hv : T.ok s.heap v) : T.Asks s (convert v) := by
  unfold Heap.conversion? at h
  split at h
  case h_1 => exact Option.some.inj h ▸ asks_str hv
  case h_2 => exact Option.some.inj h ▸ asks_repr hv
  case h_3 | h_4 | h_5 =>
    obtain rfl := Option.some.inj h
    exact asks_bind (asks_expectInt _ hv) fun _ _ => asks_pure (ok_plain _)
  case h_6 => cases h

theorem asks_fill (done : String) (format : List Char) {args : List Handle}
    (ha : ∀ x ∈ args, T.ok s.heap x) : T.Asks s (Heap.fill done format args) := by
  fun_induction Heap.fill done format args with
  | case1 => exact asks_pure (ok_plain _)
  | case3 done rest args ih => exact ih ha
  | case7 done c rest convert v args hpercent hc ih =>
    rw [List.forall_mem_cons] at ha
    exact asks_bind (asks_conversion hc ha.1) fun text _ => ih text ha.2
  | case8 done c rest args _ _ _ ih => exact ih ha
  | _ => exact asks_fatal _

theorem asks_percentFormat (format : String) (hv : T.ok s.heap v) :
    T.Asks s (Heap.percentFormat format v) := by
  refine asks_bind (asks_get hv) fun o ho => ?_
  split
  · exact asks_fill _ _ (by simpa using ho)
  · exact asks_fill _ _ (by simpa using hv)

theorem asks_keyNotFound {α : Type} [Carries α] {key : Handle} (hk : T.ok s.heap key) :
    T.Asks s (Heap.keyNotFound Heap.repr key : Query α) :=
  asks_bind (asks_repr hk) fun _ _ => asks_fatal _

end ObjectSpace.Trust
