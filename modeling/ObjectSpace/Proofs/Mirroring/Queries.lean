import ObjectSpace.Proofs.Mirroring.Rules
import ObjectSpace.Proofs.Run.Iteration

/-!
# Queries in twin spaces

Hashing, comparing, ordering, writing and looking up values that are known gives the same in twin
spaces. The bounds on the depth of values may differ, so each query that follows the parts of a
value is compared under two bounds.
-/

namespace ObjectSpace

open Trust

variable {J : List Handle} {spare : SizeClass → Nat → Prop} {s t : Space} {a b d u v key : Handle}
  {name expected : String} (w : s.Twins J spare t)

include w

/-! ## Objects -/

theorem reflect_typeName (hv : Known J s v) :
    Reflect J s t (Heap.typeName v) (Heap.typeName v) := by
  refine reflect_get_bind w hv fun o _ ho => ?_
  split
  · have hcls := ((ok_instanceObject _ _).1 ho).1
    refine reflect_get_bind w ((ok_handle _).2 hcls) fun p _ _ => ?_
    split <;> exact reflect_pure (ok_plain _)
  all_goals exact reflect_pure (ok_plain _)

section Diagnostics

variable {α : Type} [Carries α]

theorem reflect_badArgument (hv : Known J s v) :
    Reflect J s t (Heap.badArgument name expected v : Query α) (Heap.badArgument name expected v) :=
  reflect_bind (reflect_typeName w hv) fun _ _ _ => reflect_fatal _

theorem reflect_unimplemented (hv : Known J s v) :
    Reflect J s t (Heap.unimplemented name v : Query α) (Heap.unimplemented name v) :=
  reflect_bind (reflect_typeName w hv) fun _ _ _ => reflect_fatal _

theorem reflect_unsupported (ha : Known J s a) (hb : Known J s b) :
    Reflect J s t (Heap.unsupported name a b : Query α) (Heap.unsupported name a b) :=
  reflect_bind (reflect_typeName w ha) fun _ _ _ =>
    reflect_bind (reflect_typeName w hb) fun _ _ _ => reflect_fatal _

end Diagnostics

theorem reflect_dict (hd : Known J s d) : Reflect J s t (Heap.dict d) (Heap.dict d) := by
  refine reflect_get_bind w hd fun o _ ho => ?_
  split
  · exact reflect_pure ((ok_dictObject _).1 ho)
  · exact reflect_violate _ _

theorem reflect_set (hu : Known J s u) : Reflect J s t (Heap.set u) (Heap.set u) := by
  refine reflect_get_bind w hu fun o _ ho => ?_
  split
  · exact reflect_pure ((ok_setObject _).1 ho)
  · exact reflect_violate _ _

theorem reflect_list (hu : Known J s u) : Reflect J s t (Heap.list u) (Heap.list u) := by
  refine reflect_get_bind w hu fun o _ ho => ?_
  split
  · exact reflect_pure ((ok_listObject _).1 ho)
  · exact reflect_violate _ _

theorem reflect_file (hu : Known J s u) : Reflect J s t (Heap.file u) (Heap.file u) := by
  refine reflect_get_bind w hu fun o _ _ => ?_
  split
  · exact reflect_pure (ok_plain _)
  · exact reflect_violate _ _

theorem reflect_asInt? (hv : Known J s v) : Reflect J s t (Heap.asInt? v) (Heap.asInt? v) :=
  reflect_get_bind w hv fun _ _ _ => reflect_pure (ok_plain _)

theorem reflect_asStr? (hv : Known J s v) : Reflect J s t (Heap.asStr? v) (Heap.asStr? v) :=
  reflect_get_bind w hv fun _ _ _ => reflect_pure (ok_plain _)

theorem reflect_expectInt (hv : Known J s v) :
    Reflect J s t (Heap.expectInt v name) (Heap.expectInt v name) := by
  refine reflect_bind (reflect_asInt? w hv) fun n? _ _ => ?_
  split
  · exact reflect_pure (ok_plain _)
  · exact reflect_badArgument w hv

theorem reflect_expectStr (hv : Known J s v) :
    Reflect J s t (Heap.expectStr v name) (Heap.expectStr v name) := by
  refine reflect_bind (reflect_asStr? w hv) fun text? _ _ => ?_
  split
  · exact reflect_pure (ok_plain _)
  · exact reflect_badArgument w hv

/-! ## Hashing and equality -/

theorem reflect_hashWithin (n n' : Nat) (hv : Known J s v) :
    Reflect J s t (Heap.hashWithin n v) (Heap.hashWithin n' v) := by
  induction n generalizing n' v with
  | zero => exact reflect_violate _ _
  | succ n ih =>
    cases n' with
    | zero => exact reflect_violated _ _
    | succ n' =>
      refine reflect_get_bind w hv fun o hget ho => ?_
      split
      case h_7 items =>
        have hitems : ∀ x ∈ items.toList, Known J s x := by simpa using ho
        refine reflect_bind (reflect_foldlM (ok_plain _) fun h _ x hx => ?_) fun _ _ _ =>
          reflect_pure (ok_plain _)
        exact reflect_bind (ih n' (hitems x hx)) fun _ _ _ => reflect_pure (ok_plain _)
      case h_11 => exact reflect_bind (reflect_typeName w hv) fun _ _ _ => reflect_fatal _
      all_goals exact reflect_pure (ok_plain _)

theorem reflect_hash (hv : Known J s v) : Reflect J s t (Heap.hash v) (Heap.hash v) :=
  reflect_depth fun n n' => reflect_hashWithin w n n' hv

/-- Comparing the content of objects concurs where comparing what they consist of does. -/
theorem reflect_sameContent {related related' : Handle → Handle → Query Bool}
    (hr : ∀ p q, Known J s p → Known J s q → Reflect J s t (related p q) (related' p q))
    {x y : Object} (hx : Known J s x) (hy : Known J s y) :
    Reflect J s t (Heap.sameContent related x y) (Heap.sameContent related' x y) := by
  unfold Heap.sameContent
  split
  case h_3 xs ys | h_4 xs ys =>
    have hxs : ∀ p ∈ xs.toList, Known J s p := by simpa using hx
    have hys : ∀ q ∈ ys.toList, Known J s q := by simpa using hy
    refine reflect_ite (fun _ => ?_) fun _ => reflect_pure (ok_plain _)
    exact reflect_allPairs fun p hp q hq => hr p q (hxs p hp) (hys q hq)
  case h_5 d e =>
    have hx := (ok_table _).1 ((ok_dictObject d).1 hx)
    have hy := (ok_table _).1 ((ok_dictObject e).1 hy)
    refine reflect_ite (fun _ => ?_) fun _ => reflect_pure (ok_plain _)
    refine reflect_allM fun (k, v) hkv => ?_
    obtain ⟨hk, hv⟩ := (ok_pair k v).1 (hx _ hkv)
    refine reflect_bind (reflect_attempt (reflect_hash w hk)) fun h? _ _ => ?_
    cases h? with
    | none => exact reflect_pure (ok_plain _)
    | some h =>
      have hbucket : ∀ f ∈ e.bucket h, Known J s f := fun f hf => hy f (Table.mem_of_mem_bucket hf)
      refine reflect_bind (reflect_findM? ((ok_list _).2 hbucket) fun f hf => ?_)
        fun found _ hfound => ?_
      · exact hr _ _ ((ok_pair _ _).1 (hbucket f hf)).1 hk
      · split
        · exact reflect_pure (ok_plain _)
        · exact hr _ _ hv ((ok_pair _ _).1 ((ok_some _).1 hfound)).2
  case h_6 c e =>
    have hx := (ok_table _).1 ((ok_setObject c).1 hx)
    have hy := (ok_table _).1 ((ok_setObject e).1 hy)
    refine reflect_ite (fun _ => ?_) fun _ => reflect_pure (ok_plain _)
    refine reflect_allM fun k hk => ?_
    refine reflect_bind (reflect_attempt (reflect_hash w (hx k hk))) fun h? _ _ => ?_
    cases h? with
    | none => exact reflect_pure (ok_plain _)
    | some h =>
      exact reflect_anyM fun k' hk' => hr _ _ (hy k' (Table.mem_of_mem_bucket hk')) (hx k hk)
  case h_9 => split <;> exact reflect_pure (ok_plain _)
  all_goals exact reflect_pure (ok_plain _)

theorem reflect_equalWithin (n n' : Nat) (ha : Known J s a) (hb : Known J s b) :
    Reflect J s t (Heap.equalWithin n a b) (Heap.equalWithin n' a b) := by
  induction n generalizing n' a b with
  | zero => exact reflect_violate _ _
  | succ n ih =>
    cases n' with
    | zero => exact reflect_violated _ _
    | succ n' =>
      unfold Heap.equalWithin
      refine reflect_ite (fun _ => reflect_pure (ok_plain _)) fun _ => ?_
      refine reflect_get_bind w ha fun x _ hx => reflect_get_bind w hb fun y _ hy => ?_
      exact reflect_sameContent w (fun p q hp hq => ih n' hp hq) hx hy

theorem reflect_equal (ha : Known J s a) (hb : Known J s b) :
    Reflect J s t (Heap.equal a b) (Heap.equal a b) :=
  reflect_depth fun n n' => reflect_equalWithin w n n' ha hb

/-! ## Look-ups -/

theorem reflect_dictPlace (hd : Known J s d) (hk : Known J s key) :
    Reflect J s t (Heap.dictPlace d key) (Heap.dictPlace d key) := by
  refine reflect_bind (reflect_hash w hk) fun h _ _ =>
    reflect_bind (reflect_dict w hd) fun e _ he => ?_
  have he := (ok_table _).1 he
  refine reflect_bind (reflect_findPlace fun f hf => ?_) fun _ _ _ => reflect_pure (ok_plain _)
  exact reflect_equal w ((ok_pair _ _).1 (he f (Table.mem_of_mem_bucket hf))).1 hk

theorem reflect_dictLookup (hd : Known J s d) (hk : Known J s key) :
    Reflect J s t (Heap.dictLookup d key) (Heap.dictLookup d key) := by
  refine reflect_bind (reflect_dictPlace w hd hk) fun (h, place) _ _ => ?_
  cases place with
  | none => exact reflect_pure ok_none
  | some i =>
    refine reflect_bind (reflect_dict w hd) fun e _ he => reflect_pure (ok_option.2 fun v hv => ?_)
    obtain ⟨f, hf, rfl⟩ := Option.map_eq_some_iff.1 hv
    have he := (ok_table _).1 he f (Table.mem_toList.2 ⟨h, Table.mem_of_entryAt? hf⟩)
    exact ((ok_pair _ _).1 he).2

theorem reflect_setPlace (hu : Known J s u) (hk : Known J s key) :
    Reflect J s t (Heap.setPlace u key) (Heap.setPlace u key) := by
  refine reflect_bind (reflect_hash w hk) fun h _ _ =>
    reflect_bind (reflect_set w hu) fun e _ he => ?_
  have he := (ok_table _).1 he
  refine reflect_bind (reflect_findPlace fun f hf => ?_) fun _ _ _ => reflect_pure (ok_plain _)
  exact reflect_equal w (he f (Table.mem_of_mem_bucket hf)) hk

theorem reflect_setContains (hu : Known J s u) (hk : Known J s key) :
    Reflect J s t (Heap.setContains u key) (Heap.setContains u key) :=
  reflect_bind (reflect_setPlace w hu hk) fun _ _ _ => reflect_pure (ok_plain _)

variable {items xs ys : List Handle}

theorem reflect_indexOf? (hi : ∀ x ∈ items, Known J s x) (hv : Known J s v) :
    Reflect J s t (Heap.indexOf? items v) (Heap.indexOf? items v) :=
  reflect_findPlace fun x hx => reflect_equal w (hi x hx) hv

theorem reflect_countOf (hi : ∀ x ∈ items, Known J s x) (hv : Known J s v) :
    Reflect J s t (Heap.countOf items v) (Heap.countOf items v) :=
  reflect_foldlM (ok_plain _) fun _ _ x hx =>
    reflect_bind (reflect_equal w (hi x hx) hv) fun _ _ _ => reflect_pure (ok_plain _)

/-! ## Order -/

theorem reflect_firstDifference (hx : ∀ x ∈ xs, Known J s x) (hy : ∀ y ∈ ys, Known J s y) :
    Reflect J s t (Heap.firstDifference xs ys) (Heap.firstDifference xs ys) := by
  induction xs generalizing ys with
  | nil => exact reflect_pure ok_none
  | cons x xs ih =>
    cases ys with
    | nil => exact reflect_pure ok_none
    | cons y ys =>
      rw [List.forall_mem_cons] at hx hy
      refine reflect_bind (reflect_equal w hx.1 hy.1) fun r _ _ =>
        reflect_ite (fun _ => ?_) fun _ => ?_
      · exact ih hx.2 hy.2
      · exact reflect_pure ((ok_some _).2 ((ok_pair _ _).2 ⟨hx.1, hy.1⟩))

theorem reflect_isSubset (ha : Known J s a) (hb : Known J s b) :
    Reflect J s t (Heap.isSubset a b) (Heap.isSubset a b) := by
  refine reflect_bind (reflect_set w ha) fun e _ he => ?_
  exact reflect_allM fun k hk => reflect_setContains w hb ((ok_table _).1 he k hk)

theorem reflect_orderedWithin (n n' : Nat) (op : Comparison) (ha : Known J s a)
    (hb : Known J s b) :
    Reflect J s t (Heap.orderedWithin n op a b) (Heap.orderedWithin n' op a b) := by
  induction n generalizing n' a b with
  | zero => exact reflect_violate _ _
  | succ n ih =>
    cases n' with
    | zero => exact reflect_violated _ _
    | succ n' =>
      unfold Heap.orderedWithin
      refine reflect_get_bind w ha fun x _ hx => reflect_get_bind w hb fun y _ hy => ?_
      split
      case h_3 | h_4 =>
        refine reflect_bind (reflect_firstDifference w (by simpa using hx) (by simpa using hy))
          fun found _ hfound => ?_
        split
        · have hpair := (ok_pair _ _).1 ((ok_some _).1 hfound)
          exact ih n' hpair.1 hpair.2
        · exact reflect_pure (ok_plain _)
      case h_5 =>
        split
        case h_1 | h_2 =>
          exact reflect_ite (fun _ => reflect_isSubset w ha hb) fun _ => reflect_pure (ok_plain _)
        case h_3 | h_4 =>
          exact reflect_ite (fun _ => reflect_isSubset w hb ha) fun _ => reflect_pure (ok_plain _)
        all_goals exact reflect_unsupported w ha hb
      case h_6 =>
        split
        · exact reflect_pure (ok_plain _)
        · exact reflect_unsupported w ha hb
      all_goals exact reflect_pure (ok_plain _)

theorem reflect_lessThan (ha : Known J s a) (hb : Known J s b) :
    Reflect J s t (Heap.lessThan a b) (Heap.lessThan a b) :=
  reflect_depth fun n n' => reflect_orderedWithin w n n' .lt ha hb

theorem reflect_merge (hx : ∀ x ∈ xs, Known J s x) (hy : ∀ y ∈ ys, Known J s y) :
    Reflect J s t (Heap.merge xs ys) (Heap.merge xs ys) := by
  fun_induction Heap.merge xs ys with
  | case1 ys => exact reflect_pure ((ok_list _).2 hy)
  | case2 xs => exact reflect_pure ((ok_list _).2 hx)
  | case3 x xs y ys ih₁ ih₂ =>
    rw [List.forall_mem_cons] at hx hy
    refine reflect_bind (reflect_lessThan w hy.1 hx.1) fun r _ _ =>
      reflect_ite (fun _ => ?_) fun _ => ?_
    · refine reflect_bind (ih₁ (List.forall_mem_cons.2 hx) hy.2) fun m _ hm => reflect_pure ?_
      exact (ok_list _).2 (List.forall_mem_cons.2 ⟨hy.1, (ok_list _).1 hm⟩)
    · refine reflect_bind (ih₂ hx.2 (List.forall_mem_cons.2 hy)) fun m _ hm => reflect_pure ?_
      exact (ok_list _).2 (List.forall_mem_cons.2 ⟨hx.1, (ok_list _).1 hm⟩)

theorem reflect_sort (hi : ∀ x ∈ items, Known J s x) :
    Reflect J s t (Heap.sort items) (Heap.sort items) := by
  fun_induction Heap.sort items with
  | case1 items h => exact reflect_pure ((ok_list _).2 hi)
  | case2 items h half ih₁ ih₂ =>
    refine reflect_bind (ih₁ fun x hx => hi x (List.mem_of_mem_take hx)) fun left _ hleft => ?_
    refine reflect_bind (ih₂ fun x hx => hi x (List.mem_of_mem_drop hx)) fun right _ hright => ?_
    exact reflect_merge w ((ok_list _).1 hleft) ((ok_list _).1 hright)

/-! ## Text forms -/

theorem reflect_reprWithin (n n' : Nat) (active : List Handle) (hv : Known J s v) :
    Reflect J s t (Heap.reprWithin n active v) (Heap.reprWithin n' active v) := by
  induction n generalizing n' active v with
  | zero => exact reflect_violate _ _
  | succ n ih =>
    cases n' with
    | zero => exact reflect_violated _ _
    | succ n' =>
      unfold Heap.reprWithin
      refine reflect_get_bind w hv fun o hget ho => reflect_ite (fun _ => reflect_pure (ok_plain _))
        fun hactive => ?_
      have hparts : ∀ items : List Handle, (∀ x ∈ items, Known J s x) →
          Reflect J s t (items.mapM (Heap.reprWithin n (v :: active)))
            (items.mapM (Heap.reprWithin n' (v :: active))) := fun items hi =>
        reflect_mapM fun x hx => ih n' _ (hi x hx)
      dsimp only
      split
      case h_6 | h_7 =>
        exact reflect_bind (hparts _ (by simpa using ho)) fun _ _ _ => reflect_pure (ok_plain _)
      case h_8 e =>
        have ho := (ok_table _).1 ((ok_dictObject e).1 ho)
        refine reflect_bind (reflect_mapM fun (k, x) hkx => ?_) fun _ _ _ =>
          reflect_pure (ok_plain _)
        obtain ⟨hk, hx⟩ := (ok_pair k x).1 (ho _ hkx)
        exact reflect_bind (ih n' _ hk) fun _ _ _ =>
          reflect_bind (ih n' _ hx) fun _ _ _ => reflect_pure (ok_plain _)
      case h_9 e =>
        refine reflect_ite (fun _ => reflect_pure (ok_plain _)) fun _ => ?_
        exact reflect_bind (hparts _ (by simpa using ho)) fun _ _ _ => reflect_pure (ok_plain _)
      case h_10 d shown =>
        have hd := (ok_viewObject d shown).1 ho
        refine reflect_bind (reflect_dict w ((ok_handle d).2 hd)) fun e _ he => ?_
        refine reflect_bind (reflect_mapM fun (k, x) hkx => ?_) fun _ _ _ =>
          reflect_pure (ok_plain _)
        obtain ⟨hk, hx⟩ := (ok_pair k x).1 ((ok_table _).1 he _ hkx)
        cases shown with
        | keys => exact ih n' _ hk
        | values => exact ih n' _ hx
        | items =>
          refine reflect_bind (hparts [k, x] ?_) fun _ _ _ => reflect_pure (ok_plain _)
          exact List.forall_mem_cons.2 ⟨hk, List.forall_mem_singleton.2 hx⟩
      case h_14 | h_15 =>
        exact reflect_bind (reflect_typeName w hv) fun _ _ _ => reflect_pure (ok_plain _)
      case h_19 receiver f =>
        obtain ⟨hreceiver, hf⟩ := (ok_methodObject receiver f).1 ho
        refine reflect_get_bind w ((ok_handle f).2 hf) fun _ _ _ => ?_
        exact reflect_bind (reflect_typeName w ((ok_handle _).2 hreceiver)) fun _ _ _ =>
          reflect_pure (ok_plain _)
      all_goals exact reflect_pure (ok_plain _)

theorem reflect_repr (hv : Known J s v) : Reflect J s t (Heap.repr v) (Heap.repr v) :=
  reflect_depth fun n n' => reflect_reprWithin w n n' [] hv

theorem reflect_keyNotFound {α : Type} [Carries α] (hk : Known J s key) :
    Reflect J s t (Heap.keyNotFound Heap.repr key : Query α) (Heap.keyNotFound Heap.repr key) :=
  reflect_bind (reflect_repr w hk) fun _ _ _ => reflect_fatal _

/-! ## Cursors -/

theorem reflect_cursor (hv : Known J s v) : Reflect J s t (Heap.cursor v) (Heap.cursor v) := by
  refine reflect_get_bind w hv fun o _ ho => ?_
  split
  · exact reflect_pure ((ok_iterObject _).1 ho)
  · exact reflect_unimplemented w hv

omit w in
/-- What a cursor stands on is known when the cursor is. -/
theorem known_sequence {c : Cursor} (hc : Known J s c) (hm : v ∈ c.children) : Known J s v :=
  (ok_handle v).2 (hc v hm)

theorem reflect_step {c : Cursor} (hc : Known J s c) : Reflect J s t c.step c.step := by
  cases c with
  | forward u k position =>
    have hu : Known J s u := known_sequence hc List.mem_cons_self
    refine reflect_get_bind w hu fun o _ ho => reflect_inRange fun _ => ?_
    have hy := ok_elementAt? ho position
    split
    · rename_i y p heq
      rw [heq, ok_some, ok_pair] at hy
      exact reflect_pure ((ok_pair _ _).2 ⟨(ok_some y).2 hy.1, hc⟩)
    · exact reflect_pure ((ok_pair _ _).2 ⟨ok_none, hc⟩)
  | backward u position =>
    have hu : Known J s u := known_sequence hc List.mem_cons_self
    refine reflect_get_bind w hu fun o _ ho => reflect_inRange fun _ => ?_
    have hy := ok_elementBefore? ho position
    split
    · rename_i y p heq
      rw [heq, ok_some, ok_pair] at hy
      exact reflect_pure ((ok_pair _ _).2 ⟨(ok_some y).2 hy.1, hc⟩)
    · exact reflect_pure ((ok_pair _ _).2 ⟨ok_none, hc⟩)
  | range n step remaining =>
    refine reflect_ite (fun _ => reflect_pure ?_) fun _ => reflect_pure ?_
    · exact (ok_pair _ _).2 ⟨ok_none, hc⟩
    · exact (ok_pair _ _).2 ⟨(ok_some _).2 (ok_yieldInt n), List.forall_mem_nil _⟩
  | entries d part hash place done =>
    have hd : Known J s d := known_sequence hc List.mem_cons_self
    refine reflect_ite (fun _ => reflect_pure ((ok_pair _ _).2 ⟨ok_none, hc⟩)) fun _ => ?_
    refine reflect_bind (reflect_dict w hd) fun e _ he => ?_
    split
    · rename_i g p k x heq
      have hkx := (ok_table _).1 he _ (Table.mem_toList.2 ⟨g, Table.mem_of_nextFrom? heq⟩)
      simp only [ok_pair, ok_handle] at hkx
      exact reflect_pure ((ok_pair _ _).2 ⟨(ok_some _).2 (ok_showEntry hkx.1 hkx.2 part), hc⟩)
    · exact reflect_pure ((ok_pair _ _).2 ⟨ok_none, hc⟩)
  | members u hash place done =>
    have hu : Known J s u := known_sequence hc List.mem_cons_self
    refine reflect_ite (fun _ => reflect_pure ((ok_pair _ _).2 ⟨ok_none, hc⟩)) fun _ => ?_
    refine reflect_bind (reflect_set w hu) fun e _ he => ?_
    split
    · rename_i g p k heq
      have hk := (ok_table _).1 he _ (Table.mem_toList.2 ⟨g, Table.mem_of_nextFrom? heq⟩)
      exact reflect_pure ((ok_pair _ _).2
        ⟨(ok_some _).2 ((ok_yieldHandle k).2 ((ok_handle k).1 hk)), hc⟩)
    · exact reflect_pure ((ok_pair _ _).2 ⟨ok_none, hc⟩)
  | enumerate | zip => exact reflect_pure ((ok_pair _ _).2 ⟨ok_none, hc⟩)

theorem reflect_stepsWithin (n n' : Nat) (hv : Known J s v) :
    Reflect J s t (Heap.stepsWithin n v) (Heap.stepsWithin n' v) := by
  induction n generalizing n' v with
  | zero => exact reflect_violate _ _
  | succ n ih =>
    cases n' with
    | zero => exact reflect_violated _ _
    | succ n' =>
      refine reflect_bind (reflect_cursor w hv) fun c _ hc => ?_
      cases c with
      | forward u | backward u =>
        exact reflect_get_bind w (known_sequence hc List.mem_cons_self) fun _ _ _ =>
          reflect_pure (ok_plain _)
      | range => exact reflect_pure (ok_plain _)
      | entries d =>
        refine reflect_ite (fun _ => reflect_pure (ok_plain _)) fun _ => ?_
        exact reflect_bind (reflect_dict w (known_sequence hc List.mem_cons_self)) fun _ _ _ =>
          reflect_pure (ok_plain _)
      | members u =>
        refine reflect_ite (fun _ => reflect_pure (ok_plain _)) fun _ => ?_
        exact reflect_bind (reflect_set w (known_sequence hc List.mem_cons_self)) fun _ _ _ =>
          reflect_pure (ok_plain _)
      | enumerate inner | zip inner => exact ih n' (known_sequence hc List.mem_cons_self)

end ObjectSpace
