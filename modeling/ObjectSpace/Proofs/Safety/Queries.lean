import ObjectSpace.Functions
import ObjectSpace.Proofs.Safety.Calm
import ObjectSpace.Proofs.Value.Hashing
import ObjectSpace.Proofs.Value.Sorting

/-!
# Calm queries

Where all stand, queries of live values are calm. Why a query that follows the parts of a value
comes to an end differs:

* hashing follows the items of tuples only, and a tuple does not rest on itself (`calm_hashWithin`);
* a look-up compares with keys that are stored, and those do not contain themselves
  (`calm_setPlace`);
* a text form does not enter a container that is active, so it is never deeper than there are cells
  (`calm_reprWithin`);
* comparing and ordering end where the values do not contain themselves (`calm_lessThan`), so it is
  here that it matters what else is allowed to be followed (`Heap.Fit`).
-/

namespace ObjectSpace

/-- A live value that does not contain itself, unless such a value may be followed. -/
structure Heap.Fit (E : Prop) (heap : Heap) (v : Handle) : Prop where
  live : heap.isLive v = true
  grounded : E ∨ Grounded (seeLive heap) v

namespace Space.Firm

variable {E : Prop} {s : Space} (i : s.Firm) {a b d u v key : Handle} {o : Object}
  {name expected : String}

include i

/-! ## Objects -/

theorem calm_get (hv : s.heap.isLive v = true) : s.heap.Calm E (Heap.get v) := by
  obtain ⟨o, ho, -⟩ := i.sound.get? hv
  exact .of_ok (Heap.get_eq_ok.2 ho)

/-- A live value has a type with a name. -/
theorem typeName_total (hv : s.heap.isLive v = true) :
    ∃ name, Heap.typeName v s.heap = .ok name := by
  obtain ⟨o, ho, hlive⟩ := i.sound.get? hv
  refine Heap.typeName_ok ho fun c hc => ?_
  cases o <;> simp only [Object.class?, Option.some.injEq, reduceCtorEq] at hc
  obtain ⟨p, hp, -⟩ := i.sound.get? (hlive c (hc ▸ List.mem_cons_self))
  exact ⟨p, hp⟩

theorem calm_typeName (hv : s.heap.isLive v = true) : s.heap.Calm E (Heap.typeName v) := by
  obtain ⟨name, hname⟩ := i.typeName_total hv
  exact .of_ok hname

section Diagnostics

variable {α : Type}

theorem calm_badArgument (hv : s.heap.isLive v = true) :
    s.heap.Calm E (Heap.badArgument name expected v : Query α) :=
  .bind (i.calm_typeName hv) fun _ _ => .fatal _

theorem calm_unimplemented (hv : s.heap.isLive v = true) :
    s.heap.Calm E (Heap.unimplemented name v : Query α) :=
  .bind (i.calm_typeName hv) fun _ _ => .fatal _

theorem calm_unsupported (ha : s.heap.isLive a = true) (hb : s.heap.isLive b = true) :
    s.heap.Calm E (Heap.unsupported name a b : Query α) :=
  .bind (i.calm_typeName ha) fun _ _ =>
    .bind (i.calm_typeName hb) fun _ _ => .fatal _

end Diagnostics

theorem calm_asInt? (hv : s.heap.isLive v = true) : s.heap.Calm E (Heap.asInt? v) :=
  .bind (i.calm_get hv) fun _ _ => .pure _

theorem calm_asStr? (hv : s.heap.isLive v = true) : s.heap.Calm E (Heap.asStr? v) :=
  .bind (i.calm_get hv) fun _ _ => .pure _

theorem calm_expectInt (hv : s.heap.isLive v = true) : s.heap.Calm E (Heap.expectInt v name) := by
  refine .bind (i.calm_asInt? hv) fun n? _ => ?_
  split
  · exact .pure _
  · exact i.calm_badArgument hv

theorem calm_expectStr (hv : s.heap.isLive v = true) : s.heap.Calm E (Heap.expectStr v name) := by
  refine .bind (i.calm_asStr? hv) fun t? _ => ?_
  split
  · exact .pure _
  · exact i.calm_badArgument hv

/-- A live view is a view of a dict. -/
theorem dict_of_view {part : ViewPart} (hv : s.heap.isLive v = true)
    (ho : s.heap.get? v = some (.view d part)) :
    s.heap.isLive d = true ∧ ∃ t, s.heap.get? d = some (.dict t) :=
  ⟨i.sound.live_child hv ho (List.mem_singleton_self d), i.standing.views v d part ⟨hv, ho⟩⟩

theorem calm_length (hv : s.heap.isLive v = true) : s.heap.Calm E (Heap.length v) := by
  obtain ⟨o, ho, -⟩ := i.sound.get? hv
  refine .get_bind ho ?_
  split
  case h_8 d part =>
    obtain ⟨-, t, ht⟩ := i.dict_of_view hv ho
    exact .bind_of_ok (Heap.dict_eq_ok.2 ht) (.pure _)
  case h_9 => exact i.calm_unimplemented hv
  all_goals exact .pure _

theorem calm_truthy (hv : s.heap.isLive v = true) : s.heap.Calm E (Heap.truthy v) := by
  obtain ⟨o, ho, -⟩ := i.sound.get? hv
  refine .get_bind ho ?_
  split
  case h_11 d part =>
    obtain ⟨-, t, ht⟩ := i.dict_of_view hv ho
    exact .bind_of_ok (Heap.dict_eq_ok.2 ht) (.pure _)
  all_goals exact .pure _

theorem calm_codeOf (hv : s.heap.isLive v = true) : s.heap.Calm E (Heap.codeOf v) := by
  obtain ⟨o, ho, -⟩ := i.sound.get? hv
  refine .get_bind ho ?_
  extract_lets finish
  have hcode : ∀ code?, s.heap.Calm E (finish code?) := by
    intro code?
    cases code? with
    | some code => exact .pure _
    | none => exact .fatal _
  split
  · split <;> exact .bind (.pure _) fun code? _ => hcode code?
  · exact .bind (.pure _) fun code? _ => hcode code?
  · exact .bind (i.calm_badArgument hv) fun code? _ => hcode code?

/-! ## Hashing and look-ups -/

theorem calm_hashWithin {n : Nat} (hv : s.heap.isLive v = true)
    (hn : Nested s.heap.RestsOn n v) : s.heap.Calm E (Heap.hashWithin n v) := by
  induction n generalizing v with
  | zero => exact hn.elim
  | succ n ih =>
    obtain ⟨o, ho, hlive⟩ := i.sound.get? hv
    refine .get_bind ho ?_
    split
    case h_7 items =>
      refine .bind (.foldlM (P := fun _ => True) trivial fun h _ x hx =>
        ⟨?_, fun _ _ => trivial⟩) fun _ _ => .pure _
      exact .bind (ih (hlive x hx) (hn x ⟨_, ho, hx⟩)) fun _ _ => .pure _
    case h_11 => exact .bind (i.calm_typeName hv) fun _ _ => .fatal _
    all_goals exact .pure _

theorem calm_hash (hv : s.heap.isLive v = true) : s.heap.Calm E (Heap.hash v) :=
  .bind_of_ok (Heap.depth_eq_ok.2 rfl)
    (i.calm_hashWithin hv ((i.nested hv).le (Nat.le_succ _)))

/-- What has a hash can be compared with the keys that a dict or a set has stored. -/
theorem equal_stored {h h' : UInt64} {k : Handle} (hu : s.heap.Has u o) (hm : (h, k) ∈ o.filings)
    (hkey : s.heap.isLive key = true) (hh : Heap.hash key s.heap = .ok h') :
    ∃ r, Heap.equal k key s.heap = .ok r := by
  obtain ⟨κ, hκ⟩ := i.stored u o hu (h, k) hm
  obtain ⟨κ', hκ', -⟩ := i.keyed hkey hh
  obtain ⟨r, hr, -⟩ := hκ.equal i.legible hκ'
  exact ⟨r, hr⟩

theorem calm_dictPlace {t : Table (Handle × Handle)} (hd : s.heap.Has d (.dict t))
    (hkey : s.heap.isLive key = true) : s.heap.Calm E (Heap.dictPlace d key) := by
  refine .bind (i.calm_hash hkey) fun h hh => .bind_of_ok (Heap.dict_eq_ok.2 hd.2) ?_
  refine .bind (.findPlace fun e he => ?_) fun _ _ => .pure _
  obtain ⟨r, hr⟩ := i.equal_stored hd (Table.mem_filings.2 ⟨e, he, rfl⟩) hkey hh
  exact .of_ok hr

theorem calm_dictLookup {t : Table (Handle × Handle)} (hd : s.heap.Has d (.dict t))
    (hkey : s.heap.isLive key = true) : s.heap.Calm E (Heap.dictLookup d key) := by
  refine .bind (i.calm_dictPlace hd hkey) fun (h, place) _ => ?_
  cases place with
  | none => exact .pure _
  | some j => exact .bind_of_ok (Heap.dict_eq_ok.2 hd.2) (.pure _)

theorem calm_setPlace {t : Table Handle} (hu : s.heap.Has u (.set t))
    (hkey : s.heap.isLive key = true) : s.heap.Calm E (Heap.setPlace u key) := by
  refine .bind (i.calm_hash hkey) fun h hh => .bind_of_ok (Heap.set_eq_ok.2 hu.2) ?_
  refine .bind (.findPlace fun k hk => ?_) fun _ _ => .pure _
  obtain ⟨r, hr⟩ := i.equal_stored hu (Table.mem_filings.2 ⟨k, hk, rfl⟩) hkey hh
  exact .of_ok hr

/-! ## Text forms -/

/-- Writing goes deeper only into a container that is not active yet. -/
theorem calm_reprWithin {n : Nat} {active : List Handle} (hv : s.heap.isLive v = true)
    (hnodup : active.Nodup) (hactive : ∀ h ∈ active, s.heap.isCurrent h = true)
    (hn : s.heap.capacity < active.length + n) :
    s.heap.Calm E (Heap.reprWithin n active v) := by
  induction n generalizing active v with
  | zero => exact absurd (s.heap.length_le_capacity hnodup hactive) (Nat.not_le.2 hn)
  | succ n ih =>
    obtain ⟨o, ho, hlive⟩ := i.sound.get? hv
    unfold Heap.reprWithin
    refine .get_bind ho (.ite (fun _ => .pure _) fun hnew => ?_)
    -- the parts are written with this container active too
    have hpart : Heap.isContainer o = true → ∀ w, s.heap.isLive w = true →
        s.heap.Calm E (Heap.reprWithin n (v :: active) w) := by
      intro hc w hw
      have hv' : v ∉ active := by simpa [hc] using hnew
      refine ih hw (List.nodup_cons.2 ⟨hv', hnodup⟩) ?_ ?_
      · exact List.forall_mem_cons.2 ⟨i.sound.current hv, hactive⟩
      · rw [List.length_cons]
        omega
    have hparts : Heap.isContainer o = true → ∀ items : List Handle,
        (∀ x ∈ items, s.heap.isLive x = true) →
        s.heap.Calm E (items.mapM (Heap.reprWithin n (v :: active))) := fun hc items hi =>
      .mapM fun x hx => hpart hc x (hi x hx)
    dsimp only
    split
    case h_6 | h_7 => exact .bind (hparts rfl _ hlive) fun _ _ => .pure _
    case h_8 t =>
      refine .bind (.mapM fun (k, w) hkw => ?_) fun _ _ => .pure _
      obtain ⟨hk, hw⟩ := Object.entries_of_parts hlive (k, w) hkw
      exact .bind (hpart rfl k hk) fun _ _ => .bind (hpart rfl w hw) fun _ _ => .pure _
    case h_9 t =>
      refine .ite (fun _ => .pure _) fun _ => ?_
      exact .bind (hparts rfl _ hlive) fun _ _ => .pure _
    case h_10 d shown =>
      obtain ⟨hd, t, ht⟩ := i.dict_of_view hv ho
      obtain ⟨_, ht', hlive⟩ := i.sound.get? hd
      obtain rfl := Option.some.inj (ht.symm.trans ht')
      refine .bind_of_ok (Heap.dict_eq_ok.2 ht) ?_
      refine .bind (.mapM fun (k, w) hkw => ?_) fun _ _ => .pure _
      obtain ⟨hk, hw⟩ := Object.entries_of_parts hlive (k, w) hkw
      cases shown with
      | keys => exact hpart rfl k hk
      | values => exact hpart rfl w hw
      | items =>
        exact .bind (hparts rfl [k, w] (by simp [hk, hw])) fun _ _ => .pure _
    case h_14 | h_15 => exact .bind (i.calm_typeName hv) fun _ _ => .pure _
    case h_19 receiver f =>
      exact .bind (i.calm_get (hlive f (List.mem_cons_of_mem _ List.mem_cons_self))) fun _ _ =>
        .bind (i.calm_typeName (hlive receiver List.mem_cons_self)) fun _ _ => .pure _
    all_goals exact .pure _

theorem calm_repr (hv : s.heap.isLive v = true) : s.heap.Calm E (Heap.repr v) :=
  .bind_of_ok (Heap.depth_eq_ok.2 rfl) (i.calm_reprWithin hv List.nodup_nil
    (List.forall_mem_nil _) (by rw [List.length_nil]; omega))

theorem calm_str (hv : s.heap.isLive v = true) : s.heap.Calm E (Heap.str v) := by
  refine .bind (i.calm_get hv) fun o _ => ?_
  split
  · exact .pure _
  · exact i.calm_repr hv

theorem calm_keyNotFound {α : Type} (hkey : s.heap.isLive key = true) :
    s.heap.Calm E (Heap.keyNotFound Heap.repr key : Query α) :=
  .bind (i.calm_repr hkey) fun _ _ => .fatal _

/-! ## Comparing and ordering -/

theorem fit_parts (f : s.heap.Fit E v) (ho : s.heap.get? v = some o) :
    ∀ p ∈ o.parts, s.heap.Fit E p := fun p hp =>
  ⟨i.live_part ⟨f.live, ho⟩ p hp, f.grounded.imp_right fun g => Heap.grounded_parts g ho p hp⟩

/-- Comparing the content of objects is calm where comparing what they consist of is. -/
theorem calm_sameContent {related : Handle → Handle → Query Bool} {x y : Object}
    (hr : ∀ p q, s.heap.isLive p = true → s.heap.isLive q = true → s.heap.Calm E (related p q))
    (ha : s.heap.Has a x) (hb : s.heap.Has b y) : s.heap.Calm E (Heap.sameContent related x y) := by
  have hx := i.live_part ha
  have hy := i.live_part hb
  unfold Heap.sameContent
  split
  case h_3 | h_4 =>
    refine .ite (fun _ => ?_) fun _ => .pure _
    exact .allPairs fun p hp q hq => hr p q (hx p hp) (hy q hq)
  case h_5 d e =>
    refine .ite (fun _ => .allM fun (k, v) hkv => ?_) fun _ => .pure _
    obtain ⟨hk, hv⟩ := Object.entries_of_parts hx (k, v) hkv
    refine .bind (.attempt (i.calm_hash hk)) fun h? _ => ?_
    cases h? with
    | none => exact .pure _
    | some h =>
      have hbucket : ∀ f ∈ e.bucket h, s.heap.isLive f.1 = true ∧ s.heap.isLive f.2 = true :=
        fun f hf => Object.entries_of_parts hy f (Table.mem_of_mem_bucket hf)
      refine .bind (.findM? fun f hf => hr _ _ (hbucket f hf).1 hk) fun found hfound => ?_
      split
      · exact .pure _
      · exact hr _ _ hv (hbucket _ (Heap.of_findM?_eq_some hfound).1).2
  case h_6 t u =>
    refine .ite (fun _ => .allM fun k hk => ?_) fun _ => .pure _
    refine .bind (.attempt (i.calm_hash (hx k hk))) fun h? _ => ?_
    cases h? with
    | none => exact .pure _
    | some h =>
      exact .anyM fun k' hk' => hr _ _ (hy k' (Table.mem_of_mem_bucket hk')) (hx k hk)
  case h_9 => split <;> exact .pure _
  all_goals exact .pure _

/-- Following without end is all that can go wrong in comparing live values. -/
theorem calm_equalWithin {n : Nat} (h : E) (ha : s.heap.isLive a = true)
    (hb : s.heap.isLive b = true) : s.heap.Calm E (Heap.equalWithin n a b) := by
  induction n generalizing a b with
  | zero => exact .endless h a
  | succ n ih =>
    obtain ⟨x, hx, -⟩ := i.sound.get? ha
    obtain ⟨y, hy, -⟩ := i.sound.get? hb
    unfold Heap.equalWithin
    refine .ite (fun _ => .pure _) fun _ => .get_bind hx (.get_bind hy ?_)
    exact i.calm_sameContent (fun p q hp hq => ih hp hq) ⟨ha, hx⟩ ⟨hb, hy⟩

theorem calm_equal (ha : s.heap.Fit E a) (hb : s.heap.Fit E b) :
    s.heap.Calm E (Heap.equal a b) := by
  have hloose (h : E) : s.heap.Calm E (Heap.equal a b) :=
    .bind_of_ok (Heap.depth_eq_ok.2 rfl) (i.calm_equalWithin h ha.live hb.live)
  rcases ha.grounded with h | ga
  · exact hloose h
  · rcases hb.grounded with h | gb
    · exact hloose h
    · obtain ⟨r, hr⟩ := i.legible.equality.total a b ga gb
      exact .of_ok hr

theorem calm_indexOf? {items : List Handle} (hi : ∀ x ∈ items, s.heap.Fit E x)
    (gv : s.heap.Fit E v) : s.heap.Calm E (Heap.indexOf? items v) :=
  .findPlace fun x hx => i.calm_equal (hi x hx) gv

theorem calm_countOf {items : List Handle} (hi : ∀ x ∈ items, s.heap.Fit E x)
    (gv : s.heap.Fit E v) : s.heap.Calm E (Heap.countOf items v) :=
  .foldlM (P := fun _ => True) trivial fun _ _ x hx =>
    ⟨.bind (i.calm_equal (hi x hx) gv) fun _ _ => .pure _, fun _ _ => trivial⟩

theorem calm_firstDifference {xs ys : List Handle} (hx : ∀ x ∈ xs, s.heap.Fit E x)
    (hy : ∀ y ∈ ys, s.heap.Fit E y) : s.heap.Calm E (Heap.firstDifference xs ys) := by
  induction xs generalizing ys with
  | nil => exact .pure _
  | cons x xs ih =>
    cases ys with
    | nil => exact .pure _
    | cons y ys =>
      rw [List.forall_mem_cons] at hx hy
      refine .bind (i.calm_equal hx.1 hy.1) fun r _ => .ite (fun _ => ?_) fun _ =>
        .pure _
      exact ih hx.2 hy.2

omit i in
/-- A first difference is a pair of elements. -/
theorem mem_of_firstDifference {heap : Heap} {xs ys : List Handle} {p : Handle × Handle}
    (h : Heap.firstDifference xs ys heap = .ok (some p)) : p.1 ∈ xs ∧ p.2 ∈ ys := by
  induction xs generalizing ys with
  | nil => cases h
  | cons x xs ih =>
    cases ys with
    | nil => cases h
    | cons y ys =>
      obtain ⟨r, -, h⟩ := Heap.bind_eq_ok.1 h
      cases r with
      | true => exact (ih h).imp (List.mem_cons_of_mem x) (List.mem_cons_of_mem y)
      | false =>
        obtain rfl := Option.some.inj (Heap.pure_eq_ok.1 h)
        exact ⟨List.mem_cons_self, List.mem_cons_self⟩

theorem calm_isSubset {t w : Table Handle} (ha : s.heap.Has a (.set t))
    (hb : s.heap.Has b (.set w)) : s.heap.Calm E (Heap.isSubset a b) := by
  refine .bind_of_ok (Heap.set_eq_ok.2 ha.2) (.allM fun k hk => ?_)
  have hlive : s.heap.isLive k = true := i.sound.live_child ha.1 ha.2 hk
  exact .bind (i.calm_setPlace hb hlive) fun _ _ => .pure _

theorem calm_orderedWithin {n : Nat} (op : Comparison) (fa : s.heap.Fit E a)
    (fb : s.heap.Fit E b) (wa : E ∨ Within (seeLive s.heap) n a) :
    s.heap.Calm E (Heap.orderedWithin n op a b) := by
  induction n generalizing a b with
  | zero =>
    obtain h | w := wa
    · exact .endless h a
    · exact w.elim
  | succ n ih =>
    obtain ⟨x, hx, -⟩ := i.sound.get? fa.live
    obtain ⟨y, hy, -⟩ := i.sound.get? fb.live
    have ha : s.heap.Has a x := ⟨fa.live, hx⟩
    have hb : s.heap.Has b y := ⟨fb.live, hy⟩
    have hxs := i.fit_parts fa hx
    have hys := i.fit_parts fb hy
    have hdeep : ∀ p ∈ x.parts, E ∨ Within (seeLive s.heap) n p := fun p hp =>
      wa.imp_right fun ⟨o, ho, hw⟩ => by
        obtain rfl := Option.some.inj ((seeLive_eq_some.1 ho).2.symm.trans hx)
        exact hw p hp
    have hitems : ∀ xs ys : List Handle, (∀ p ∈ xs, p ∈ x.parts) → (∀ q ∈ ys, q ∈ y.parts) →
        ∀ (r : Bool) (f : Option (Handle × Handle) → Query Bool), f none = pure r →
        (∀ p q, f (some (p, q)) = Heap.orderedWithin n op p q) →
        s.heap.Calm E (Heap.firstDifference xs ys >>= f) := by
      intro xs ys hp hq r f hnone hsome
      refine .bind (i.calm_firstDifference (fun p hm => hxs p (hp p hm))
        fun q hm => hys q (hq q hm)) fun found hfound => ?_
      cases found with
      | none =>
        rw [hnone]
        exact .pure r
      | some pair =>
        rw [hsome]
        obtain ⟨h₁, h₂⟩ := mem_of_firstDifference hfound
        exact ih (hxs _ (hp _ h₁)) (hys _ (hq _ h₂)) (hdeep _ (hp _ h₁))
    unfold Heap.orderedWithin
    refine .get_bind ha.2 (.get_bind hb.2 ?_)
    split
    case h_3 | h_4 => exact hitems _ _ (fun _ => id) (fun _ => id) _ _ rfl fun _ _ => rfl
    case h_5 t w =>
      split
      case h_1 | h_2 => exact .ite (fun _ => i.calm_isSubset ha hb) fun _ => .pure _
      case h_3 | h_4 => exact .ite (fun _ => i.calm_isSubset hb ha) fun _ => .pure _
      all_goals exact i.calm_unsupported ha.1 hb.1
    case h_6 =>
      split
      · exact .pure _
      · exact i.calm_unsupported ha.1 hb.1
    all_goals exact .pure _

theorem calm_lessThan (fa : s.heap.Fit E a) (fb : s.heap.Fit E b) :
    s.heap.Calm E (Heap.lessThan a b) :=
  .bind_of_ok (Heap.depth_eq_ok.2 rfl) (i.calm_orderedWithin .lt fa fb
    (fa.grounded.imp_right fun g => (g.within i.legible.shows).mono (Nat.le_succ _)))

/-! ## Sorting -/

theorem calm_merge {left right : List Handle} (hl : ∀ x ∈ left, s.heap.Fit E x)
    (hr : ∀ x ∈ right, s.heap.Fit E x) : s.heap.Calm E (Heap.merge left right) := by
  fun_induction Heap.merge left right with
  | case1 right => exact .pure _
  | case2 left => exact .pure _
  | case3 l ls r rs ih₁ ih₂ =>
    rw [List.forall_mem_cons] at hl hr
    refine .bind (i.calm_lessThan hr.1 hl.1) fun b _ => .ite (fun _ => ?_) fun _ => ?_
    · exact .bind (ih₁ (List.forall_mem_cons.2 hl) hr.2) fun _ _ => .pure _
    · exact .bind (ih₂ hl.2 (List.forall_mem_cons.2 hr)) fun _ _ => .pure _

theorem calm_sort {items : List Handle} (hi : ∀ x ∈ items, s.heap.Fit E x) :
    s.heap.Calm E (Heap.sort items) := by
  fun_induction Heap.sort items with
  | case1 items h => exact .pure _
  | case2 items h half ih₁ ih₂ =>
    have htake : ∀ x ∈ items.take half, s.heap.Fit E x := fun x hx =>
      hi x (List.mem_of_mem_take hx)
    have hdrop : ∀ x ∈ items.drop half, s.heap.Fit E x := fun x hx =>
      hi x (List.mem_of_mem_drop hx)
    refine .bind (ih₁ htake) fun left hleft => .bind (ih₂ hdrop) fun right hright => ?_
    exact i.calm_merge (fun x hx => htake x ((Heap.sort_perm hleft).subset hx))
      fun x hx => hdrop x ((Heap.sort_perm hright).subset hx)

omit i in
theorem calm_best {better : Handle → Handle → Query Bool} {P : Handle → Prop}
    (hb : ∀ x y, P x → P y → s.heap.Calm E (better x y)) {first : Handle} {rest : List Handle}
    (hf : P first) (hr : ∀ x ∈ rest, P x) : s.heap.Calm E (Heap.best better first rest) := by
  refine .foldlM hf fun b hPb x hx => ⟨?_, fun b' hb' => ?_⟩
  · exact .bind (hb x b (hr x hx) hPb) fun _ _ => .pure _
  · obtain ⟨c, -, h⟩ := Heap.bind_eq_ok.1 hb'
    obtain rfl := Heap.pure_eq_ok.1 h
    split
    · exact hr x hx
    · exact hPb

end Space.Firm

end ObjectSpace
