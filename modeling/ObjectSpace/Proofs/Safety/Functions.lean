import ObjectSpace.Proofs.Run.Functions
import ObjectSpace.Proofs.Safety.Containers

/-!
# Calm built-in functions and types

Built-in functions and types are calm where all stand, given live values of the program that do not
contain themselves (`Heap.Given`). Keyword arguments reach a function only when they are in a dict
(`Heap.Keywords`). A case that a check of the number of arguments rules out is not met
(`checkCount_eq_ok`).
-/

namespace ObjectSpace

/-! ## Arguments -/

/-- A number of arguments that is accepted is within the bounds. -/
theorem checkCount_eq_ok {name : String} {least most : Nat} {args : List Handle} {u : Unit}
    (h : checkCount name least most args = .ok u) : least ≤ args.length ∧ args.length ≤ most := by
  unfold checkCount at h
  split at h
  · cases h
  · omega

namespace Heap

/-- A live value of a program. A context is none. -/
structure IsValue (heap : Heap) (v : Handle) : Prop where
  live : heap.isLive v = true
  noContext : ∀ c, heap.get? v ≠ some (.context c)

/-- What a call may be given: a value that does not contain itself, unless that may be followed. -/
structure Given (E : Prop) (heap : Heap) (v : Handle) : Prop extends heap.IsValue v where
  tame : E ∨ heap.Tame v

/-- Keyword arguments, if there are any, are in a live dict. -/
def Keywords (heap : Heap) (kwargs : Option Handle) : Prop :=
  ∀ kw, kwargs = some kw → ∃ t, heap.Has kw (.dict t)

variable {E : Prop} {a b : Heap} {v : Handle} {kwargs : Option Handle}

theorem Given.fit (g : a.Given E v) : a.Fit E v := ⟨g.live, g.tame.imp_right Tame.grounded⟩

theorem Keywords.later (h : a.Keywords kwargs) (k : Kept a b) : b.Keywords kwargs :=
  fun kw hkw => by
    obtain ⟨t, ht⟩ := h kw hkw
    exact k.dict ht

/-- What is no context does not become one. -/
theorem Kept.noContext (k : Kept a b) {o : Object} (ho : a.get? v = some o)
    (hc : ∀ c, a.get? v ≠ some (.context c)) (c : Context) : b.get? v ≠ some (.context c) := by
  intro hb
  have he := k.evolves ho hb
  cases he.evolution <;> exact hc _ ho

end Heap

namespace Space

open Trust

variable {E : Prop} {s s' : Space} {v w cls first : Handle} {rest args : List Handle}
  {name : String} {kwargs : Option Handle} {β : Type}

theorem Calm.oneArgument_bind {f : Handle → Action β} (hf : ∀ a ∈ args, Calm E s (f a)) :
    Calm E s (liftM (oneArgument name args) >>= f) :=
  .check_bind fun a h => hf a (mem_of_oneArgument h)

theorem Calm.twoArguments_bind {f : Handle × Handle → Action β}
    (hf : ∀ a b, a ∈ args → b ∈ args → Calm E s (f (a, b))) :
    Calm E s (liftM (twoArguments name args) >>= f) :=
  .check_bind fun (a, b) h => hf a b (mem_of_twoArguments h).1 (mem_of_twoArguments h).2

theorem Calm.oneOrTwoArguments_bind {f : Handle × Option Handle → Action β}
    (hf : ∀ a b, a ∈ args → (∀ w, b = some w → w ∈ args) → Calm E s (f (a, b))) :
    Calm E s (liftM (oneOrTwoArguments name args) >>= f) :=
  .check_bind fun (a, b) h => hf a b (mem_of_oneOrTwoArguments h).1 (mem_of_oneOrTwoArguments h).2

theorem Calm.optionalArgument_bind {m : Method} {f : Option Handle → Action β}
    (hf : ∀ a, (∀ w, a = some w → w ∈ args) → Calm E s (f a)) :
    Calm E s (liftM (m.optionalArgument args) >>= f) :=
  .check_bind fun a h => hf a (mem_of_optionalArgument h)

namespace Firm

variable (i : s.Firm)

include i

/-! ## Built-in functions -/

theorem calm_keyword? (name : String) (hk : s.heap.Keywords kwargs) :
    s.heap.Calm E (Heap.keyword? kwargs name) := by
  cases kwargs with
  | none => exact .pure _
  | some kw =>
    obtain ⟨t, ht⟩ := hk kw rfl
    refine .bind_of_ok (Heap.dict_eq_ok.2 ht.2) (.bind (.findM? fun e he => ?_) fun _ _ => .pure _)
    have hlive : s.heap.isLive e.1 = true :=
      i.sound.live_child ht.1 ht.2 (List.mem_flatMap.2 ⟨e, he, List.mem_cons_self⟩)
    exact .bind (i.calm_asStr? hlive) fun _ _ => .pure _

omit i in
theorem ok_keywords (hk : s.heap.Keywords kwargs) : firmTrust.Ok s kwargs :=
  ok_option.2 fun kw hkw => by
    obtain ⟨t, ht⟩ := hk kw hkw
    exact (ok_handle kw).2 ht.1

theorem calm_printOption (name default : String) (hk : s.heap.Keywords kwargs) :
    Calm E s (printOption kwargs name default) := by
  refine i.calm_ask_bind (asks_keyword? name (ok_keywords hk)) (i.calm_keyword? name hk)
    fun w? _ hw => ?_
  cases w? with
  | none => exact .pure _
  | some w =>
    refine i.calm_bind (runs_isNone w) (calm_isNone w) fun b s₁ _ l₁ _ => .ite (fun _ => .pure _)
      fun _ => .ask (l₁.holds.calm_expectStr ?_)
    exact l₁.ok_mono w ((ok_handle w).1 ((ok_some w).1 hw))

theorem calm_print (ha : ∀ x ∈ args, s.heap.isLive x = true) (hk : s.heap.Keywords kwargs) :
    Calm E s (print args kwargs) := by
  refine i.calm_bind (runs_printOption "sep" " " (ok_keywords hk)) (i.calm_printOption _ _ hk)
    fun sep s₁ _ l₁ _ => ?_
  have hk₁ := hk.later l₁.kept
  refine l₁.holds.calm_bind (runs_printOption "end" "\n" (ok_keywords hk₁))
    (l₁.holds.calm_printOption _ _ hk₁) fun ending s₂ _ l₂ _ => ?_
  have l₁₂ := l₁.trans l₂
  refine .bind_of_ok (l₂.holds.calm_mapM fun x hx s₃ l₃ => ?_) fun _ _ _ =>
    .bind_of_ok (.of_ok rfl) fun _ _ _ => calm_nothing
  have hx : s₃.heap.isLive x = true := l₃.ok_mono x (l₁₂.ok_mono x (ha x hx))
  exact ⟨runs_ask (asks_str hx), .ask (l₃.holds.calm_str hx)⟩

theorem calm_openFile (path mode : String) : Calm E s (openFile path mode) := by
  unfold openFile
  split
  · exact .fatal _
  · refine .state_bind ?_
    dsimp only
    split
    · exact .fatal _
    · exact i.calm_bind (runs_changeDisk _) (.of_ok rfl) fun _ s₁ _ l₁ _ => l₁.holds.calm_alloc _

theorem calm_candidates (ha : ∀ x ∈ args, s.heap.isLive x = true) :
    Calm E s (candidates name args) := by
  unfold candidates
  extract_lets choose
  have hchoose : ∀ s' items, Calm E s' (choose items) := by
    intro s' items
    cases items with
    | nil => exact .fatal _
    | cons first rest => exact .pure _
  split
  · exact .bind_of_ok (.fatal _) fun items s' _ => hchoose s' items
  · refine .bind_of_ok (i.calm_collect (ha _ (by simp))) fun items s' _ => ?_
    exact .bind_of_ok (.pure _) fun l s'' _ => hchoose s'' l
  · exact .bind_of_ok (.pure _) fun l s'' _ => hchoose s'' l

/-- Everything that a given value gives is live and contains itself only if that may be followed. -/
theorem fit_collect (g : s.heap.Given E v) {items : Array Handle}
    (h : collect v s = .ok items s') : ∀ x ∈ items.toList, s'.heap.Fit E x := by
  have hr := (runs_collect (T := firmTrust) g.live).result i
  rw [h] at hr
  exact fun x hx => ⟨(ok_handle x).1 ((ok_array items).1 hr.2 x hx),
    g.tame.imp_right fun ht => i.grounded_collect g.live ht h x hx⟩

/-- The candidates among given values. -/
theorem fit_candidates (ha : ∀ x ∈ args, s.heap.Given E x)
    (h : candidates name args s = .ok (first, rest) s') :
    ∀ x ∈ first :: rest, s'.heap.Fit E x := by
  have hcons : ∀ {x : Handle} {xs : List Handle} {s₁ : Space},
      (pure (x, xs) : Action (Handle × List Handle)) s₁ = .ok (first, rest) s' →
      (∀ y ∈ x :: xs, s₁.heap.Fit E y) → ∀ y ∈ first :: rest, s'.heap.Fit E y := by
    intro x xs s₁ h hg
    obtain ⟨he, rfl⟩ := EStateM.Result.ok.inj h
    obtain ⟨rfl, rfl⟩ := Prod.mk.inj he
    exact hg
  unfold candidates at h
  split at h
  · cases h
  · obtain ⟨items, s₁, hc, h⟩ := bind_eq_ok.1 h
    have hg := i.fit_collect (ha _ (List.mem_singleton_self _)) hc
    cases hl : items.toList with
    | nil =>
      rw [hl] at h
      cases h
    | cons x xs =>
      rw [hl] at h hg
      exact hcons h hg
  · cases args with
    | nil => cases h
    | cons x xs => exact hcons h fun y hy => (ha y hy).fit

theorem calm_instanceOfWithin {n : Nat} (hv : s.heap.isLive v = true)
    (hc : ∀ c, s.heap.get? v ≠ some (.context c)) (hcls : s.heap.isLive cls = true)
    (hn : Nested s.heap.RestsOn n cls) : Calm E s (instanceOfWithin n v cls) := by
  induction n generalizing s cls with
  | zero => exact hn.elim
  | succ n ih =>
    obtain ⟨o, ho, hlive⟩ := i.sound.get? hcls
    unfold instanceOfWithin
    refine .get_bind ho ?_
    split
    · exact .ask_bind (i.calm_asInt? hv) fun _ _ => .pure _
    · exact .bind_of_ok (i.calm_typeOf hv hc) fun _ _ _ => .pure _
    · exact .bind_of_ok (i.calm_typeOf hv hc) fun _ _ _ => .pure _
    · refine i.calm_anyM fun x hx s₁ l₁ => ?_
      have hx' := l₁.ok_mono x (hlive x hx)
      obtain ⟨p, hp, -⟩ := i.sound.get? hv
      refine ⟨runs_instanceOfWithin n (l₁.ok_mono v hv) hx', ?_⟩
      exact ih l₁.holds (l₁.ok_mono v hv) (l₁.kept.noContext hp hc) hx'
        (i.nested_later l₁ (hlive x hx) (hn x ⟨_, ho, hx⟩))
    · exact .ask (i.calm_badArgument hcls)

/-- Built-in functions are calm. -/
theorem calm_runBuiltin (f : Builtin) (ha : ∀ x ∈ args, s.heap.Given E x)
    (hk : s.heap.Keywords kwargs) : Calm E s (runBuiltin f args kwargs) := by
  have hlive : ∀ x ∈ args, s.heap.isLive x = true := fun x hx => (ha x hx).live
  cases f with
  | abs =>
    refine .oneArgument_bind fun v hv => .ask_bind (i.calm_asInt? (hlive v hv)) fun n? _ => ?_
    split
    · exact .check_bind fun _ _ => i.calm_alloc _
    · exact .ask (i.calm_unimplemented (hlive v hv))
  | all =>
    refine .oneArgument_bind fun v hv => i.calm_bind (runs_collect (hlive v hv))
      (i.calm_collect (hlive v hv)) fun items s₁ _ l₁ hi => ?_
    simp only [ok_array, ok_handle] at hi
    refine .bind_of_ok (l₁.holds.calm_allM fun x hx s₂ l₂ => ?_) fun _ _ _ => calm_boolean _
    have hx := l₂.ok_mono x (hi x hx)
    exact ⟨runs_ask (asks_truthy hx), .ask (l₂.holds.calm_truthy hx)⟩
  | any =>
    refine .oneArgument_bind fun v hv => i.calm_bind (runs_collect (hlive v hv))
      (i.calm_collect (hlive v hv)) fun items s₁ _ l₁ hi => ?_
    simp only [ok_array, ok_handle] at hi
    refine .bind_of_ok (l₁.holds.calm_anyM fun x hx s₂ l₂ => ?_) fun _ _ _ => calm_boolean _
    have hx := l₂.ok_mono x (hi x hx)
    exact ⟨runs_ask (asks_truthy hx), .ask (l₂.holds.calm_truthy hx)⟩
  | chr =>
    refine .oneArgument_bind fun v hv => .ask_bind (i.calm_expectInt (hlive v hv)) fun n _ => ?_
    split
    · exact i.calm_alloc _
    · exact .fatal _
  | hash =>
    exact .oneArgument_bind fun v hv => .ask_bind (i.calm_hash (hlive v hv)) fun _ _ =>
      i.calm_alloc _
  | isinstance =>
    refine .twoArguments_bind fun v cls hv hcls => ?_
    refine .ask_bind_of_ok (Heap.depth_eq_ok.2 rfl) (.bind_of_ok ?_ fun _ _ _ => calm_boolean _)
    exact i.calm_instanceOfWithin (hlive v hv) (ha v hv).noContext (hlive cls hcls)
      ((i.nested (hlive cls hcls)).le (Nat.le_succ _))
  | iter => exact .oneArgument_bind fun v hv => i.calm_iter (hlive v hv)
  | len =>
    exact .oneArgument_bind fun v hv => .ask_bind (i.calm_length (hlive v hv)) fun _ _ =>
      i.calm_newCount _
  | max =>
    refine i.calm_bind (runs_candidates hlive) (i.calm_candidates hlive)
      fun given s₁ h l₁ _ => ?_
    obtain ⟨first, rest⟩ := given
    refine .ask ?_
    have hg := List.forall_mem_cons.1 (i.fit_candidates ha h)
    exact calm_best (P := s₁.heap.Fit E)
      (fun x y gx gy => l₁.holds.calm_lessThan gy gx) hg.1 hg.2
  | min =>
    refine i.calm_bind (runs_candidates hlive) (i.calm_candidates hlive)
      fun given s₁ h l₁ _ => ?_
    obtain ⟨first, rest⟩ := given
    refine .ask ?_
    have hg := List.forall_mem_cons.1 (i.fit_candidates ha h)
    exact calm_best (P := s₁.heap.Fit E)
      (fun x y gx gy => l₁.holds.calm_lessThan gx gy) hg.1 hg.2
  | next =>
    refine .oneOrTwoArguments_bind fun it default? hit _ => ?_
    refine .bind_of_ok (i.calm_next (hlive it hit)) fun r s₁ _ => ?_
    split
    · exact .pure _
    · exact .pure _
    · exact .fatal _
  | «open» =>
    refine .oneOrTwoArguments_bind fun path mode? hp hm => ?_
    refine .ask_bind (i.calm_expectStr (hlive path hp)) fun path _ => ?_
    have hmode : ∀ m, mode? = some m → s.heap.isLive m = true := fun m h => hlive m (hm m h)
    exact i.calm_bind (runs_optionMapM fun m h => runs_ask (asks_expectStr _ (hmode m h)))
      (.optionMapM fun m h => .ask (i.calm_expectStr (hmode m h))) fun _ s₁ _ l₁ _ =>
        l₁.holds.calm_openFile _ _
  | ord =>
    exact .oneArgument_bind fun v hv => .ask_bind (i.calm_codeOf (hlive v hv)) fun _ _ =>
      i.calm_alloc _
  | print => exact i.calm_print hlive hk
  | repr =>
    exact .oneArgument_bind fun v hv => .ask_bind (i.calm_repr (hlive v hv)) fun _ _ =>
      i.calm_alloc _
  | sorted =>
    refine .oneArgument_bind fun v hv => i.calm_bind (runs_collect (hlive v hv))
      (i.calm_collect (hlive v hv)) fun items s₁ h l₁ _ => ?_
    have hg := i.fit_collect (ha v hv) h
    exact .ask_bind (l₁.holds.calm_sort hg) fun _ _ => l₁.holds.calm_alloc _
  | arguments =>
    have hok : firmTrust.Ok s args.toArray :=
      (ok_array _).2 fun x hx => (ok_handle x).2 (hlive x hx)
    refine i.calm_bind (runs_newTuple hok) (i.calm_alloc _) fun positional s₁ _ l₁ _ => ?_
    exact l₁.holds.calm_bind runs_nothing calm_nothing fun _ s₂ _ l₂ _ => l₂.holds.calm_alloc _

/-! ## Built-in types -/

theorem calm_contents (ha : ∀ x ∈ args, s.heap.isLive x = true) : Calm E s (contents args) := by
  cases args with
  | nil => exact .pure _
  | cons v rest => exact i.calm_collect (ha v List.mem_cons_self)

theorem calm_integerOf (ha : ∀ x ∈ args, s.heap.isLive x = true) : Calm E s (integerOf args) := by
  refine .check_bind fun _ hcount => ?_
  match args, ha, hcount with
  | [], _, _ => exact .pure _
  | [v], ha, _ =>
    have hv := ha v (by simp)
    refine .ask_bind (i.calm_get hv) fun o _ => ?_
    split
    · exact .check _
    · split
      · exact .pure _
      · exact .ask (i.calm_badArgument hv)
  | [v, base], ha, _ =>
    refine .ask_bind (i.calm_expectInt (ha base (by simp))) fun n _ => .guard fun _ => ?_
    exact .ask_bind (i.calm_expectStr (ha v (by simp))) fun _ _ => .check _
  | _ :: _ :: _ :: _, _, hcount =>
    have := (checkCount_eq_ok hcount).2
    simp at this

theorem calm_byteOf (hv : s.heap.isLive v = true) : s.heap.Calm E (byteOf v) := by
  refine .bind (i.calm_asInt? hv) fun n? _ => ?_
  split
  · exact .ite (fun _ => .pure _) fun _ => .fatal _
  · exact i.calm_badArgument hv

theorem calm_bytesOf (ha : ∀ x ∈ args, s.heap.isLive x = true) : Calm E s (bytesOf args) := by
  refine .check_bind fun _ hcount => ?_
  match args, ha, hcount with
  | [], _, _ => exact .pure _
  | [v], ha, _ =>
    have hv := ha v (by simp)
    refine .ask_bind (i.calm_get hv) fun o _ => ?_
    split
    · exact .pure _
    · exact .guard fun _ => .guard fun _ => .pure _
    · exact .fatal _
    · refine i.calm_bind (runs_collect hv) (i.calm_collect hv) fun items s₁ _ l₁ hi => ?_
      simp only [ok_array, ok_handle] at hi
      refine l₁.holds.calm_arrayMapM fun x hx s₂ l₂ => ?_
      have hx := l₂.ok_mono x (hi x hx)
      exact ⟨runs_ask (asks_byteOf hx), .ask (l₂.holds.calm_byteOf hx)⟩
  | [v, encoding], ha, _ =>
    refine .ask_bind (i.calm_expectStr (ha encoding (by simp))) fun _ _ => .check_bind fun e _ => ?_
    exact .ask_bind (i.calm_expectStr (ha v (by simp))) fun _ _ => .check _
  | _ :: _ :: _ :: _, _, hcount =>
    have := (checkCount_eq_ok hcount).2
    simp at this

theorem calm_rangeOf (ha : ∀ x ∈ args, s.heap.isLive x = true) : Calm E s (rangeOf args) := by
  refine .check_bind fun _ _ => i.calm_bind (runs_mapM fun x hx s₁ l₁ => ?_)
    (i.calm_mapM fun x hx s₁ l₁ => ?_) fun ns s₁ _ l₁ _ => ?_
  · exact runs_ask (asks_expectInt _ (l₁.ok_mono x (ha x hx)))
  · have hx := l₁.ok_mono x (ha x hx)
    exact ⟨runs_ask (asks_expectInt _ hx), .ask (l₁.holds.calm_expectInt hx)⟩
  · split
    · exact l₁.holds.calm_newRange _ _ _
    · exact l₁.holds.calm_newRange _ _ _
    · exact l₁.holds.calm_newRange _ _ _
    · exact .fatal _

theorem calm_enumerateOf (ha : ∀ x ∈ args, s.heap.isLive x = true) :
    Calm E s (enumerateOf args) := by
  refine .check_bind fun _ hcount => ?_
  cases args with
  | nil =>
    have := (checkCount_eq_ok hcount).1
    simp at this
  | cons v rest =>
    have hn : ∀ n, rest.head? = some n → s.heap.isLive n = true := fun n hn =>
      ha n (List.mem_cons_of_mem v (List.mem_of_head? hn))
    refine i.calm_bind (runs_optionMapM fun n h => runs_ask (asks_expectInt _ (hn n h)))
      (.optionMapM fun n h => .ask (i.calm_expectInt (hn n h))) fun count s₁ _ l₁ _ => ?_
    have hv := l₁.ok_mono v (ha v List.mem_cons_self)
    exact l₁.holds.calm_bind (runs_iter hv) (l₁.holds.calm_iter hv) fun _ s₂ _ l₂ _ =>
      l₂.holds.calm_alloc _

theorem calm_zipOf (ha : ∀ x ∈ args, s.heap.isLive x = true) : Calm E s (zipOf args) := by
  refine .twoArguments_bind fun a b hma hmb => ?_
  refine i.calm_bind (runs_iter (ha a hma)) (i.calm_iter (ha a hma)) fun _ s₁ _ l₁ _ => ?_
  have hb := l₁.ok_mono b (ha b hmb)
  exact l₁.holds.calm_bind (runs_iter hb) (l₁.holds.calm_iter hb) fun _ s₂ _ l₂ _ =>
    l₂.holds.calm_alloc _

/-- Built-in types are calm. -/
theorem calm_construct (k : Kind) (ha : ∀ x ∈ args, s.heap.Given E x) :
    Calm E s (construct k args kwargs) := by
  have hlive : ∀ x ∈ args, s.heap.isLive x = true := fun x hx => (ha x hx).live
  have hcontents : ∀ {f : Array Handle → Action Handle}, (∀ items s₁, firmTrust.Later s s₁ →
      (∀ x ∈ items.toList, s₁.heap.isLive x = true) → Calm E s₁ (f items)) →
      Calm E s (contents args >>= f) := fun hf =>
    i.calm_bind (runs_contents hlive) (i.calm_contents hlive) fun items s₁ _ l₁ hi =>
      hf items s₁ l₁ fun x hx => (ok_handle x).1 ((ok_array _).1 hi x hx)
  unfold construct
  refine .guard fun _ => ?_
  split
  case h_1 =>
    refine .check_bind fun _ _ => ?_
    cases args with
    | nil => exact calm_boolean _
    | cons v rest =>
      exact .ask_bind (i.calm_truthy (hlive v List.mem_cons_self)) fun _ _ => calm_boolean _
  case h_2 =>
    exact i.calm_bind (runs_integerOf hlive) (i.calm_integerOf hlive) fun _ s₁ _ l₁ _ =>
      l₁.holds.calm_alloc _
  case h_3 =>
    refine .check_bind fun _ _ => ?_
    cases args with
    | nil => exact i.calm_alloc _
    | cons v rest =>
      exact .ask_bind (i.calm_str (hlive v List.mem_cons_self)) fun _ _ => i.calm_alloc _
  case h_4 =>
    exact i.calm_bind (runs_bytesOf hlive) (i.calm_bytesOf hlive) fun _ s₁ _ l₁ _ =>
      l₁.holds.calm_alloc _
  case h_5 => exact .check_bind fun _ _ => hcontents fun _ s₁ l₁ _ => l₁.holds.calm_alloc _
  case h_6 => exact .check_bind fun _ _ => hcontents fun _ s₁ l₁ _ => l₁.holds.calm_alloc _
  case h_7 => exact .check_bind fun _ _ => hcontents fun _ s₁ l₁ hi => l₁.holds.calm_newSet hi
  case h_8 =>
    refine .check_bind fun _ _ => ?_
    refine i.calm_bind (runs_alloc_plain (.inl rfl) rfl) (i.calm_alloc _) fun d s₁ h₁ l₁ _ => ?_
    obtain ⟨g, old, heap, p, heq⟩ := alloc_placed i.sound.roomy (.dict .empty)
    obtain ⟨rfl, rfl⟩ := EStateM.Result.ok.inj (heq.symm.trans h₁)
    cases args with
    | nil => exact .bind_of_ok (.pure _) fun _ _ _ => .pure _
    | cons source rest =>
      refine .bind_of_ok (l₁.holds.calm_dictUpdate p.has_self ?_) fun _ _ _ => .pure _
      exact l₁.ok_mono source (hlive source List.mem_cons_self)
  case h_9 => exact i.calm_rangeOf hlive
  case h_10 => exact i.calm_enumerateOf hlive
  case h_11 => exact .oneArgument_bind fun v hv => i.calm_reversed (hlive v hv)
  case h_12 => exact i.calm_zipOf hlive
  case h_13 => exact .oneArgument_bind fun v hv => i.calm_typeOf (hlive v hv) (ha v hv).noContext
  case h_14 => exact .fatal _

end Firm

end Space

end ObjectSpace
