import ObjectSpace.Proofs.Mirroring.Containers
import ObjectSpace.Proofs.Run.Calls

/-!
# Methods in twin spaces

**Theorem (`concludes_runMethod`).** A built-in method that is run in twin spaces, on a receiver and
arguments that are known, stops with the same diagnostic or gives the same value, and has the same
effect on what was known; or it stops at a violation on one side.

Most methods do the same at every step. Three may place their result in the class where twins
differ, as the last thing that they do: the copy of a list, the parts of a text and bytes that were
read. Their results are other handles with the same content.
-/

namespace ObjectSpace

open Trust

/-! ## Outcomes that agree -/

namespace Space

/-- From some handles two spaces look the same, and so do output and disk. -/
structure SameEffect (seen : Handle → Prop) (s t : Space) : Prop where
  objects : ∀ v, seen v → ∃ o, s.heap.Has v o ∧ t.heap.Has v o
  disk : t.disk = s.disk
  output : t.output = s.output

/-- The same handle, or two new ones, with the same object, which leads to the same objects. -/
structure SameValue (seen : Handle → Prop) (s t : Space) (a b : Handle) : Prop where
  fresh : a = b ∨ ¬ seen a ∧ ¬ seen b
  content : ∃ o, s.heap.Has a o ∧ t.heap.Has b o ∧
    ∀ v, s.heap.Reaches o.children v → ∃ p, s.heap.Has v p ∧ t.heap.Has v p

/-- Two computations end with the same value or the same diagnostic, and with the same effect. -/
inductive EndAlike (seen : Handle → Prop) :
    EStateM.Result Halt Space Handle → EStateM.Result Halt Space Handle → Prop
  | ok {a b : Handle} {s t : Space} : SameEffect seen s t → SameValue seen s t a b →
      EndAlike seen (.ok a s) (.ok b t)
  | fatal (d : Diagnostic) {s t : Space} : SameEffect seen s t →
      EndAlike seen (.error (.fatal d) s) (.error (.fatal d) t)

/-- A computation stops at a violation. -/
def Breaks {α : Type} (r : EStateM.Result Halt Space α) : Prop :=
  ∃ e s, r = .error (.violation e) s

variable {seen seen' : Handle → Prop} {s t : Space} {a b : Handle}
  {x y : EStateM.Result Halt Space Handle}

theorem SameEffect.mono (e : SameEffect seen s t) (h : ∀ v, seen' v → seen v) :
    SameEffect seen' s t :=
  ⟨fun v hv => e.objects v (h v hv), e.disk, e.output⟩

theorem EndAlike.mono (g : EndAlike seen x y) (h : ∀ v, seen' v → seen v) : EndAlike seen' x y := by
  cases g with
  | ok e v =>
    refine .ok (e.mono h) ⟨v.fresh.imp_right fun hf => ?_, v.content⟩
    exact ⟨fun ha => hf.1 (h _ ha), fun hb => hf.2 (h _ hb)⟩
  | fatal d e => exact .fatal d (e.mono h)

end Space

open Space

/-- Two actions end alike for what is known, unless one of them stops at a violation. -/
def Concludes (J : List Handle) (s t : Space) (act act' : Action Handle) : Prop :=
  EndAlike (Known J s) (act s) (act' t) ∨ Breaks (act s) ∨ Breaks (act' t)

section Rules

variable {α : Type} [Carries α] {J : List Handle} {spare : SizeClass → Nat → Prop}
  {s t s' t' : Space} {o : Object}

namespace Space.Twins

variable (w : s.Twins J spare t)

include w

/-- Known handles lead to known handles. -/
theorem known_reaches {roots : List Handle} (hr : ∀ g ∈ roots, Known J s g) {v : Handle}
    (r : s.heap.Reaches roots v) : Known J s v := by
  induction r with
  | root hm => exact hr _ hm
  | child _ ho hc ih =>
    exact known_handle.2 ((apartTrust J).child w.apart (known_handle.1 ih) ho hc)

theorem has_both {v : Handle} (hv : Known J s v) : ∃ o, s.heap.Has v o ∧ t.heap.Has v o := by
  obtain ⟨o, ho, -⟩ := w.apart.sound.get? (known_handle.1 hv).1
  exact ⟨o, ⟨(known_handle.1 hv).1, ho⟩, w.has v o hv ho⟩

theorem sameEffect : SameEffect (Known J s) s t :=
  ⟨fun _ => w.has_both, w.disk, w.output⟩

theorem sameValue {v : Handle} (hv : Known J s v) : SameValue (Known J s) s t v v := by
  obtain ⟨o, hs, ht⟩ := w.has_both hv
  refine ⟨.inl rfl, o, hs, ht, fun u hu => w.has_both (w.known_reaches (fun g hg => ?_) hu)⟩
  exact known_handle.2 ((apartTrust J).child w.apart (known_handle.1 hv) hs.2 hg)

end Space.Twins

theorem Onward.endAlike {x y : EStateM.Result Halt Space Handle} (l : Onward J spare s s' t')
    (g : EndAlike (Known J s') x y) : EndAlike (Known J s) x y :=
  g.mono fun _ hv => l.known hv

/-- Actions that do the same end alike. -/
theorem Mirror.concludes {act act' : Action Handle} (m : Mirror J spare s t act act') :
    Concludes J s t act act' := by
  simp only [Mirror] at m
  simp only [Concludes]
  generalize act s = x at m
  generalize act' t = y at m
  cases m with
  | ok l ha => exact .inl (l.endAlike (.ok l.twins.sameEffect (l.twins.sameValue ha)))
  | fatal d l => exact .inl (l.endAlike (.fatal d l.twins.sameEffect))
  | left e s' y => exact .inr (.inl ⟨e, s', rfl⟩)
  | right x e t' => exact .inr (.inr ⟨e, t', rfl⟩)

/-- From twins, actions that do the same end alike. -/
theorem Space.Twins.concludes (_ : s.Twins J spare t) {act act' : Action Handle}
    (m : Mirror J spare s t act act') : Concludes J s t act act' := m.concludes

theorem concludes_bind {act act' : Action α} {f f' : α → Action Handle}
    (h : Mirror J spare s t act act')
    (hf : ∀ a s' t', Onward J spare s s' t' → Known J s' a → Concludes J s' t' (f a) (f' a)) :
    Concludes J s t (act >>= f) (act' >>= f') := by
  simp only [Mirror] at h
  simp only [Concludes, bind, EStateM.bind]
  generalize act s = x at h
  generalize act' t = y at h
  cases h with
  | ok l ha => exact (hf _ _ _ l ha).imp_left l.endAlike
  | fatal d l => exact .inl (l.endAlike (.fatal d l.twins.sameEffect))
  | left e s' y => exact .inr (.inl ⟨e, s', rfl⟩)
  | right x e t' => exact .inr (.inr ⟨e, t', rfl⟩)

omit [Carries α] in
theorem concludes_check_bind (w : s.Twins J spare t) {c : Except Diagnostic α}
    {f f' : α → Action Handle} (hf : ∀ a, c = .ok a → Concludes J s t (f a) (f' a)) :
    Concludes J s t (liftM c >>= f) (liftM c >>= f') := by
  cases c with
  | ok a => exact hf a rfl
  | error d => exact .inl (.fatal d w.sameEffect)

theorem concludes_guard (w : s.Twins J spare t) {c : Prop} [Decidable c] {d : Diagnostic}
    {f f' : Unit → Action Handle} (hf : ¬ c → Concludes J s t (f ()) (f' ())) :
    Concludes J s t (if c then fatal d >>= f else f ()) (if c then fatal d >>= f' else f' ()) := by
  split
  · exact .inl (.fatal d w.sameEffect)
  · exact hf ‹_›

/-- What a space with a new object leads to from known handles was there before. -/
theorem known_of_reaches_placed (w : s.Twins J spare t) {roots : List Handle} {h v : Handle}
    {old : Option Object} {heap : Heap} (p : Arena.Placed s.heap o.sizeClass o h old heap)
    (hr : ∀ g ∈ roots, Known J s g) (r : heap.Reaches roots v) : Known J s v := by
  induction r with
  | root hm => exact hr _ hm
  | child _ hget hc ih =>
    obtain ⟨q, hs, -⟩ := w.has_both ih
    obtain rfl := Option.some.inj (hget.symm.trans (p.has hs).2)
    exact known_handle.2 ((apartTrust J).child w.apart (known_handle.1 ih) hs.2 hc)

/-- The same object, placed last, in whatever class. -/
theorem concludes_alloc (w : s.Twins J spare t) (ho : Known J s o) :
    Concludes J s t (alloc o) (alloc o) := by
  by_cases hwide : o.sizeClass = wide
  · obtain ⟨a, old, heap, p, hs⟩ := Trust.alloc_placed w.apart.sound.roomy o
    obtain ⟨b, old', heap', q, ht⟩ := Trust.alloc_placed w.roomy o
    rw [Concludes, hs, ht]
    refine .inl (.ok ⟨fun v hv => ?_, ?_, w.output⟩ ⟨.inr ⟨fun ha => ?_, fun hb => ?_⟩,
      o, p.has_self, q.has_self, fun v hv => ?_⟩)
    · obtain ⟨x, hx, hx'⟩ := w.has_both hv
      exact ⟨x, p.has hx, q.has hx'⟩
    · have p' := hwide ▸ p
      have q' := hwide ▸ q
      dsimp only
      rw [w.shelved.1.settle p', w.shelved.2.settle q', w.disk]
    · obtain ⟨x, hx, -⟩ := w.has_both ha
      exact nomatch p.get?_new.symm.trans hx.2
    · obtain ⟨x, -, hx⟩ := w.has_both hb
      exact nomatch q.get?_new.symm.trans hx.2
    · have hv := known_of_reaches_placed w p (fun g hg => known_handle.2 (ho g hg)) hv
      obtain ⟨x, hx, hx'⟩ := w.has_both hv
      exact ⟨x, p.has hx, q.has hx'⟩
  · exact (mirror_alloc w (Object.narrow_iff.2 hwide) ho).concludes

end Rules

/-! ## Arguments -/

section Methods

variable {J : List Handle} {spare : SizeClass → Nat → Prop} {s t : Space} {d u v : Handle}
  {args : List Handle} {m : Method} {container : String} (w : s.Twins J spare t)

include w

/-- Going on with an optional argument, none if it is None. -/
theorem concludes_presentArgument_bind (ha : ∀ x ∈ args, Known J s x)
    {f f' : Option Handle → Action Handle}
    (hf : ∀ a s' t', Onward J spare s s' t' → Known J s' a → Concludes J s' t' (f a) (f' a)) :
    Concludes J s t (m.presentArgument args >>= f) (m.presentArgument args >>= f') := by
  refine concludes_bind (mirror_check_bind w fun a ha' => ?_) hf
  cases a with
  | none => exact mirror_pure w ok_none
  | some x =>
    have hx := ha x (mem_of_optionalArgument ha' x rfl)
    refine mirror_bind (mirror_isNone w x) fun b s₁ t₁ l₁ _ => mirror_pure l₁.twins ?_
    split
    · exact ok_none
    · exact (ok_some x).2 (l₁.known hx)

/-! ## Methods of lists and tuples -/

theorem reflect_placeOf {items : Array Handle} (hi : ∀ x ∈ items.toList, Known J s x)
    (hv : Known J s v) :
    Reflect J s t (placeOf items v container) (placeOf items v container) := by
  refine reflect_bind (reflect_indexOf? w hi hv) fun i? _ _ => ?_
  split
  · exact reflect_pure (ok_plain _)
  · exact reflect_bind (reflect_repr w hv) fun _ _ _ => reflect_fatal _

/-- A new integer is the same in both spaces. -/
theorem mirror_newInt (n : Int64) : Mirror J spare s t (newInt n) (newInt n) :=
  mirror_alloc w trivial (List.forall_mem_nil _)

theorem mirror_newStr (text : String) : Mirror J spare s t (newStr text) (newStr text) :=
  mirror_alloc w trivial (List.forall_mem_nil _)

/-- A change of a list after which the method gives None. -/
theorem mirror_changeList (hv : Known J s v) {f : Array Handle → Array Handle}
    (hf : ∀ items : Array Handle, Known J s items → Known J s (f items)) :
    Mirror J spare s t
      (do
        updateList v f
        nothing)
      (do
        updateList v f
        nothing) :=
  mirror_bind_nothing (mirror_updateList w hv hf)

theorem concludes_listMethod (method : ListMethod) {items : Array Handle} (hv : Known J s v)
    (hi : Known J s items) (ha : ∀ x ∈ args, Known J s x) :
    Concludes J s t (listMethod method v items args) (listMethod method v items args) := by
  have hitems : ∀ x ∈ items.toList, Known J s x := (ok_array items).1 hi
  cases method with
  | append =>
    refine concludes_check_bind w fun x hx =>
      w.concludes (mirror_changeList w hv fun items hi => ?_)
    rw [← Array.append_singleton]
    exact ok_append hi (by simpa using ha x (mem_of_oneArgument hx))
  | count =>
    refine concludes_check_bind w fun x hx => w.concludes (mirror_ask_bind w ?_ fun _ _ _ =>
      mirror_newInt w _)
    exact reflect_countOf w hitems (ha x (mem_of_oneArgument hx))
  | extend =>
    refine concludes_check_bind w fun x hx => w.concludes ?_
    refine mirror_bind (mirror_collect w (ha x (mem_of_oneArgument hx))) fun more s₁ t₁ l₁ hm => ?_
    exact mirror_changeList l₁.twins (l₁.known hv) fun items hi => ok_append hi hm
  | index =>
    refine concludes_check_bind w fun x hx => w.concludes (mirror_ask_bind w ?_ fun _ _ _ =>
      mirror_newInt w _)
    exact reflect_placeOf w hitems (ha x (mem_of_oneArgument hx))
  | insert =>
    refine concludes_check_bind w fun (index, x) hx => w.concludes ?_
    obtain ⟨hindex, hx⟩ := mem_of_twoArguments hx
    refine mirror_ask_bind w (reflect_expectInt w (ha index hindex)) fun n _ _ =>
      mirror_inRange fun _ => mirror_changeList w hv fun items hi => ?_
    exact ok_insertIdxIfInBounds hi ((ok_handle x).1 (ha x hx)) _
  | pop =>
    have hpop : ∀ index : Int64, Mirror J spare s t
        (do
          let i ← liftM (normalizeIndex index items.size "pop")
          unless i < items.size do violate (.outOfRange v i)
          updateList v (·.eraseIdxIfInBounds i)
          return items.getD i v)
        (do
          let i ← liftM (normalizeIndex index items.size "pop")
          unless i < items.size do violate (.outOfRange v i)
          updateList v (·.eraseIdxIfInBounds i)
          return items.getD i v) := fun index =>
      mirror_check_bind w fun i _ => mirror_inRange fun _ =>
        mirror_bind (mirror_updateList w hv fun items hi => ok_eraseIdxIfInBounds hi i)
          fun _ _ _ l _ => mirror_pure l.twins (l.known (ok_getD hi ((ok_handle v).1 hv) i))
    refine concludes_check_bind w fun index? hindex => w.concludes ?_
    cases index? with
    | none => exact mirror_pure_bind (mirror_guard w fun _ => hpop _)
    | some x =>
      have hx := ha x (mem_of_optionalArgument hindex x rfl)
      exact mirror_ask_bind w (reflect_expectInt w hx) fun index _ _ =>
        mirror_guard w fun _ => hpop index
  | remove =>
    refine concludes_check_bind w fun x hx => w.concludes ?_
    refine mirror_ask_bind w (reflect_placeOf w hitems (ha x (mem_of_oneArgument hx))) fun i _ _ =>
      mirror_inRange fun _ => mirror_changeList w hv fun items hi => ?_
    exact ok_eraseIdxIfInBounds hi i
  | reverse =>
    refine concludes_check_bind w fun _ _ =>
      w.concludes (mirror_changeList w hv fun items hi => ?_)
    exact ok_of_subset (fun x hx => Array.mem_reverse.1 hx) hi
  | sort =>
    refine concludes_check_bind w fun _ _ => w.concludes ?_
    refine mirror_ask_bind w (reflect_sort w hitems) fun sorted _ hs => ?_
    exact mirror_changeList w hv fun _ _ => by simpa using hs
  | clear =>
    exact concludes_check_bind w fun _ _ =>
      (mirror_changeList w hv fun _ _ => by simp).concludes
  | copy => exact concludes_check_bind w fun _ _ => concludes_alloc w ((ok_listObject items).2 hi)

theorem concludes_tupleMethod (method : TupleMethod) {items : Array Handle}
    (hi : Known J s items) (ha : ∀ x ∈ args, Known J s x) :
    Concludes J s t (tupleMethod method items args) (tupleMethod method items args) := by
  have hitems : ∀ x ∈ items.toList, Known J s x := (ok_array items).1 hi
  refine concludes_check_bind w fun x hx => w.concludes ?_
  have hneedle := ha x (mem_of_oneArgument hx)
  cases method with
  | count =>
    exact mirror_ask_bind w (reflect_countOf w hitems hneedle) fun _ _ _ => mirror_newInt w _
  | index =>
    exact mirror_ask_bind w (reflect_placeOf w hitems hneedle) fun _ _ _ => mirror_newInt w _

/-! ## Methods of dicts and sets -/

theorem concludes_dictMethod (method : DictMethod) {e : Table (Handle × Handle)}
    (hd : Known J s d) (he : Known J s e) (ha : ∀ x ∈ args, Known J s x) :
    Concludes J s t (dictMethod method d e args) (dictMethod method d e args) := by
  cases method with
  | clear =>
    exact concludes_check_bind w fun _ _ => w.concludes
      (mirror_bind_nothing (mirror_updateDict w hd fun _ _ => ok_empty))
  | copy => exact concludes_check_bind w fun _ _ => concludes_alloc w ((ok_dictObject e).2 he)
  | get =>
    refine concludes_check_bind w fun (key, default?) h => w.concludes ?_
    obtain ⟨hk, hdefault⟩ := mem_of_oneOrTwoArguments h
    refine mirror_ask_bind w (reflect_dictLookup w hd (ha key hk)) fun r _ hr => ?_
    split
    · exact mirror_pure w ((ok_some _).1 hr)
    · exact mirror_pure w (ha _ (hdefault _ rfl))
    · exact mirror_nothing w
  | keys | values | items =>
    exact concludes_check_bind w fun _ _ => concludes_alloc w hd
  | pop =>
    refine concludes_check_bind w fun (key, default?) h => w.concludes ?_
    obtain ⟨hk, hdefault⟩ := mem_of_oneOrTwoArguments h
    refine mirror_bind (mirror_dictRemove w hd (ha key hk)) fun r s₁ t₁ l₁ hr => ?_
    split
    · exact mirror_pure l₁.twins ((ok_some _).1 hr)
    · exact mirror_pure l₁.twins (l₁.known (ha _ (hdefault _ rfl)))
    · exact mirror_ask l₁.twins (reflect_keyNotFound l₁.twins (l₁.known (ha key hk)))
  | update =>
    exact concludes_check_bind w fun x hx => w.concludes
      (mirror_bind_nothing (mirror_dictUpdate w hd (ha x (mem_of_oneArgument hx))))

/-- Changing a set by some values, one after the other, and giving None. -/
theorem mirror_setEach (hu : Known J s u) (ha : ∀ x ∈ args, Known J s x)
    {change : Handle → Handle → Action Unit}
    (hc : ∀ {s t : Space} {x : Handle}, s.Twins J spare t → Known J s u → Known J s x →
      Mirror J spare s t (change u x) (change u x)) :
    Mirror J spare s t
      (do
        args.forM fun x => change u x
        nothing)
      (do
        args.forM fun x => change u x
        nothing) :=
  mirror_bind_nothing
    (mirror_forM w fun x hx _ _ l => hc l.twins (l.known hu) (l.known (ha x hx)))

theorem concludes_setMethod (method : SetMethod) {e : Table Handle} (hu : Known J s u)
    (he : Known J s e) (ha : ∀ x ∈ args, Known J s x) :
    Concludes J s t (setMethod method u e args) (setMethod method u e args) := by
  cases method with
  | add =>
    exact concludes_check_bind w fun x hx => w.concludes
      (mirror_bind_nothing (mirror_setInsert w hu (ha x (mem_of_oneArgument hx))))
  | clear =>
    exact concludes_check_bind w fun _ _ => w.concludes
      (mirror_bind_nothing (mirror_updateSet w hu fun _ _ => ok_empty))
  | copy => exact concludes_check_bind w fun _ _ => concludes_alloc w ((ok_setObject e).2 he)
  | differenceUpdate =>
    refine w.concludes (mirror_setEach w hu ha fun w hu hv => ?_)
    exact mirror_setAll w hu hv fun w hu hx => mirror_setRemove w hu hx
  | discard =>
    exact concludes_check_bind w fun x hx => w.concludes
      (mirror_bind_nothing (mirror_setRemove w hu (ha x (mem_of_oneArgument hx))))
  | remove =>
    refine concludes_check_bind w fun x hx => w.concludes ?_
    have hx := ha x (mem_of_oneArgument hx)
    refine mirror_bind (mirror_setRemove w hu hx) fun b s₁ t₁ l₁ _ =>
      mirror_ite (fun _ => mirror_nothing l₁.twins) fun _ => ?_
    exact mirror_ask_bind l₁.twins (reflect_repr l₁.twins (l₁.known hx)) fun _ _ _ =>
      mirror_fatal l₁.twins _
  | update =>
    refine w.concludes (mirror_setEach w hu ha fun w hu hv => ?_)
    exact mirror_setAll w hu hv fun w hu hx => mirror_setInsert w hu hx

/-! ## Methods of texts and bytes -/

theorem reflect_affixes (hv : Known J s v) : Reflect J s t (affixes m v) (affixes m v) := by
  refine reflect_get_bind w hv fun o hget ho => ?_
  split
  · rename_i items
    have hitems := (ok_array _).1 ((ok_tupleObject items).1 ho)
    exact reflect_mapM fun x hx => reflect_expectStr w (hitems x hx)
  · exact reflect_bind (reflect_expectStr w hv) fun _ _ _ => reflect_pure (ok_plain _)

theorem concludes_strMethod (method : StrMethod) (text : String)
    (ha : ∀ x ∈ args, Known J s x) :
    Concludes J s t (strMethod method text args) (strMethod method text args) := by
  cases method with
  | join =>
    refine concludes_check_bind w fun x hx => w.concludes ?_
    refine mirror_bind (mirror_collect w (ha x (mem_of_oneArgument hx))) fun items s₁ t₁ l₁ hi => ?_
    refine mirror_bind (mirror_mapM l₁.twins fun y hy s₂ t₂ l₂ => mirror_ask l₂.twins ?_)
      fun _ _ _ l _ => mirror_newStr l.twins _
    exact reflect_expectStr l₂.twins (l₂.known ((ok_array _).1 hi y hy))
  | split =>
    -- the parts are texts, and only the list of them is placed where twins differ
    have hparts : ∀ {s t : Space}, s.Twins J spare t → ∀ parts : List String, Concludes J s t
        (do
          let items ← parts.mapM newStr
          newList items.toArray)
        (do
          let items ← parts.mapM newStr
          newList items.toArray) := fun w parts =>
      concludes_bind (mirror_mapM w fun _ _ _ _ l => mirror_newStr l.twins _)
        fun items _ _ l hi => concludes_alloc l.twins ((ok_listObject _).2 (by simpa using hi))
    refine concludes_presentArgument_bind w ha fun sep? s₁ t₁ l₁ hsep => ?_
    cases sep? with
    | none => exact hparts l₁.twins _
    | some x =>
      refine concludes_bind (mirror_ask l₁.twins
        (reflect_expectStr l₁.twins ((ok_some x).1 hsep))) fun sep s₂ t₂ l₂ _ => ?_
      exact concludes_guard l₂.twins fun _ => hparts l₂.twins _
  | startswith | endswith =>
    refine concludes_check_bind w fun x hx => w.concludes ?_
    exact mirror_ask_bind w (reflect_affixes w (ha x (mem_of_oneArgument hx))) fun _ _ _ =>
      mirror_boolean w _
  | upper | lower => exact concludes_check_bind w fun _ _ => (mirror_newStr w _).concludes
  | strip =>
    refine concludes_presentArgument_bind w ha fun chars? s₁ t₁ l₁ hchars => ?_
    cases chars? with
    | none => exact (mirror_newStr l₁.twins _).concludes
    | some x =>
      exact l₁.twins.concludes (mirror_ask_bind l₁.twins
        (reflect_expectStr l₁.twins ((ok_some x).1 hchars)) fun _ _ _ => mirror_newStr l₁.twins _)

theorem concludes_decodeMethod (bs : Array UInt8) (ha : ∀ x ∈ args, Known J s x) :
    Concludes J s t (decodeMethod bs args) (decodeMethod bs args) := by
  have hdecode : ∀ encoding : Encoding, Mirror J spare s t
      (do
        let text ← liftM (encoding.decode bs)
        newStr text)
      (do
        let text ← liftM (encoding.decode bs)
        newStr text) := fun _ => mirror_check_bind w fun _ _ => mirror_newStr w _
  refine concludes_check_bind w fun name? hname => w.concludes ?_
  cases name? with
  | none => exact hdecode _
  | some x =>
    have hx := ha x (mem_of_optionalArgument hname x rfl)
    exact mirror_ask_bind w (reflect_expectStr w hx) fun _ _ _ => mirror_check_bind w fun e _ =>
      hdecode e

/-! ## Methods of files -/

theorem mirror_updateStream (hv : Known J s v) (stream : Stream) :
    Mirror J spare s t (updateStream v stream) (updateStream v stream) := by
  refine mirror_ask_bind w (reflect_file w hv) fun _ _ _ => mirror_update w hv fun o _ ho => ?_
  cases o with
  | file f => exact ⟨List.forall_mem_nil _, rfl⟩
  | _ => exact ⟨ho, rfl⟩

theorem mirror_contentFor (r : Reader) (limit : Option Nat) :
    Mirror J spare s t (contentFor r limit) (contentFor r limit) := by
  refine mirror_state_bind ?_
  rw [w.disk]
  split
  · exact mirror_pure w (ok_plain _)
  · exact mirror_ite (fun _ => mirror_pure w (ok_plain _)) fun _ => mirror_fatal w _

theorem concludes_newContent (binary : Bool) (bytes : Array UInt8) :
    Concludes J s t (newContent binary bytes) (newContent binary bytes) := by
  unfold newContent
  split
  · exact concludes_alloc w (List.forall_mem_nil _)
  · split
    · exact (mirror_newStr w _).concludes
    · exact (mirror_fatal w _).concludes

theorem concludes_fileMethod (method : FileMethod) (f : File) (hv : Known J s v)
    (ha : ∀ x ∈ args, Known J s x) :
    Concludes J s t (fileMethod method v f args) (fileMethod method v f args) := by
  cases method with
  | read =>
    refine concludes_presentArgument_bind w ha fun limit? s₁ t₁ l₁ hlimit => ?_
    refine concludes_bind (mirror_optionMapM l₁.twins fun x hx => mirror_ask l₁.twins
      (reflect_expectInt l₁.twins (ok_option.1 hlimit x hx))) fun limit s₂ t₂ l₂ _ => ?_
    have hv₂ := l₂.known (l₁.known hv)
    split
    · refine concludes_bind (mirror_contentFor l₂.twins _ _) fun content s₃ t₃ l₃ _ => ?_
      exact concludes_bind (mirror_updateStream l₃.twins (l₃.known hv₂) _) fun _ _ _ l _ =>
        concludes_newContent l.twins _ _
    · exact (mirror_fatal l₂.twins _).concludes
    · exact (mirror_fatal l₂.twins _).concludes
  | write =>
    refine concludes_check_bind w fun x hx => w.concludes ?_
    have hx := ha x (mem_of_oneArgument hx)
    refine mirror_get_bind w hx fun o _ _ => ?_
    extract_lets send
    have hsend : ∀ data, Mirror J spare s t (send data) (send data) := by
      intro data
      unfold send
      split
      · exact mirror_bind (mirror_changeDisk w _) fun _ _ _ l _ =>
          mirror_bind_nothing (mirror_updateStream l.twins (l.known hv) _)
      · exact mirror_fatal w _
      · exact mirror_fatal w _
    split
    · exact hsend _
    · exact hsend _
    · exact mirror_ask_bind w (reflect_badArgument w hx) fun data _ _ => hsend data
  | close =>
    refine concludes_check_bind w fun _ _ => w.concludes ?_
    dsimp only
    split
    · exact mirror_bind (mirror_changeDisk w _) fun _ _ _ l _ =>
        mirror_bind_nothing (mirror_updateStream l.twins (l.known hv) _)
    · exact mirror_bind_nothing (mirror_updateStream w hv _)

/-! ## Built-in methods -/

/-- A built-in method ends alike in twin spaces. -/
theorem concludes_runMethod (m : Method) (hv : Known J s v) (ha : ∀ x ∈ args, Known J s x) :
    Concludes J s t (runMethod m v args) (runMethod m v args) := by
  refine concludes_bind (mirror_ask w (reflect_get w hv)) fun o s₁ t₁ l₁ ho => ?_
  have hv₁ := l₁.known hv
  have ha₁ := fun x hx => l₁.known (ha x hx)
  split
  · exact concludes_dictMethod l₁.twins _ hv₁ ((ok_dictObject _).1 ho) ha₁
  · exact concludes_listMethod l₁.twins _ hv₁ ((ok_listObject _).1 ho) ha₁
  · exact concludes_setMethod l₁.twins _ hv₁ ((ok_setObject _).1 ho) ha₁
  · exact concludes_strMethod l₁.twins _ _ ha₁
  · exact concludes_tupleMethod l₁.twins _ ((ok_tupleObject _).1 ho) ha₁
  · exact concludes_decodeMethod l₁.twins _ ha₁
  · exact concludes_fileMethod l₁.twins _ _ hv₁ ha₁
  · exact l₁.twins.concludes (mirror_ask l₁.twins (reflect_badArgument l₁.twins hv₁))

end Methods

end ObjectSpace
