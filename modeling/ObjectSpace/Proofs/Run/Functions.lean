import ObjectSpace.Constructors
import ObjectSpace.Methods.Arguments
import ObjectSpace.Proofs.Run.Operators

/-!
# Built-in functions and types under a trust
-/

namespace ObjectSpace.Trust

variable {T : Trust} {s : Space} {v cls : Handle} {name : String} {args : List Handle}
  {kwargs : Option Handle}

/-! ## Arguments -/

theorem mem_of_oneArgument {a : Handle} (h : oneArgument name args = .ok a) : a ∈ args := by
  unfold oneArgument at h
  split at h
  · obtain rfl := Except.ok.inj h
    exact List.mem_singleton_self _
  · cases h

theorem mem_of_twoArguments {a b : Handle} (h : twoArguments name args = .ok (a, b)) :
    a ∈ args ∧ b ∈ args := by
  unfold twoArguments at h
  split at h
  · obtain ⟨rfl, rfl⟩ := Prod.mk.inj (Except.ok.inj h)
    simp
  · cases h

theorem mem_of_oneOrTwoArguments {a : Handle} {b : Option Handle}
    (h : oneOrTwoArguments name args = .ok (a, b)) : a ∈ args ∧ ∀ w, b = some w → w ∈ args := by
  unfold oneOrTwoArguments at h
  split at h
  · obtain ⟨rfl, rfl⟩ := Prod.mk.inj (Except.ok.inj h)
    simp
  · obtain ⟨rfl, rfl⟩ := Prod.mk.inj (Except.ok.inj h)
    simp
  · cases h

theorem mem_of_optionalArgument {m : Method} {a : Option Handle}
    (h : m.optionalArgument args = .ok a) : ∀ w, a = some w → w ∈ args := by
  unfold Method.optionalArgument at h
  cases hc : m.checkCount 0 1 args with
  | error d =>
    rw [hc] at h
    cases h
  | ok u =>
    rw [hc] at h
    obtain rfl := Except.ok.inj h
    exact fun w hw => List.mem_of_head? hw

/-- Going on with the one argument of a call. -/
theorem runs_oneArgument_bind {β : Type} [Carries β] {f : Handle → Action β}
    (ha : ∀ x ∈ args, T.ok s.heap x) (hf : ∀ a, T.ok s.heap a → T.Runs s (f a)) :
    T.Runs s (liftM (oneArgument name args) >>= f) :=
  runs_check_bind fun a h => hf a (ha a (mem_of_oneArgument h))

theorem runs_twoArguments_bind {β : Type} [Carries β] {f : Handle × Handle → Action β}
    (ha : ∀ x ∈ args, T.ok s.heap x)
    (hf : ∀ a b, T.ok s.heap a → T.ok s.heap b → T.Runs s (f (a, b))) :
    T.Runs s (liftM (twoArguments name args) >>= f) :=
  runs_check_bind fun (a, b) h =>
    hf a b (ha a (mem_of_twoArguments h).1) (ha b (mem_of_twoArguments h).2)

theorem runs_oneOrTwoArguments_bind {β : Type} [Carries β]
    {f : Handle × Option Handle → Action β} (ha : ∀ x ∈ args, T.ok s.heap x)
    (hf : ∀ a b, T.ok s.heap a → (∀ w, b = some w → T.ok s.heap w) → T.Runs s (f (a, b))) :
    T.Runs s (liftM (oneOrTwoArguments name args) >>= f) :=
  runs_check_bind fun (a, b) h =>
    hf a b (ha a (mem_of_oneOrTwoArguments h).1)
      fun w hw => ha w ((mem_of_oneOrTwoArguments h).2 w hw)

/-! ## Built-in functions -/

theorem asks_keyword? (name : String) (hk : T.Ok s kwargs) :
    T.Asks s (Heap.keyword? kwargs name) := by
  cases kwargs with
  | none => exact asks_pure ok_none
  | some kw =>
    refine asks_bind (asks_dict ((ok_handle kw).1 ((ok_some kw).1 hk))) fun t ht => ?_
    rw [ok_table] at ht
    refine asks_bind (asks_findM? ((ok_list _).2 ht) fun (k, w) hkw => ?_) fun entry he => ?_
    · exact asks_bind (asks_asStr? ((ok_handle k).1 ((ok_pair _ _).1 (ht _ hkw)).1))
        fun _ _ => asks_pure (ok_plain _)
    · refine asks_pure (ok_option.2 fun w hw => ?_)
      obtain ⟨e, rfl, rfl⟩ := Option.map_eq_some_iff.1 hw
      exact ((ok_pair _ _).1 ((ok_some e).1 he)).2

theorem asks_codeOf (hv : T.ok s.heap v) : T.Asks s (Heap.codeOf v) := by
  refine asks_bind (asks_get hv) fun o _ => ?_
  extract_lets finish
  have hcode : ∀ code?, T.Asks s (finish code?) := by
    intro code?
    cases code? with
    | some code => exact asks_pure (ok_plain _)
    | none => exact asks_fatal _
  split
  · split <;> exact asks_bind (asks_pure (ok_plain _)) fun code? _ => hcode code?
  · exact asks_bind (asks_pure (ok_plain _)) fun code? _ => hcode code?
  · exact asks_bind (asks_badArgument _ _ hv) fun code? _ => hcode code?

theorem asks_length (hv : T.ok s.heap v) : T.Asks s (Heap.length v) := by
  refine asks_bind (asks_get hv) fun o ho => ?_
  split
  case h_8 d _ =>
    exact asks_bind (asks_dict ((ok_viewObject _ _).1 ho)) fun _ _ => asks_pure (ok_plain _)
  case h_9 => exact asks_unimplemented _ hv
  all_goals exact asks_pure (ok_plain _)

theorem runs_candidates (ha : ∀ x ∈ args, T.ok s.heap x) :
    T.Runs s (Space.candidates name args) := by
  unfold Space.candidates
  extract_lets choose
  have hchoose : ∀ s' items, (∀ x ∈ items, T.ok s'.heap x) → T.Runs s' (choose items) := by
    intro s' items hi
    cases items with
    | nil => exact runs_fatal _
    | cons first rest => exact runs_pure (by simpa using hi)
  split
  · exact runs_bind (runs_fatal _) fun items s' _ hi => hchoose s' items (by simpa using hi)
  · refine runs_bind (runs_collect (ha _ (by simp))) fun items s' _ hi => ?_
    refine runs_bind (runs_pure (a := items.toList) (by simpa using hi)) fun l s'' _ hl => ?_
    exact hchoose s'' l (by simpa using hl)
  · refine runs_bind (runs_pure (a := args) (by simpa using ha)) fun l s'' _ hl => ?_
    exact hchoose s'' l (by simpa using hl)

theorem runs_instanceOfWithin (n : Nat) (hv : T.ok s.heap v) (hc : T.ok s.heap cls) :
    T.Runs s (Space.instanceOfWithin n v cls) := by
  induction n generalizing s cls with
  | zero => exact runs_violate fun _ => trivial
  | succ n ih =>
    unfold Space.instanceOfWithin
    refine runs_ask_bind (asks_get hc) fun o _ ho => ?_
    split
    · exact runs_ask_bind (asks_asInt? hv) fun _ _ _ => runs_pure (ok_plain _)
    · exact runs_bind (runs_typeOf hv) fun _ _ _ _ => runs_pure (ok_plain _)
    · exact runs_bind (runs_typeOf hv) fun _ _ _ _ => runs_pure (ok_plain _)
    · rename_i classes
      simp only [ok_tupleObject, ok_array, ok_handle] at ho
      exact runs_anyM fun x hx s' l => ih (l.ok_mono v hv) (l.ok_mono x (ho x hx))
    · exact runs_ask (asks_badArgument _ _ hc)

theorem runs_printOption (name default : String) (hk : T.Ok s kwargs) :
    T.Runs s (Space.printOption kwargs name default) := by
  refine runs_ask_bind (asks_keyword? name hk) fun w? _ hw => ?_
  cases w? with
  | none => exact runs_pure (ok_plain _)
  | some w =>
    refine runs_bind (runs_isNone w) fun b s' l _ => runs_ite (fun _ => runs_pure (ok_plain _))
      fun _ => runs_ask (asks_expectStr _ ?_)
    exact l.ok_mono w ((ok_handle w).1 ((ok_some w).1 hw))

theorem runs_print (ha : ∀ x ∈ args, T.ok s.heap x) (hk : T.Ok s kwargs) :
    T.Runs s (Space.print args kwargs) := by
  refine runs_bind (runs_printOption "sep" " " hk) fun sep s₁ l₁ _ => ?_
  refine runs_bind (runs_printOption "end" "\n" (l₁.ok hk)) fun ending s₂ l₂ _ => ?_
  have l₁₂ := l₁.trans l₂
  refine runs_bind (runs_mapM fun x hx s' l =>
    runs_ask (asks_str (l.ok_mono x (l₁₂.ok_mono x (ha x hx))))) fun texts s₃ l₃ _ => ?_
  exact runs_bind (runs_write _) fun _ _ _ _ => runs_nothing

theorem runs_openFile (path mode : String) : T.Runs s (Space.openFile path mode) := by
  unfold Space.openFile
  split
  · exact runs_fatal _
  · refine runs_get_bind ?_
    dsimp only
    split
    · exact runs_fatal _
    · exact runs_bind (runs_changeDisk _) fun _ _ _ _ => runs_alloc_plain trivial rfl

theorem runs_newCount (operation : String) (n : Nat) : T.Runs s (Space.newCount operation n) :=
  runs_check_bind fun _ _ => runs_newInt _

theorem runs_runBuiltin (f : Builtin) (ha : ∀ x ∈ args, T.ok s.heap x) (hk : T.Ok s kwargs) :
    T.Runs s (Space.runBuiltin f args kwargs) := by
  cases f with
  | abs =>
    refine runs_oneArgument_bind ha fun v hv => runs_ask_bind (asks_asInt? hv) fun n? _ _ => ?_
    split
    · exact runs_check_bind fun _ _ => runs_newInt _
    · exact runs_ask (asks_unimplemented _ hv)
  | all =>
    refine runs_oneArgument_bind ha fun v hv => runs_bind (runs_collect hv) fun items s' l hi => ?_
    simp only [ok_array, ok_handle] at hi
    exact runs_bind (runs_allM fun x hx s' l => runs_ask (asks_truthy (l.ok_mono x (hi x hx))))
      fun _ _ _ _ => runs_boolean _
  | any =>
    refine runs_oneArgument_bind ha fun v hv => runs_bind (runs_collect hv) fun items s' l hi => ?_
    simp only [ok_array, ok_handle] at hi
    exact runs_bind (runs_anyM fun x hx s' l => runs_ask (asks_truthy (l.ok_mono x (hi x hx))))
      fun _ _ _ _ => runs_boolean _
  | chr =>
    refine runs_oneArgument_bind ha fun v hv =>
      runs_ask_bind (asks_expectInt _ hv) fun n _ _ => ?_
    split
    · exact runs_newStr _
    · exact runs_fatal _
  | hash =>
    exact runs_oneArgument_bind ha fun v hv => runs_ask_bind (asks_hash hv) fun _ _ _ =>
      runs_newInt _
  | isinstance =>
    refine runs_twoArguments_bind ha fun v cls hv hc => runs_ask_bind asks_depth fun n _ _ => ?_
    exact runs_bind (runs_instanceOfWithin n hv hc) fun _ _ _ _ => runs_boolean _
  | iter => exact runs_oneArgument_bind ha fun v hv => runs_iter hv
  | len =>
    exact runs_oneArgument_bind ha fun v hv => runs_ask_bind (asks_length hv) fun _ _ _ =>
      runs_newCount _ _
  | max =>
    refine runs_bind (runs_candidates ha) fun c s' l hc => ?_
    obtain ⟨first, rest⟩ := c
    simp only [ok_pair, ok_handle, ok_list] at hc
    exact runs_ask (asks_best (fun x b hx hb => asks_lessThan hb hx) hc.1 hc.2)
  | min =>
    refine runs_bind (runs_candidates ha) fun c s' l hc => ?_
    obtain ⟨first, rest⟩ := c
    simp only [ok_pair, ok_handle, ok_list] at hc
    exact runs_ask (asks_best (fun x b hx hb => asks_lessThan hx hb) hc.1 hc.2)
  | next =>
    refine runs_oneOrTwoArguments_bind ha fun it default? hit hd => ?_
    refine runs_bind (runs_next hit) fun r s' l hr => ?_
    split
    · exact runs_pure ((ok_some _).1 hr)
    · exact runs_pure ((ok_handle _).2 (l.ok_mono _ (hd _ rfl)))
    · exact runs_fatal _
  | «open» =>
    refine runs_oneOrTwoArguments_bind ha fun path mode? hp hm => ?_
    refine runs_ask_bind (asks_expectStr _ hp) fun path _ _ => ?_
    refine runs_bind (runs_optionMapM fun m h => runs_ask (asks_expectStr _ (hm m h)))
      fun _ _ _ _ => runs_openFile _ _
  | ord =>
    exact runs_oneArgument_bind ha fun v hv => runs_ask_bind (asks_codeOf hv) fun _ _ _ =>
      runs_newInt _
  | print => exact runs_print ha hk
  | repr =>
    exact runs_oneArgument_bind ha fun v hv => runs_ask_bind (asks_repr hv) fun _ _ _ =>
      runs_newStr _
  | sorted =>
    refine runs_oneArgument_bind ha fun v hv => runs_bind (runs_collect hv) fun items s' l hi => ?_
    refine runs_ask_bind (asks_sort (by simpa using hi)) fun sorted _ hs => ?_
    exact runs_newList (by simpa using hs)
  | arguments =>
    refine runs_bind (runs_newTuple (by simpa using ha)) fun positional s₁ l₁ hp => ?_
    refine runs_bind runs_nothing fun keywords s₂ l₂ hn => runs_newTuple ?_
    have hp := l₂.ok hp
    have hk := (l₁.trans l₂).ok hk
    cases kwargs <;> simp_all

/-! ## Built-in types -/

theorem runs_contents (ha : ∀ x ∈ args, T.ok s.heap x) : T.Runs s (Space.contents args) := by
  cases args with
  | nil => exact runs_pure (by simp)
  | cons v rest => exact runs_collect (ha v (by simp))

theorem runs_integerOf (ha : ∀ x ∈ args, T.ok s.heap x) : T.Runs s (Space.integerOf args) := by
  refine runs_check_bind fun _ _ => ?_
  match args, ha with
  | [], _ => exact runs_pure (ok_plain _)
  | [v], ha =>
    have hv := ha v (by simp)
    refine runs_ask_bind (asks_get hv) fun o _ _ => ?_
    split
    · exact runs_check_plain _
    · split
      · exact runs_pure (ok_plain _)
      · exact runs_ask (asks_badArgument _ _ hv)
  | [v, base], ha =>
    refine runs_ask_bind (asks_expectInt _ (ha base (by simp))) fun n _ _ => ?_
    refine runs_guard fun _ => runs_ask_bind (asks_expectStr _ (ha v (by simp))) fun _ _ _ => ?_
    exact runs_check_plain _
  | _ :: _ :: _ :: _, _ => exact runs_violate fun _ => trivial

theorem asks_byteOf (hv : T.ok s.heap v) : T.Asks s (Space.byteOf v) := by
  refine asks_bind (asks_asInt? hv) fun n? _ => ?_
  split
  · exact asks_ite (fun _ => asks_pure (ok_plain _)) fun _ => asks_fatal _
  · exact asks_badArgument _ _ hv

theorem runs_bytesOf (ha : ∀ x ∈ args, T.ok s.heap x) : T.Runs s (Space.bytesOf args) := by
  refine runs_check_bind fun _ _ => ?_
  match args, ha with
  | [], _ => exact runs_pure (ok_plain _)
  | [v], ha =>
    have hv := ha v (by simp)
    refine runs_ask_bind (asks_get hv) fun o _ _ => ?_
    split
    · exact runs_pure (ok_plain _)
    · exact runs_guard fun _ => runs_guard fun _ => runs_pure (ok_plain _)
    · exact runs_fatal _
    · refine runs_bind (runs_collect hv) fun items s' l hi => ?_
      simp only [ok_array, ok_handle] at hi
      exact runs_arrayMapM fun x hx s' l => runs_ask (asks_byteOf (l.ok_mono x (hi x hx)))
  | [v, encoding], ha =>
    refine runs_ask_bind (asks_expectStr _ (ha encoding (by simp))) fun _ _ _ => ?_
    refine runs_check_bind fun encoding _ => ?_
    refine runs_ask_bind (asks_expectStr _ (ha v (by simp))) fun _ _ _ => ?_
    exact runs_check_plain _
  | _ :: _ :: _ :: _, _ => exact runs_violate fun _ => trivial

theorem runs_rangeOf (ha : ∀ x ∈ args, T.ok s.heap x) : T.Runs s (Space.rangeOf args) := by
  refine runs_check_bind fun _ _ => ?_
  refine runs_bind (runs_mapM fun x hx s' l => runs_ask (asks_expectInt _ (l.ok_mono x (ha x hx))))
    fun ns s' _ _ => ?_
  split
  · exact runs_newRange _ _ _
  · exact runs_newRange _ _ _
  · exact runs_newRange _ _ _
  · exact runs_fatal _

/-- An iterator that was an iterator before is one still. -/
theorem iterator_later {s' : Space} (l : T.Later s s') {it : Handle} {c : Cursor}
    (h : s.heap.get? it = some (.iter c)) (o : Object) (ho : s'.heap.get? it = some o) :
    ∃ c, o = .iter c := by
  have hev := l.kept.evolves h ho
  obtain ⟨c', rfl, -⟩ := hev.of_iter
  exact ⟨c', rfl⟩

theorem runs_enumerateOf (ha : ∀ x ∈ args, T.ok s.heap x) :
    T.Runs s (Space.enumerateOf args) := by
  refine runs_check_bind fun _ _ => ?_
  cases args with
  | nil => exact runs_violate fun _ => trivial
  | cons v rest =>
    refine runs_bind (runs_optionMapM fun n hn => runs_ask (asks_expectInt _ (ha n ?_)))
      fun count s₁ l₁ _ => ?_
    · exact List.mem_cons_of_mem v (List.mem_of_head? hn)
    · refine runs_of_holds fun hs => ?_
      refine runs_bind_of_ok (runs_iter (l₁.ok_mono v (ha v (by simp))))
        fun inner s₂ heq l₂ hi => ?_
      obtain ⟨c, hc⟩ := iter_gives (T.roomy hs) heq
      refine runs_alloc (.inl fun g hg o ho => ?_) (by
        simpa [Object.children, Cursor.children] using hi)
      obtain rfl := List.mem_singleton.1 hg
      exact ⟨c, Option.some.inj (ho.symm.trans hc)⟩

theorem runs_zipOf (ha : ∀ x ∈ args, T.ok s.heap x) : T.Runs s (Space.zipOf args) := by
  refine runs_of_holds fun hs => runs_twoArguments_bind ha fun a b hha hb => ?_
  refine runs_bind_of_ok (runs_iter hha) fun left s₁ heq₁ l₁ hl => ?_
  refine runs_bind_of_ok (runs_iter (l₁.ok_mono b hb)) fun right s₂ heq₂ l₂ hr => ?_
  have hl := l₂.ok hl
  obtain ⟨c, hc⟩ := iter_gives (T.roomy hs) heq₁
  obtain ⟨d, hd⟩ := iter_gives (T.roomy l₁.holds) heq₂
  refine runs_alloc (.inl fun g hg o ho => ?_) (by
    simp only [ok_handle] at hl hr
    simp [Object.children, Cursor.children, hl, hr])
  rcases List.mem_pair.1 hg with rfl | rfl
  · exact iterator_later l₂ hc o ho
  · exact ⟨d, Option.some.inj (ho.symm.trans hd)⟩

theorem runs_construct (k : Kind) (ha : ∀ x ∈ args, T.ok s.heap x) :
    T.Runs s (Space.construct k args kwargs) := by
  unfold Space.construct
  refine runs_guard fun _ => ?_
  split
  case h_1 =>
    refine runs_check_bind fun _ _ => ?_
    cases args with
    | nil => exact runs_boolean _
    | cons v rest => exact runs_ask_bind (asks_truthy (ha v (by simp))) fun _ _ _ => runs_boolean _
  case h_2 => exact runs_bind (runs_integerOf ha) fun _ _ _ _ => runs_newInt _
  case h_3 =>
    refine runs_check_bind fun _ _ => ?_
    cases args with
    | nil => exact runs_newStr _
    | cons v rest => exact runs_ask_bind (asks_str (ha v (by simp))) fun _ _ _ => runs_newStr _
  case h_4 => exact runs_bind (runs_bytesOf ha) fun _ _ _ _ => runs_newBytes _
  case h_5 =>
    exact runs_check_bind fun _ _ => runs_bind (runs_contents ha) fun _ _ _ hi => runs_newList hi
  case h_6 =>
    exact runs_check_bind fun _ _ => runs_bind (runs_contents ha) fun _ _ _ hi => runs_newTuple hi
  case h_7 =>
    exact runs_check_bind fun _ _ => runs_bind (runs_contents ha) fun _ _ _ hi =>
      runs_newSet (by simpa using hi)
  case h_8 =>
    refine runs_check_bind fun _ _ => ?_
    refine runs_bind (runs_alloc_plain (.inl rfl) rfl) fun d s₁ l₁ hd => ?_
    cases args with
    | nil => exact runs_pure hd
    | cons source rest =>
      refine runs_bind (runs_dictUpdate ((ok_handle d).1 hd) (l₁.ok_mono _ (ha source (by simp))))
        fun _ s₂ l₂ _ => runs_pure (l₂.ok hd)
  case h_9 => exact runs_rangeOf ha
  case h_10 => exact runs_enumerateOf ha
  case h_11 => exact runs_oneArgument_bind ha fun v hv => runs_reversed hv
  case h_12 => exact runs_zipOf ha
  case h_13 => exact runs_oneArgument_bind ha fun v hv => runs_typeOf hv
  case h_14 => exact runs_fatal _

end ObjectSpace.Trust
