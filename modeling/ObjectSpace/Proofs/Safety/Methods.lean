import ObjectSpace.Proofs.Run.Calls
import ObjectSpace.Proofs.Safety.Functions

/-!
# Calm methods

Built-in methods are calm where all stand, on a receiver and arguments that are `Heap.Given`. A
method is run on an object of the variant that it is for, so the changes it makes find that variant;
positions come from look-ups and checks of the same elements (`Heap.findPlace_lt`,
`normalizeIndex_lt`).
-/

namespace ObjectSpace

/-! ## Positions -/

theorem normalizeIndex_lt {index : Int64} {length place : Nat} {type : String}
    (h : normalizeIndex index length type = .ok place) : place < length := by
  unfold normalizeIndex at h
  extract_lets p at h
  split at h
  · obtain rfl := Except.ok.inj h
    omega
  · cases h

namespace Space

theorem insertionPlace_le (index : Int64) (length : Nat) :
    insertionPlace index length ≤ length := by
  unfold insertionPlace
  split
  · rename_i h
    have : index.toInt < 0 := Int64.lt_iff_toInt_lt.1 h
    omega
  · exact Nat.min_le_right _ _

theorem placeOf_lt {heap : Heap} {items : Array Handle} {needle : Handle} {container : String}
    {j : Nat} (h : placeOf items needle container heap = .ok j) : j < items.size := by
  obtain ⟨place, hplace, h⟩ := Heap.bind_eq_ok.1 h
  cases place with
  | some k =>
    obtain rfl := Heap.pure_eq_ok.1 h
    exact Heap.findPlace_lt hplace
  | none =>
    obtain ⟨_, -, h⟩ := Heap.bind_eq_ok.1 h
    cases h

open Trust

variable {E : Prop} {s : Space} {d l u v w : Handle} {args : List Handle} {m : Method}
  {container : String}

namespace Firm

variable (i : s.Firm)

include i

/-! ## Methods of lists and tuples -/

theorem calm_placeOf {items : Array Handle} (hi : ∀ x ∈ items.toList, s.heap.Fit E x)
    (fw : s.heap.Fit E w) : s.heap.Calm E (placeOf items w container) := by
  refine .bind (i.calm_indexOf? hi fw) fun place _ => ?_
  split
  · exact .pure _
  · exact .bind (i.calm_repr fw.live) fun _ _ => .fatal _

theorem calm_listMethod (method : ListMethod) {items : Array Handle}
    (hl : s.heap.Has l (.list items)) (hi : ∀ x ∈ items.toList, s.heap.Fit E x)
    (ha : ∀ x ∈ args, s.heap.Given E x) :
    Calm E s (listMethod method l items args) := by
  have hchange : ∀ {s₁ : Space}, firmTrust.Later s s₁ → ∀ f, Calm E s₁ (do
      updateList l f
      nothing) := fun l₁ f => by
    obtain ⟨items₁, hl₁⟩ := l₁.kept.list hl
    exact .bind_of_ok (calm_updateList hl₁.2 f) fun _ _ _ => calm_nothing
  have hself := fun f => hchange (.refl i) f
  cases method with
  | append => exact .oneArgument_bind fun v _ => hself _
  | count =>
    exact .oneArgument_bind fun v hv => .ask_bind (i.calm_countOf hi (ha v hv).fit) fun _ _ =>
      i.calm_alloc _
  | extend =>
    refine .oneArgument_bind fun v hv => ?_
    exact i.calm_bind (runs_collect (ha v hv).live) (i.calm_collect (ha v hv).live)
      fun more s₁ _ l₁ _ => hchange l₁ _
  | index =>
    exact .oneArgument_bind fun v hv => .ask_bind (i.calm_placeOf hi (ha v hv).fit) fun _ _ =>
      i.calm_alloc _
  | insert =>
    refine .twoArguments_bind fun index v hindex _ => ?_
    refine .ask_bind (i.calm_expectInt (ha index hindex).live) fun n _ => ?_
    exact .inRange (insertionPlace_le n items.size) (hself _)
  | pop =>
    have hpop : ∀ index : Int64, Calm E s (do
        let j ← liftM (normalizeIndex index items.size "pop")
        unless j < items.size do violate (.outOfRange l j)
        updateList l (·.eraseIdxIfInBounds j)
        return items.getD j l) := fun index =>
      .check_bind fun j hj => .inRange (normalizeIndex_lt hj)
        (.bind_of_ok (calm_updateList hl.2 _) fun _ _ _ => .pure _)
    refine .optionalArgument_bind fun index? hindex => ?_
    cases index? with
    | none => exact .pure_bind (.guard fun _ => hpop _)
    | some v =>
      exact .ask_bind (i.calm_expectInt (ha v (hindex v rfl)).live) fun index _ => .guard fun _ =>
        hpop index
  | remove =>
    refine .oneArgument_bind fun v hv => .ask_bind (i.calm_placeOf hi (ha v hv).fit)
      fun j hj => ?_
    exact .inRange (placeOf_lt hj) (hself _)
  | reverse => exact .check_bind fun _ _ => hself _
  | sort => exact .check_bind fun _ _ => .ask_bind (i.calm_sort hi) fun _ _ => hself _
  | clear => exact .check_bind fun _ _ => hself _
  | copy => exact .check_bind fun _ _ => i.calm_alloc _

theorem calm_tupleMethod (method : TupleMethod) {items : Array Handle}
    (hi : ∀ x ∈ items.toList, s.heap.Fit E x) (ha : ∀ x ∈ args, s.heap.Given E x) :
    Calm E s (tupleMethod method items args) := by
  refine .oneArgument_bind fun v hv => ?_
  cases method with
  | count => exact .ask_bind (i.calm_countOf hi (ha v hv).fit) fun _ _ => i.calm_alloc _
  | index => exact .ask_bind (i.calm_placeOf hi (ha v hv).fit) fun _ _ => i.calm_alloc _

/-! ## Methods of dicts and sets -/

theorem calm_dictMethod (method : DictMethod) {t : Table (Handle × Handle)}
    (hd : s.heap.Has d (.dict t)) (ha : ∀ x ∈ args, s.heap.isLive x = true) :
    Calm E s (dictMethod method d t args) := by
  cases method with
  | clear =>
    exact .check_bind fun _ _ => .bind_of_ok (calm_updateDict hd.2 _) fun _ _ _ => calm_nothing
  | copy | keys | values | items => exact .check_bind fun _ _ => i.calm_alloc _
  | get =>
    refine .oneOrTwoArguments_bind fun key default? hk _ => ?_
    refine .ask_bind (i.calm_dictLookup hd (ha key hk)) fun r _ => ?_
    split
    · exact .pure _
    · exact .pure _
    · exact calm_nothing
  | pop =>
    refine .oneOrTwoArguments_bind fun key default? hk _ => ?_
    refine i.calm_bind (runs_dictRemove hd.1 (ha key hk)) (i.calm_dictRemove hd (ha key hk))
      fun r s₁ _ l₁ _ => ?_
    split
    · exact .pure _
    · exact .pure _
    · exact .ask (l₁.holds.calm_keyNotFound (l₁.ok_mono key (ha key hk)))
  | update =>
    exact .oneArgument_bind fun v hv => .bind_of_ok (i.calm_dictUpdate hd (ha v hv)) fun _ _ _ =>
      calm_nothing

/-- Changing a set by everything that some live values give, one value after the other. -/
theorem calm_setEach {t : Table Handle} (hu : s.heap.Has u (.set t))
    (ha : ∀ x ∈ args, s.heap.isLive x = true) {change : Handle → Handle → Action Unit}
    (hr : ∀ (s' : Space) x, s'.heap.isLive u = true → s'.heap.isLive x = true →
      firmTrust.Runs s' (change u x))
    (hc : ∀ (s' : Space) (_ : s'.Firm) t x, s'.heap.Has u (.set t) → s'.heap.isLive x = true →
      Calm E s' (change u x)) :
    Calm E s (do
      args.forM fun x => change u x
      nothing) := by
  refine .bind_of_ok (i.calm_forM fun x hx s₁ l₁ => ?_) fun _ _ _ => calm_nothing
  obtain ⟨t', hu'⟩ := l₁.kept.set hu
  have hx := l₁.ok_mono x (ha x hx)
  exact ⟨hr s₁ x hu'.1 hx, hc s₁ l₁.holds t' x hu' hx⟩

theorem calm_addAll {t : Table Handle} (hu : s.heap.Has u (.set t))
    (hv : s.heap.isLive v = true) : Calm E s (addAll u v) := by
  refine i.calm_bind (runs_collect hv) (i.calm_collect hv) fun items s₁ _ l₁ hi => ?_
  obtain ⟨t', hu'⟩ := l₁.kept.set hu
  have hi := fun x hx => (ok_handle x).1 ((ok_array _).1 hi x hx)
  exact l₁.holds.calm_setAll hu' hi (fun _ _ h h' => runs_setInsert h h')
    fun _ i' _ _ h h' => i'.calm_setInsert h h'

theorem calm_removeAll {t : Table Handle} (hu : s.heap.Has u (.set t))
    (hv : s.heap.isLive v = true) : Calm E s (removeAll u v) := by
  refine i.calm_bind (runs_collect hv) (i.calm_collect hv) fun items s₁ _ l₁ hi => ?_
  obtain ⟨t', hu'⟩ := l₁.kept.set hu
  have hi := fun x hx => (ok_handle x).1 ((ok_array _).1 hi x hx)
  exact l₁.holds.calm_setAll hu' hi (fun _ _ h h' => runs_setRemove h h')
    fun _ i' _ _ h h' => i'.calm_setRemove h h'

theorem calm_setMethod (method : SetMethod) {t : Table Handle} (hu : s.heap.Has u (.set t))
    (ha : ∀ x ∈ args, s.heap.isLive x = true) : Calm E s (setMethod method u t args) := by
  cases method with
  | add =>
    exact .oneArgument_bind fun v hv => .bind_of_ok (i.calm_setInsert hu (ha v hv)) fun _ _ _ =>
      calm_nothing
  | clear =>
    exact .check_bind fun _ _ => .bind_of_ok (calm_updateSet hu.2 _) fun _ _ _ => calm_nothing
  | copy => exact .check_bind fun _ _ => i.calm_alloc _
  | differenceUpdate =>
    exact i.calm_setEach hu ha (fun _ _ h h' => runs_removeAll h h')
      fun _ i' _ _ h h' => i'.calm_removeAll h h'
  | discard =>
    exact .oneArgument_bind fun v hv => .bind_of_ok (i.calm_setRemove hu (ha v hv)) fun _ _ _ =>
      calm_nothing
  | remove =>
    refine .oneArgument_bind fun v hv => i.calm_bind (runs_setRemove hu.1 (ha v hv))
      (i.calm_setRemove hu (ha v hv)) fun b s₁ _ l₁ _ => .ite (fun _ => calm_nothing) fun _ => ?_
    exact .ask_bind (l₁.holds.calm_repr (l₁.ok_mono v (ha v hv))) fun _ _ => .fatal _
  | update =>
    exact i.calm_setEach hu ha (fun _ _ h h' => runs_addAll h h')
      fun _ i' _ _ h h' => i'.calm_addAll h h'

/-! ## Methods of texts and bytes -/

/-- Going on with an optional argument, none if it is None. -/
theorem calm_presentArgument_bind {f : Option Handle → Action Handle}
    (ha : ∀ x ∈ args, s.heap.isLive x = true)
    (hf : ∀ o s₁, firmTrust.Later s s₁ → (∀ x, o = some x → s₁.heap.isLive x = true) →
      Calm E s₁ (f o)) : Calm E s (m.presentArgument args >>= f) := by
  refine i.calm_bind (runs_presentArgument m ha) (.check_bind fun o _ => ?_) fun o s₁ _ l₁ ho =>
    hf o s₁ l₁ fun x hx => (ok_handle x).1 (ok_option.1 ho x hx)
  split
  · exact .bind_of_ok (calm_isNone _) fun _ _ _ => .pure _
  · exact .pure _

theorem calm_affixes (hv : s.heap.isLive v = true) : s.heap.Calm E (affixes m v) := by
  obtain ⟨o, ho, hlive⟩ := i.sound.get? hv
  refine .get_bind ho ?_
  split
  · exact .mapM fun x hx => i.calm_expectStr (hlive x hx)
  · exact .bind (i.calm_expectStr hv) fun _ _ => .pure _

theorem calm_strMethod (method : StrMethod) (t : String)
    (ha : ∀ x ∈ args, s.heap.isLive x = true) : Calm E s (strMethod method t args) := by
  cases method with
  | join =>
    refine .oneArgument_bind fun v hv => i.calm_bind (runs_collect (ha v hv))
      (i.calm_collect (ha v hv)) fun items s₁ _ l₁ hi => ?_
    simp only [ok_array, ok_handle] at hi
    refine l₁.holds.calm_bind (runs_mapM fun x hx s₂ l₂ => ?_)
      (l₁.holds.calm_mapM fun x hx s₂ l₂ => ?_) fun _ s₂ _ l₂ _ => l₂.holds.calm_alloc _
    · exact runs_ask (asks_expectStr _ (l₂.ok_mono x (hi x hx)))
    · have hx := l₂.ok_mono x (hi x hx)
      exact ⟨runs_ask (asks_expectStr _ hx), .ask (l₂.holds.calm_expectStr hx)⟩
  | split =>
    have hparts : ∀ {s₁ : Space}, s₁.Firm → ∀ parts : List String, Calm E s₁ (do
        let items ← parts.mapM newStr
        newList items.toArray) := fun i₁ parts =>
      i₁.calm_bind (runs_mapM fun _ _ _ _ => runs_newStr _)
        (i₁.calm_mapM fun _ _ s₂ l₂ => ⟨runs_newStr _, l₂.holds.calm_alloc _⟩)
        fun _ s₂ _ l₂ _ => l₂.holds.calm_alloc _
    refine i.calm_presentArgument_bind ha fun o s₁ l₁ ho => ?_
    cases o with
    | none => exact .pure_bind (hparts l₁.holds _)
    | some v =>
      exact .ask_bind (l₁.holds.calm_expectStr (ho v rfl)) fun _ _ => .guard fun _ =>
        .pure_bind (hparts l₁.holds _)
  | startswith | endswith =>
    exact .oneArgument_bind fun v hv => .ask_bind (i.calm_affixes (ha v hv)) fun _ _ =>
      calm_boolean _
  | upper | lower => exact .check_bind fun _ _ => i.calm_alloc _
  | strip =>
    refine i.calm_presentArgument_bind ha fun o s₁ l₁ ho => ?_
    cases o with
    | none => exact l₁.holds.calm_alloc _
    | some v =>
      exact .ask_bind (l₁.holds.calm_expectStr (ho v rfl)) fun _ _ => l₁.holds.calm_alloc _

theorem calm_decodeMethod (bs : Array UInt8) (ha : ∀ x ∈ args, s.heap.isLive x = true) :
    Calm E s (decodeMethod bs args) := by
  have hdecode : ∀ encoding : Encoding, Calm E s (do
      let t ← liftM (encoding.decode bs)
      newStr t) := fun _ => .check_bind fun _ _ => i.calm_alloc _
  refine .optionalArgument_bind fun v? hv => ?_
  cases v? with
  | none => exact .pure_bind (hdecode _)
  | some v =>
    exact .ask_bind (i.calm_expectStr (ha v (hv v rfl))) fun _ _ => .check_bind fun e _ =>
      .pure_bind (hdecode e)

/-! ## Methods of files -/

theorem calm_fileMethod (method : FileMethod) {f : File} (hv : s.heap.Has v (.file f))
    (ha : ∀ x ∈ args, s.heap.isLive x = true) : Calm E s (fileMethod method v f args) := by
  have hstream : ∀ {s₁ : Space}, firmTrust.Later s s₁ →
      ∀ stream, Calm E s₁ (updateStream v stream) := fun l₁ stream => by
    obtain ⟨f₁, hv₁⟩ := l₁.kept.file hv
    exact .ask_bind_of_ok (Heap.file_of_get? hv₁.2) (calm_update hv₁.2 _)
  cases method with
  | read =>
    refine i.calm_presentArgument_bind ha fun o s₁ l₁ ho => ?_
    refine l₁.holds.calm_bind (runs_optionMapM fun w h => runs_ask (asks_expectInt _ (ho w h)))
      (.optionMapM fun w h => .ask (l₁.holds.calm_expectInt (ho w h))) fun limit s₂ _ l₂ _ => ?_
    split
    · refine l₂.holds.calm_bind (runs_contentFor _ _) (.state_bind ?_) fun content s₃ _ l₃ _ => ?_
      · split
        · exact .pure _
        · exact .ite (fun _ => .pure _) fun _ => .fatal _
      · have hl := (l₁.trans l₂).trans l₃
        have hv₃ := hl.ok_mono v hv.1
        refine l₃.holds.calm_bind (runs_updateStream _ hv₃) (hstream hl _) fun _ s₄ _ l₄ _ => ?_
        refine .ite (fun _ => l₄.holds.calm_alloc _) fun _ => ?_
        split
        · exact l₄.holds.calm_alloc _
        · exact .fatal _
    · exact .fatal _
    · exact .fatal _
  | write =>
    refine .oneArgument_bind fun w hw => .ask_bind (i.calm_get (ha w hw)) fun o _ => ?_
    extract_lets send
    have hwrite : ∀ data, Calm E s (send data) := by
      intro data
      unfold send
      split
      · exact i.calm_bind (runs_changeDisk _) (.of_ok rfl) fun _ s₁ _ l₁ _ =>
          .bind_of_ok (hstream l₁ _) fun _ _ _ => calm_nothing
      · exact .fatal _
      · exact .fatal _
    split
    · exact .pure_bind (hwrite _)
    · exact .pure_bind (hwrite _)
    · exact .ask_bind (i.calm_badArgument (ha w hw)) fun data _ => hwrite data
  | close =>
    refine .check_bind fun _ _ => ?_
    dsimp only
    split
    · exact i.calm_bind (runs_changeDisk _) (.of_ok rfl) fun _ s₁ _ l₁ _ =>
        .bind_of_ok (hstream l₁ _) fun _ _ _ => calm_nothing
    · exact .bind_of_ok (hstream (.refl i) _) fun _ _ _ => calm_nothing

/-- Built-in methods are calm. -/
theorem calm_runMethod (m : Method) (hv : s.heap.Given E v) (ha : ∀ x ∈ args, s.heap.Given E x) :
    Calm E s (runMethod m v args) := by
  have hlive : ∀ x ∈ args, s.heap.isLive x = true := fun x hx => (ha x hx).live
  obtain ⟨o, ho, -⟩ := i.sound.get? hv.live
  have hparts := i.fit_parts hv.fit ho
  refine .get_bind ho ?_
  split
  · exact i.calm_dictMethod _ ⟨hv.live, ho⟩ hlive
  · exact i.calm_listMethod _ ⟨hv.live, ho⟩ hparts ha
  · exact i.calm_setMethod _ ⟨hv.live, ho⟩ hlive
  · exact i.calm_strMethod _ _ hlive
  · exact i.calm_tupleMethod _ hparts ha
  · exact i.calm_decodeMethod _ hlive
  · exact i.calm_fileMethod _ ⟨hv.live, ho⟩ hlive
  · exact .ask (i.calm_badArgument hv.live)

end Firm

end Space

end ObjectSpace
