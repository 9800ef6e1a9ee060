import ObjectSpace.Proofs.Run.Functions
import ObjectSpace.Startup

/-!
# Methods, calls and the module context under a trust

The code of a program is a parameter of a call, so what is said of a call rests on that code doing
its part (`RunsCode`).
-/

namespace ObjectSpace.Trust

variable {T : Trust} {s : Space} {v : Handle} {args : List Handle} {kwargs : Option Handle}

/-! ## Arguments of methods -/

section Arguments

variable {β : Type} [Carries β] (m : Method)

theorem runs_methodArgument_bind {f : Handle → Action β} (ha : ∀ x ∈ args, T.ok s.heap x)
    (hf : ∀ a, T.ok s.heap a → T.Runs s (f a)) : T.Runs s (liftM (m.oneArgument args) >>= f) :=
  runs_oneArgument_bind ha hf

theorem runs_optionalArgument_bind {f : Option Handle → Action β}
    (ha : ∀ x ∈ args, T.ok s.heap x)
    (hf : ∀ a, (∀ w, a = some w → T.ok s.heap w) → T.Runs s (f a)) :
    T.Runs s (liftM (m.optionalArgument args) >>= f) :=
  runs_check_bind fun a h => hf a fun w hw => ha w (mem_of_optionalArgument h w hw)

theorem runs_presentArgument (ha : ∀ x ∈ args, T.ok s.heap x) :
    T.Runs s (m.presentArgument args) := by
  refine runs_optionalArgument_bind m ha fun a hw => ?_
  cases a with
  | none => exact runs_pure ok_none
  | some w =>
    refine runs_bind (runs_isNone w) fun b s' l _ => runs_pure ?_
    split
    · exact ok_none
    · exact (ok_some w).2 ((ok_handle w).2 (l.ok_mono w (hw w rfl)))

theorem asks_methodInt (hv : T.ok s.heap v) : T.Asks s (m.expectInt v) := asks_expectInt _ hv

theorem asks_methodStr (hv : T.ok s.heap v) : T.Asks s (m.expectStr v) := asks_expectStr _ hv

end Arguments

/-! ## Methods of lists and tuples -/

theorem asks_placeOf {items : Array Handle} (container : String) (hi : T.Ok s items)
    (hv : T.ok s.heap v) : T.Asks s (Space.placeOf items v container) := by
  refine asks_bind (asks_indexOf? (by simpa using hi) hv) fun i? _ => ?_
  split
  · exact asks_pure (ok_plain _)
  · exact asks_bind (asks_repr hv) fun _ _ => asks_fatal _

theorem ok_insertIdxIfInBounds {items : Array Handle} {w : Handle} (hi : T.Ok s items)
    (hw : T.ok s.heap w) (i : Nat) : T.Ok s (items.insertIdxIfInBounds i w) := by
  unfold Array.insertIdxIfInBounds
  split
  · rw [ok_array] at hi ⊢
    intro x hx
    rcases Array.mem_insertIdx.1 (Array.mem_toList_iff.1 hx) with rfl | hx
    · exact (ok_handle x).2 hw
    · exact hi x (Array.mem_toList_iff.2 hx)
  · exact hi

/-- A change of a list after which the method gives None. -/
theorem runs_changeList {f : Array Handle → Array Handle} (hv : T.ok s.heap v)
    (hf : ∀ items, T.Ok s items → T.Ok s (f items)) :
    T.Runs s (do
      Space.updateList v f
      Space.nothing) :=
  runs_bind (runs_updateList hv hf) fun _ _ _ _ => runs_nothing

theorem runs_listMethod (m : ListMethod) {items : Array Handle} (hv : T.ok s.heap v)
    (hi : T.Ok s items) (ha : ∀ x ∈ args, T.ok s.heap x) :
    T.Runs s (Space.listMethod m v items args) := by
  have hitems : ∀ x ∈ items.toList, T.ok s.heap x := by simpa using hi
  cases m with
  | append =>
    refine runs_methodArgument_bind _ ha fun w hw => runs_changeList hv fun items hi => ?_
    rw [← Array.append_singleton]
    exact ok_append hi (by simpa using hw)
  | count =>
    exact runs_methodArgument_bind _ ha fun w hw =>
      runs_ask_bind (asks_countOf hitems hw) fun _ _ _ => runs_newInt _
  | extend =>
    refine runs_methodArgument_bind _ ha fun w hw => ?_
    refine runs_bind (runs_collect hw) fun more s' l hm => ?_
    exact runs_changeList (l.ok_mono v hv) fun items hi => ok_append hi hm
  | index =>
    exact runs_methodArgument_bind _ ha fun w hw =>
      runs_ask_bind (asks_placeOf _ hi hw) fun _ _ _ => runs_newInt _
  | insert =>
    refine runs_twoArguments_bind ha fun index w hx hw => ?_
    refine runs_ask_bind (asks_methodInt _ hx) fun i _ _ => runs_inRange fun _ => ?_
    exact runs_changeList hv fun items hi => ok_insertIdxIfInBounds hi hw _
  | pop =>
    have hpop : ∀ index : Int64, T.Runs s (do
        let i ← liftM (normalizeIndex index items.size "pop")
        unless i < items.size do violate (.outOfRange v i)
        Space.updateList v (·.eraseIdxIfInBounds i)
        return items.getD i v) := fun index =>
      runs_check_bind fun i _ => runs_inRange fun _ =>
        runs_bind (runs_updateList hv fun items hi => ok_eraseIdxIfInBounds hi i) fun _ s' l _ =>
          runs_pure (l.ok (ok_getD hi hv i))
    refine runs_optionalArgument_bind _ ha fun index? hindex => ?_
    cases index? with
    | none => exact runs_pure_bind (runs_guard fun _ => hpop _)
    | some w =>
      exact runs_ask_bind (asks_methodInt _ (hindex w rfl)) fun index _ _ =>
        runs_guard fun _ => hpop index
  | remove =>
    refine runs_methodArgument_bind _ ha fun w hw =>
      runs_ask_bind (asks_placeOf _ hi hw) fun i _ _ => runs_inRange fun _ => ?_
    exact runs_changeList hv fun items hi => ok_eraseIdxIfInBounds hi i
  | reverse =>
    refine runs_check_bind fun _ _ => runs_changeList hv fun items hi => ?_
    exact ok_of_subset (fun x hx => Array.mem_reverse.1 hx) hi
  | sort =>
    refine runs_check_bind fun _ _ => runs_ask_bind (asks_sort hitems) fun sorted _ hs => ?_
    exact runs_changeList hv fun _ _ => by simpa using hs
  | clear => exact runs_check_bind fun _ _ => runs_changeList hv fun _ _ => by simp
  | copy => exact runs_check_bind fun _ _ => runs_newList hi

theorem runs_tupleMethod (m : TupleMethod) {items : Array Handle} (hi : T.Ok s items)
    (ha : ∀ x ∈ args, T.ok s.heap x) : T.Runs s (Space.tupleMethod m items args) := by
  refine runs_methodArgument_bind _ ha fun w hw => ?_
  cases m with
  | count =>
    exact runs_ask_bind (asks_countOf (by simpa using hi) hw) fun _ _ _ => runs_newInt _
  | index => exact runs_ask_bind (asks_placeOf _ hi hw) fun _ _ _ => runs_newInt _

/-! ## Methods of dicts and sets -/

theorem runs_dictMethod (m : DictMethod) {entries : Table (Handle × Handle)}
    (hv : T.ok s.heap v) (he : s.heap.get? v = some (.dict entries))
    (hok : T.Ok s entries) (ha : ∀ x ∈ args, T.ok s.heap x) :
    T.Runs s (Space.dictMethod m v entries args) := by
  cases m with
  | clear =>
    refine runs_check_bind fun _ _ => ?_
    exact runs_bind (runs_updateDict hv fun t _ _ => ⟨.dictClear t, ok_empty⟩)
      fun _ _ _ _ => runs_nothing
  | copy =>
    exact runs_check_bind fun _ _ => runs_alloc (.inr ⟨v, hv, he⟩) ((ok_dictObject entries).2 hok)
  | get =>
    refine runs_oneOrTwoArguments_bind ha fun key default? hk hd => ?_
    refine runs_ask_bind (asks_dictLookup hv hk) fun r _ hr => ?_
    split
    · exact runs_pure ((ok_some _).1 hr)
    · exact runs_pure ((ok_handle _).2 (hd _ rfl))
    · exact runs_nothing
  | keys | values | items =>
    refine runs_check_bind fun _ _ => runs_alloc (fun o ho => ?_) (by
      simpa [Object.children] using hv)
    exact ⟨entries, Option.some.inj (ho.symm.trans he)⟩
  | pop =>
    refine runs_oneOrTwoArguments_bind ha fun key default? hk hd => ?_
    refine runs_bind (runs_dictRemove hv hk) fun r s' l hr => ?_
    split
    · exact runs_pure ((ok_some _).1 hr)
    · exact runs_pure ((ok_handle _).2 (l.ok_mono _ (hd _ rfl)))
    · exact runs_ask (asks_keyNotFound (l.ok_mono key hk))
  | update =>
    exact runs_methodArgument_bind _ ha fun source hs =>
      runs_bind (runs_dictUpdate hv hs) fun _ _ _ _ => runs_nothing

theorem runs_addAll {source : Handle} (hv : T.ok s.heap v) (hs : T.ok s.heap source) :
    T.Runs s (Space.addAll v source) := by
  refine runs_bind (runs_collect hs) fun items s₁ l₁ hi => runs_forM fun x hx s₂ l₂ => ?_
  simp only [ok_array, ok_handle] at hi
  exact runs_bind (runs_setInsert (l₂.ok_mono v (l₁.ok_mono v hv)) (l₂.ok_mono x (hi x hx)))
    fun _ _ _ _ => runs_pure (ok_plain _)

theorem runs_removeAll {source : Handle} (hv : T.ok s.heap v) (hs : T.ok s.heap source) :
    T.Runs s (Space.removeAll v source) := by
  refine runs_bind (runs_collect hs) fun items s₁ l₁ hi => runs_forM fun x hx s₂ l₂ => ?_
  simp only [ok_array, ok_handle] at hi
  exact runs_bind (runs_setRemove (l₂.ok_mono v (l₁.ok_mono v hv)) (l₂.ok_mono x (hi x hx)))
    fun _ _ _ _ => runs_pure (ok_plain _)

theorem runs_setMethod (m : SetMethod) {members : Table Handle} (hv : T.ok s.heap v)
    (he : s.heap.get? v = some (.set members)) (hok : T.Ok s members)
    (ha : ∀ x ∈ args, T.ok s.heap x) : T.Runs s (Space.setMethod m v members args) := by
  cases m with
  | add =>
    exact runs_methodArgument_bind _ ha fun w hw =>
      runs_bind (runs_setInsert hv hw) fun _ _ _ _ => runs_nothing
  | clear =>
    refine runs_check_bind fun _ _ => ?_
    exact runs_bind (runs_updateSet hv fun t _ _ => ⟨.setClear t, ok_empty⟩)
      fun _ _ _ _ => runs_nothing
  | copy =>
    exact runs_check_bind fun _ _ => runs_alloc (.inr ⟨v, hv, he⟩) ((ok_setObject members).2 hok)
  | differenceUpdate =>
    exact runs_bind (runs_forM fun source hs s' l =>
      runs_removeAll (l.ok_mono v hv) (l.ok_mono source (ha source hs))) fun _ _ _ _ => runs_nothing
  | discard =>
    exact runs_methodArgument_bind _ ha fun w hw =>
      runs_bind (runs_setRemove hv hw) fun _ _ _ _ => runs_nothing
  | remove =>
    refine runs_methodArgument_bind _ ha fun w hw =>
      runs_bind (runs_setRemove hv hw) fun b s' l _ => runs_ite (fun _ => runs_nothing) fun _ => ?_
    exact runs_ask_bind (asks_repr (l.ok_mono w hw)) fun _ _ _ => runs_fatal _
  | update =>
    exact runs_bind (runs_forM fun source hs s' l =>
      runs_addAll (l.ok_mono v hv) (l.ok_mono source (ha source hs))) fun _ _ _ _ => runs_nothing

/-! ## Methods of texts, bytes and files -/

theorem asks_affixes (m : Method) (hv : T.ok s.heap v) : T.Asks s (Space.affixes m v) := by
  refine asks_bind (asks_get hv) fun o ho => ?_
  split
  · simp only [ok_tupleObject, ok_array, ok_handle] at ho
    exact asks_mapM fun x hx => asks_methodStr m (ho x hx)
  · exact asks_bind (asks_methodStr m hv) fun _ _ => asks_pure (ok_plain _)

theorem runs_strMethod (m : StrMethod) (t : String) (ha : ∀ x ∈ args, T.ok s.heap x) :
    T.Runs s (Space.strMethod m t args) := by
  cases m with
  | join =>
    refine runs_methodArgument_bind _ ha fun v hv => ?_
    refine runs_bind (runs_collect hv) fun items s₁ l₁ hi => ?_
    simp only [ok_array, ok_handle] at hi
    refine runs_bind (runs_mapM fun x hx s₂ l₂ => ?_) fun _ _ _ _ => runs_newStr _
    exact runs_ask (asks_methodStr _ (l₂.ok_mono x (hi x hx)))
  | split =>
    have hparts : ∀ (s' : Space) (parts : List String), T.Runs s' (do
        let items ← parts.mapM Space.newStr
        Space.newList items.toArray) := fun s' parts =>
      runs_bind (runs_mapM fun _ _ _ _ => runs_newStr _) fun _ _ _ hi =>
        runs_newList (by simpa using hi)
    refine runs_bind (runs_presentArgument _ ha) fun v? s' l hv => ?_
    cases v? with
    | none => exact runs_pure_bind (hparts s' _)
    | some v =>
      refine runs_ask_bind (asks_methodStr _ ((ok_handle v).1 ((ok_some v).1 hv))) fun sep _ _ => ?_
      exact runs_guard fun _ => runs_pure_bind (hparts s' _)
  | startswith | endswith =>
    exact runs_methodArgument_bind _ ha fun v hv =>
      runs_ask_bind (asks_affixes _ hv) fun _ _ _ => runs_boolean _
  | upper | lower => exact runs_check_bind fun _ _ => runs_newStr _
  | strip =>
    refine runs_bind (runs_presentArgument _ ha) fun v? s' l hv => ?_
    cases v? with
    | none => exact runs_newStr _
    | some v =>
      exact runs_ask_bind (asks_methodStr _ ((ok_handle v).1 ((ok_some v).1 hv))) fun _ _ _ =>
        runs_newStr _

theorem runs_decodeMethod (bs : Array UInt8) (ha : ∀ x ∈ args, T.ok s.heap x) :
    T.Runs s (Space.decodeMethod bs args) := by
  have hdecode : ∀ encoding : Encoding, T.Runs s (do
      let t ← liftM (encoding.decode bs)
      Space.newStr t) := fun _ => runs_check_bind fun _ _ => runs_newStr _
  refine runs_optionalArgument_bind _ ha fun v? hv => ?_
  cases v? with
  | none => exact runs_pure_bind (hdecode _)
  | some v =>
    refine runs_ask_bind (asks_methodStr _ (hv v rfl)) fun name _ _ => ?_
    exact runs_check_bind fun e _ => runs_pure_bind (hdecode e)

theorem runs_updateStream (stream : Stream) (hv : T.ok s.heap v) :
    T.Runs s (Space.updateStream v stream) := by
  refine runs_ask_bind (asks_file hv) fun _ _ _ => runs_update hv fun o _ hok => ?_
  split
  · exact ⟨.stream _ stream, nofun⟩
  · exact ⟨.same _, hok⟩

theorem runs_contentFor (r : Reader) (limit : Option Nat) :
    T.Runs s (Space.contentFor r limit) := by
  refine runs_get_bind ?_
  split
  · exact runs_pure (ok_plain _)
  · exact runs_ite (fun _ => runs_pure (ok_plain _)) fun _ => runs_fatal _

theorem runs_newContent (binary : Bool) (bytes : Array UInt8) :
    T.Runs s (Space.newContent binary bytes) := by
  refine runs_ite (fun _ => runs_newBytes _) fun _ => ?_
  split
  · exact runs_newStr _
  · exact runs_fatal _

theorem runs_fileMethod (m : FileMethod) (f : File) (hv : T.ok s.heap v)
    (ha : ∀ x ∈ args, T.ok s.heap x) : T.Runs s (Space.fileMethod m v f args) := by
  cases m with
  | read =>
    refine runs_bind (runs_presentArgument _ ha) fun w? s₁ l₁ hw => ?_
    refine runs_bind (runs_optionMapM fun w h => runs_ask (asks_methodInt _ ?_))
      fun limit s₂ l₂ _ => ?_
    · exact (ok_handle w).1 (ok_option.1 hw w h)
    · split
      · refine runs_bind (runs_contentFor _ _) fun content s₃ l₃ _ => ?_
        have l₁₃ := (l₁.trans l₂).trans l₃
        exact runs_bind (runs_updateStream _ (l₁₃.ok_mono v hv)) fun _ _ _ _ => runs_newContent _ _
      · exact runs_fatal _
      · exact runs_fatal _
  | write =>
    refine runs_methodArgument_bind _ ha fun w hw => runs_ask_bind (asks_get hw) fun o _ _ => ?_
    extract_lets send
    have hwrite : ∀ data, T.Runs s (send data) := by
      intro data
      unfold send
      split
      · exact runs_bind (runs_changeDisk _) fun _ _ l _ =>
          runs_bind (runs_updateStream _ (l.ok_mono v hv)) fun _ _ _ _ => runs_nothing
      · exact runs_fatal _
      · exact runs_fatal _
    split
    · exact runs_pure_bind (hwrite _)
    · exact runs_pure_bind (hwrite _)
    · exact runs_ask_bind (asks_badArgument _ _ hw) fun data _ _ => hwrite data
  | close =>
    have hclose : ∀ s', T.Later s s' → T.Runs s' (do
        Space.updateStream v .closed
        Space.nothing) := fun s' l =>
      runs_bind (runs_updateStream _ (l.ok_mono v hv)) fun _ _ _ _ => runs_nothing
    refine runs_of_holds fun hs => runs_check_bind fun _ _ => ?_
    dsimp only
    split
    · exact runs_bind (runs_changeDisk _) fun _ s' l _ => hclose s' l
    · exact hclose s (.refl hs)

/-! ## Calls -/

theorem runs_runMethod (m : Method) (hv : T.ok s.heap v) (ha : ∀ x ∈ args, T.ok s.heap x) :
    T.Runs s (Space.runMethod m v args) := by
  refine runs_ask_bind (asks_get hv) fun o ho hok => ?_
  rw [Heap.get_eq_ok] at ho
  split
  · exact runs_dictMethod _ hv ho ((ok_dictObject _).1 hok) ha
  · exact runs_listMethod _ hv ((ok_listObject _).1 hok) ha
  · exact runs_setMethod _ hv ho ((ok_setObject _).1 hok) ha
  · exact runs_strMethod _ _ ha
  · exact runs_tupleMethod _ ((ok_tupleObject _).1 hok) ha
  · exact runs_decodeMethod _ ha
  · exact runs_fileMethod _ _ hv ha
  · exact runs_ask (asks_badArgument _ _ hv)

theorem runs_presentKeywords (hk : T.Ok s kwargs) : T.Runs s (Space.presentKeywords kwargs) := by
  cases kwargs with
  | none => exact runs_pure ok_none
  | some k =>
    refine runs_bind (runs_isNone k) fun b s' l _ =>
      runs_ite (fun _ => runs_pure ok_none) fun _ => ?_
    have hk := l.ok hk
    refine runs_ask_bind (asks_get ((ok_handle k).1 ((ok_some k).1 hk))) fun o _ _ => ?_
    split
    · refine runs_pure ?_
      split
      · exact ok_none
      · exact hk
    · exact runs_pure hk

theorem asks_checkKeywords (name : String) (allowed : List String) (hv : T.ok s.heap v) :
    T.Asks s (Space.checkKeywords name v allowed) := by
  refine asks_bind (asks_get hv) fun o ho => ?_
  split
  · rw [ok_dictObject, ok_table] at ho
    refine asks_guard fun _ => asks_forM fun (key, w) hkw => ?_
    have hkey := (ok_handle key).1 ((ok_pair key w).1 (ho _ hkw)).1
    refine asks_bind (asks_asStr? hkey) fun text? _ => asks_ite (fun _ => asks_pure (ok_plain _))
      fun _ => ?_
    exact asks_bind (asks_str hkey) fun _ _ => asks_fatal _
  · exact asks_badArgument _ _ hv

theorem asks_positional {receiver : Option Handle} (hr : T.Ok s receiver) (hv : T.ok s.heap v) :
    T.Asks s (Space.positional receiver v) := by
  refine asks_bind (asks_arguments hv) fun items hi => asks_pure ?_
  rw [ok_list]
  intro x hx
  rcases List.mem_append.1 hx with hx | hx
  · exact ok_option.1 hr x (Option.mem_toList.1 hx)
  · exact (ok_array items).1 hi x hx

/-- Code of a program that does its part, when it is given `ok` handles. -/
def RunsCode (T : Trust) (code : Code) : Prop :=
  ∀ s n frame, T.ok s.heap frame.globals → T.ok s.heap frame.caller → T.ok s.heap frame.args →
    T.Ok s frame.kwargs → T.Runs s (code n frame)

theorem runsCode_noCode : T.RunsCode noCode := fun _ _ _ _ _ _ _ => runs_violate fun _ => trivial

section Calls

variable {code : Code} {ctx pack : Handle} (hcode : T.RunsCode code)

include hcode

theorem runs_callFunction (name : String) (entry : Entry) {receiver : Option Handle}
    (hc : T.ok s.heap ctx) (hr : T.Ok s receiver) (hp : T.ok s.heap pack) (hk : T.Ok s kwargs) :
    T.Runs s (Space.callFunction code ctx name entry receiver pack kwargs) := by
  cases entry with
  | compiled n =>
    have hrun : ∀ s' pack, T.Later s s' → T.ok s'.heap pack → T.Runs s' (do
        let s ← get
        code n { globals := s.globals.getD ctx, caller := ctx, args := pack, kwargs }) := by
      intro s' pack l hp
      refine runs_of_holds fun hs => runs_get_bind (hcode _ _ _ ?_ (l.ok_mono ctx hc) hp (l.ok hk))
      cases hg : s'.globals with
      | none => exact l.ok_mono ctx hc
      | some g => exact ok_globals hs hg
    refine runs_of_holds fun hs => ?_
    cases receiver with
    | none => exact runs_pure_bind (hrun s pack (.refl hs) hp)
    | some r =>
      refine runs_ask_bind (asks_positional hr hp) fun items _ hi => ?_
      exact runs_bind (runs_newTuple (by simpa using hi)) fun pack s' l hp =>
        hrun s' pack l ((ok_handle pack).1 hp)
  | builtin f keywords =>
    have hrun : T.Runs s (do
        let args ← liftM (Space.positional receiver pack)
        Space.runBuiltin f args kwargs) :=
      runs_ask_bind (asks_positional hr hp) fun items _ hi =>
        runs_runBuiltin f (by simpa using hi) hk
    cases kwargs with
    | none => exact runs_pure_bind hrun
    | some kw =>
      exact runs_ask_bind (asks_checkKeywords _ _ ((ok_handle kw).1 ((ok_some kw).1 hk)))
        fun _ _ _ => hrun
  | method m =>
    unfold Space.callFunction
    refine runs_guard fun _ => runs_ask_bind (asks_positional hr hp) fun items _ hi => ?_
    cases items with
    | nil => exact runs_fatal _
    | cons v rest =>
      rw [ok_list, List.forall_mem_cons] at hi
      exact runs_runMethod m ((ok_handle v).1 hi.1) (by simpa using hi.2)

omit hcode in
theorem runs_setOwnAttribute {value : Handle} (name : String) (hv : T.ok s.heap v)
    (hw : T.ok s.heap value) : T.Runs s (Space.setOwnAttribute v name value) := by
  refine runs_update hv fun o _ hok => ?_
  split
  · rw [ok_instanceObject] at hok
    refine ⟨.attribute _ _ name value, (ok_instanceObject _ _).2 ⟨hok.1, fun h hh => ?_⟩⟩
    rcases mem_handles_set hh with rfl | hh
    · exact hw
    · exact hok.2 h hh
  · exact ⟨.same _, hok⟩

omit hcode in
theorem runs_bindMembers {members : List (String × Handle)} (hv : T.ok s.heap v)
    (hm : ∀ e ∈ members, T.ok s.heap e.2) : T.Runs s (Space.bindMembers v members) := by
  refine runs_foldlM ok_none fun (name, member) he s₁ init? l₁ hi => ?_
  have hmember := l₁.ok_mono member (hm _ he)
  refine runs_ask_bind (asks_isFunction hmember) fun f _ _ => runs_ite (fun _ => ?_)
    fun _ => runs_pure hi
  refine runs_bind (runs_newBoundMethod (l₁.ok_mono v hv) hmember) fun bound s₂ l₂ hb => ?_
  refine runs_bind (runs_setOwnAttribute name (l₂.ok_mono v (l₁.ok_mono v hv))
    ((ok_handle bound).1 hb)) fun _ s₃ l₃ _ => runs_pure ?_
  split
  · exact (ok_some member).2 ((ok_handle member).2 (l₃.ok_mono _ (l₂.ok_mono _ hmember)))
  · exact l₃.ok (l₂.ok hi)

theorem runs_instantiate {cls : Handle} (className : String) {members : Bindings}
    (hc : T.ok s.heap ctx) (hcls : T.ok s.heap cls)
    (hm : ∀ h ∈ members.handles, T.ok s.heap h) (hp : T.ok s.heap pack) (hk : T.Ok s kwargs) :
    T.Runs s (Space.instantiate code ctx cls className members pack kwargs) := by
  refine runs_bind (runs_alloc rfl ((ok_instanceObject cls {}).2 ⟨hcls, ?_⟩))
    fun inst s₁ l₁ hinst => ?_
  · simp [Bindings.handles]
  refine runs_bind (runs_bindMembers ((ok_handle inst).1 hinst) fun e he => l₁.ok_mono _
    (hm _ (List.mem_map_of_mem he))) fun init? s₂ l₂ hinit => ?_
  have l₁₂ := l₁.trans l₂
  cases init? with
  | some init =>
    refine runs_bind (runs_presentKeywords (l₁₂.ok hk)) fun kwargs s₃ l₃ hk => ?_
    have hinit := l₃.ok_mono init ((ok_handle init).1 ((ok_some init).1 hinit))
    refine runs_ask_bind (asks_get hinit) fun o _ _ => ?_
    have l₁₃ := l₁₂.trans l₃
    have hinst := l₃.ok (l₂.ok hinst)
    split
    · refine runs_bind (runs_callFunction hcode _ _ (l₁₃.ok_mono ctx hc)
        ((ok_some inst).2 hinst) (l₁₃.ok_mono pack hp) hk) fun _ s₄ l₄ _ => ?_
      exact runs_pure (l₄.ok hinst)
    · exact runs_ask_bind (asks_typeName hinit) fun _ _ _ => runs_bind (runs_fatal _) fun _ _ l _ =>
        runs_pure (l.ok hinst)
  | none =>
    refine runs_ask_bind (asks_arguments (l₁₂.ok_mono pack hp)) fun items _ _ => ?_
    exact runs_guard fun _ => runs_guard fun _ => runs_pure (l₂.ok hinst)

/-- A call of an `ok` value with `ok` arguments. -/
theorem runs_call {callee : Handle} (hc : T.ok s.heap ctx) (hv : T.ok s.heap callee)
    (hp : T.ok s.heap pack) (hk : T.Ok s kwargs) :
    T.Runs s (Space.call code ctx callee pack kwargs) := by
  refine runs_bind (runs_presentKeywords hk) fun kwargs s₁ l₁ hk => ?_
  have hc := l₁.ok_mono ctx hc
  have hp := l₁.ok_mono pack hp
  have hv := l₁.ok_mono callee hv
  refine runs_ask_bind (asks_get hv) fun o _ ho => ?_
  split
  · exact runs_callFunction hcode _ _ hc ok_none hp hk
  · rw [ok_methodObject] at ho
    refine runs_ask_bind (asks_get ho.2) fun o _ _ => ?_
    split
    · exact runs_callFunction hcode _ _ hc ((ok_some _).2 ((ok_handle _).2 ho.1)) hp hk
    · exact runs_ask_bind (asks_typeName ho.2) fun _ _ _ => runs_fatal _
  · exact runs_instantiate hcode _ hc hv ((ok_classObject _ _).1 ho) hp hk
  · refine runs_ask_bind (asks_arguments hp) fun items _ hi => ?_
    exact runs_construct _ (by simpa using hi)
  · exact runs_ask_bind (asks_typeName hv) fun _ _ _ => runs_fatal _

theorem runs_callWith {callee : Handle} (hc : T.ok s.heap ctx) (hv : T.ok s.heap callee)
    (ha : ∀ x ∈ args, T.ok s.heap x) : T.Runs s (Space.callWith code ctx callee args) :=
  runs_bind (runs_newTuple (by simpa using ha)) fun pack _ l hp =>
    runs_call hcode (l.ok_mono ctx hc) (l.ok_mono callee hv) ((ok_handle pack).1 hp) ok_none

end Calls

/-! ## The module context -/

theorem runs_bindFunction {ctx : Handle} (name : String) (f : Builtin) (keywords : List String)
    (hc : T.ok s.heap ctx) : T.Runs s (Space.bindFunction ctx name f keywords) :=
  runs_bind (runs_alloc_plain trivial rfl) fun h _ l hh =>
    runs_storeName name (l.ok_mono ctx hc) ((ok_handle h).1 hh)

theorem runs_bindType {ctx : Handle} (k : Kind) (hc : T.ok s.heap ctx) :
    T.Runs s (Space.bindType ctx k) :=
  runs_bind (runs_typeObject k) fun h _ l hh =>
    runs_storeName _ (l.ok_mono ctx hc) ((ok_handle h).1 hh)

theorem runs_setGlobals {ctx : Handle} (hc : T.ok s.heap ctx) :
    T.Runs s (modify fun s => { s with globals := some ctx } : Action Unit) :=
  ⟨fun hs => ⟨.of_step hs (.globals hc), ok_plain _⟩⟩

theorem runs_initContext {ctx : Handle} (argv : List String) (hc : T.ok s.heap ctx) :
    T.Runs s (Space.initContext ctx argv) := by
  refine runs_bind (runs_setGlobals hc) fun _ s₁ l₁ _ => ?_
  have hc := l₁.ok_mono ctx hc
  refine runs_bind (runs_forM fun f _ s' l => runs_bindFunction _ f _ (l.ok_mono ctx hc))
    fun _ s₂ l₂ _ => ?_
  have hc := l₂.ok_mono ctx hc
  refine runs_bind (runs_forM fun k _ s' l => runs_bindType k (l.ok_mono ctx hc))
    fun _ s₃ l₃ _ => ?_
  have hc := l₃.ok_mono ctx hc
  refine runs_get_bind (runs_bind (runs_newStr _) fun name s₄ l₄ hn => ?_)
  refine runs_bind (runs_storeName _ (l₄.ok_mono ctx hc) ((ok_handle name).1 hn))
    fun _ s₅ l₅ _ => ?_
  have hc := l₅.ok_mono ctx (l₄.ok_mono ctx hc)
  refine runs_bind (runs_mapM fun _ _ _ _ => runs_newStr _) fun items s₆ l₆ hi => ?_
  refine runs_bind (runs_newList (by simpa using hi)) fun list s₇ l₇ hl => ?_
  exact runs_storeName _ (l₇.ok_mono ctx (l₆.ok_mono ctx hc)) ((ok_handle list).1 hl)

end ObjectSpace.Trust
