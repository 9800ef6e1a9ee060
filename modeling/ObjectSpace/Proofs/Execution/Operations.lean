import ObjectSpace.Proofs.Execution.Calling
import ObjectSpace.Proofs.Number.Exact

/-!
# Operations of a program

What the operations on integers, lists and tuples come to that programs use, with the frame of each.
-/

namespace ObjectSpace

/-! ## Counts in words -/

namespace Integer

/-- A word can hold a count below half its range. -/
theorem checked_natCast (operation : String) {n : Nat} (h : n < 2 ^ 63) :
    checked operation n = .ok (Int64.ofNat n) := by
  have hword : IsWord n := by
    unfold IsWord
    omega
  rw [checked_of_isWord operation hword, Int64.ofInt_eq_ofNat]

theorem binary?_add_one {n : Nat} (h : n + 1 < 2 ^ 63) :
    binary? .add (Int64.ofNat n) 1 = some (.ok (Int64.ofNat (n + 1))) := by
  rw [binary?, Int64.toInt_ofNat_of_lt (by omega), toInt_one, ← checked_natCast "add" h]
  simp

theorem binary?_mod {m n : Nat} (hm : m < 2 ^ 63) (hn : n < 2 ^ 63) (hpos : 0 < n) :
    binary? .mod (Int64.ofNat m) (Int64.ofNat n) = some (.ok (Int64.ofNat (m % n))) := by
  have hzero : (Int64.ofNat n).toInt ≠ 0 := by
    rw [Int64.toInt_ofNat_of_lt hn]
    omega
  have hlt : m % n < 2 ^ 63 := (Nat.mod_lt m hpos).trans hn
  rw [binary?, floorMod_exact _ hzero, ← fmod_eq_floor, Int64.toInt_ofNat_of_lt hm,
    Int64.toInt_ofNat_of_lt hn, Int.fmod_eq_emod_of_nonneg _ (Int.natCast_nonneg n),
    ← Int.natCast_mod, checked_natCast "mod" hlt]

end Integer

/-! ## The slice from the second element on -/

namespace Slice

/-- The positions from the second on. -/
theorem ofBounds_one (n : Nat) :
    ofBounds n (some 1) none none = .ok { start := min 1 n, stop := n, step := 1 } := by
  have hone : ¬ (1 : Int64) < 0 := by decide
  simp [ofBounds, clamp, hone]

theorem count_one (n : Nat) :
    ({ start := min 1 n, stop := n, step := 1 } : Slice).count = n - 1 := by
  rw [count, Progression.count, if_pos Int.one_pos]
  dsimp only
  by_cases hn : min 1 (n : Int) < n
  · rw [if_pos hn, Int.ediv_one]
    omega
  · rw [if_neg hn]
    omega

theorem filterMap_range {α : Type} (l : List α) :
    (List.range l.length).filterMap (fun i => l[i]?) = l := by
  induction l with
  | nil => rfl
  | cons x l ih =>
    rw [List.length_cons, List.range_succ_eq_map]
    simp only [List.filterMap_cons, List.getElem?_cons_zero, List.filterMap_map]
    exact congrArg (x :: ·) ih

/-- All but the first element. -/
theorem pick_one {α : Type} (xs : Array α) :
    (({ start := min 1 xs.size, stop := xs.size, step := 1 } : Slice).pick xs).toList =
      xs.toList.tail := by
  rw [pick, positions, count_one, List.filterMap_map]
  have hsome : ∀ i ∈ List.range (xs.size - 1),
      ((fun p => xs[p]?) ∘ fun i : Nat =>
        (position { start := min 1 xs.size, stop := xs.size, step := 1 } i).toNat) i =
          xs.toList.tail[i]? := by
    intro i hi
    rw [List.mem_range] at hi
    have hp : (position { start := min 1 xs.size, stop := xs.size, step := 1 } i).toNat =
        i + 1 := by
      simp only [position]
      omega
    simp [hp]
  rw [List.filterMap_congr hsome]
  have hlen : xs.size - 1 = xs.toList.tail.length := by simp
  rw [hlen, filterMap_range]

end Slice

namespace Space

variable {s s' : Space} {ctx v w l key : Handle} {c : Context} {m n k : Int64}
  {items : Array Handle} {d : Diagnostic} {code : Code}

/-- A check that passes gives its value. -/
theorem check_bind_of_ok {α β : Type} {e : Except Diagnostic α} {f : α → Action β} {a : α}
    (h : e = .ok a) : ((liftM e : Action α) >>= f) s = f a s := by
  subst h
  rfl

/-- A check that fails ends with its diagnostic. -/
theorem check_bind_of_error {α β : Type} {e : Except Diagnostic α} {f : α → Action β}
    (h : e = .error d) : ((liftM e : Action α) >>= f) s = .error (.fatal d) s := by
  subst h
  rfl

/-! ## Integers -/

theorem binary_frame (i : s.Steady) {op : BinaryOp} (hv : s.heap.Has v (.int m))
    (hw : s.heap.Has w (.int n)) (h : Integer.binary? op m n = some (.ok k)) :
    ∃ r s', binary op v w s = .ok r s' ∧ Frame [] s s' ∧ s'.heap.Has r (.int k) := by
  obtain ⟨r, s', hs', f, hr⟩ := newInt_frame i k
  refine ⟨r, s', ?_, f, hr⟩
  rw [binary, get_bind_of_has hv, get_bind_of_has hw]
  show integerBinary op v w m n false s = _
  rw [integerBinary, h]
  exact hs'

/-! ## Items -/

theorem normalizeIndex_one (length : Nat) (type : String) : normalizeIndex 1 length type =
    if 1 < length then .ok 1 else .error (.indexOutOfRange type) := by
  have hneg : ¬ (1 : Int64) < 0 := by decide
  have hone : (1 : Int64).toInt = 1 := by decide
  rw [normalizeIndex, if_neg hneg, hone]
  by_cases h : 1 < length
  · rw [if_pos h, if_pos (by omega)]
    rfl
  · rw [if_neg h, if_neg (by omega)]

theorem indexArgument_eq {o : Object} (hk : s.heap.Has key o) (ho : o.asInt? = some n)
    (container : Handle) (operation : String) :
    Heap.indexArgument container key operation s.heap = .ok n := by
  rw [Heap.indexArgument, Heap.bind_of_ok (Heap.asInt?_eq hk), ho]
  rfl

theorem getItem_list (hl : s.heap.Has l (.list items)) (hk : s.heap.Has key (.int n)) {j : Nat}
    (h : normalizeIndex n items.size "list" = .ok j) :
    getItem l key s = .ok (items.getD j l) s := by
  rw [getItem, get_bind_of_has hl]
  dsimp only
  simp only [bind_assoc]
  rw [ask_bind_of_ok (indexArgument_eq hk rfl l "getitem"), check_bind_of_ok h]
  rfl

theorem getItem_list_error (hl : s.heap.Has l (.list items)) (hk : s.heap.Has key (.int n))
    (h : normalizeIndex n items.size "list" = .error d) :
    getItem l key s = .error (.fatal d) s := by
  rw [getItem, get_bind_of_has hl]
  dsimp only
  simp only [bind_assoc]
  rw [ask_bind_of_ok (indexArgument_eq hk rfl l "getitem"), check_bind_of_error h]

theorem getItem_tuple (hl : s.heap.Has l (.tuple items)) (hk : s.heap.Has key (.int n)) {j : Nat}
    (h : normalizeIndex n items.size "tuple" = .ok j) :
    getItem l key s = .ok (items.getD j l) s := by
  rw [getItem, get_bind_of_has hl]
  dsimp only
  simp only [bind_assoc]
  rw [ask_bind_of_ok (indexArgument_eq hk rfl l "getitem"), check_bind_of_ok h]
  rfl

/-! ## Lists -/

theorem updateList_frame (i : s.Steady) (hl : s.heap.Has l (.list items))
    (f : Array Handle → Array Handle) (hlive : ∀ g ∈ (f items).toList, s.heap.isLive g = true) :
    ∃ s', updateList l f s = .ok () s' ∧ Frame [l] s s' ∧ s'.heap.Has l (.list (f items)) := by
  rw [updateList, ask_bind_of_ok (Heap.list_of_get? hl.2)]
  exact update_frame i hl (.list _ _) hlive nofun

/-- Appending to a list. -/
theorem append_frame (code : Code) (ctx : Handle) (i : s.Steady) (hl : s.heap.Has l (.list items))
    (hv : s.heap.isLive v = true) :
    ∃ r s', Program.callMethod code ctx l "append" [v] s = .ok r s' ∧ Frame [l] s s' ∧
      s'.heap.Has l (.list (items.push v)) := by
  obtain ⟨s₁, f₁, h₁⟩ := callMethod_frame code ctx i hl (.list .append) rfl
    (List.forall_mem_singleton.2 hv)
  have hlive : ∀ g ∈ (items.push v).toList, s₁.heap.isLive g = true := by
    intro g hg
    rw [Array.toList_push, List.mem_append, List.mem_singleton] at hg
    rcases hg with hg | rfl
    · exact f₁.live (i.children hl g hg)
    · exact f₁.live hv
  obtain ⟨s₂, h₂, f₂, hl₂⟩ := updateList_frame f₁.steady (f₁.keep hl) (·.push v) hlive
  refine ⟨s₂.noneValue, s₂, h₁.trans ?_, (f₁.trans f₂).mono (by simp), hl₂⟩
  rw [runMethod, get_bind_of_has (f₁.keep hl)]
  show (updateList l (·.push v) >>= fun _ => nothing) s₁ = _
  rw [bind_of_ok h₂]
  rfl

theorem length_eq (hl : s.heap.Has l (.list items)) :
    Heap.length l s.heap = .ok items.size :=
  Heap.bind_of_ok (Heap.get_eq_ok.2 hl.2)

theorem runBuiltin_len (hl : s.heap.Has l (.list items)) :
    runBuiltin .len [l] none s = newCount "len" items.size s := by
  show ((liftM (Heap.length l) : Action Nat) >>= newCount "len") s = _
  rw [ask_bind_of_ok (length_eq hl)]

/-- The length of a list, if a word can hold it. -/
theorem Module.len (md : Module s ctx c) (i : s.Steady) (hl : s.heap.Has l (.list items))
    (h : Integer.checked "len" items.size = .ok n) :
    ∃ r s', Program.callName ctx "len" [l] s = .ok r s' ∧ Frame [] s s' ∧
      s'.heap.Has r (.int n) := by
  obtain ⟨s₁, f₁, h₁⟩ := md.callBuiltin (f := .len) i (by decide) (List.forall_mem_singleton.2 hl.1)
  obtain ⟨r, s₂, h₂, f₂, hr⟩ := newInt_frame f₁.steady n
  refine ⟨r, s₂, h₁.trans ?_, f₁.again f₂, hr⟩
  rw [runBuiltin_len (f₁.keep hl), newCount, check_bind_of_ok h, h₂]

theorem Module.len_error (md : Module s ctx c) (i : s.Steady) (hl : s.heap.Has l (.list items))
    (h : Integer.checked "len" items.size = .error d) :
    ∃ s', Program.callName ctx "len" [l] s = .error (.fatal d) s' ∧ Frame [] s s' := by
  obtain ⟨s₁, f₁, h₁⟩ := md.callBuiltin (f := .len) i (by decide) (List.forall_mem_singleton.2 hl.1)
  refine ⟨s₁, h₁.trans ?_, f₁⟩
  rw [runBuiltin_len (f₁.keep hl), newCount, check_bind_of_error h]

/-- The elements of a list from the second on, as a new list. -/
theorem slice_frame (i : s.Steady) (hl : s.heap.Has l (.list items))
    (hk : s.heap.Has key (.int 1)) :
    ∃ r s', slice l (some key) none none s = .ok r s' ∧ Frame [] s s' ∧
      s'.heap.Has r (.list items.toList.tail.toArray) := by
  have hlive : ∀ g ∈ items.toList.tail.toArray.toList, s.heap.isLive g = true := by
    intro g hg
    exact i.children hl g (List.mem_of_mem_tail hg)
  obtain ⟨r, s', hs', f, hr⟩ := newList_frame i hlive
  have hnone : key ≠ s.noneValue := hk.ne i.nothing nofun
  have hbound : Heap.sliceBound s.noneValue (some key) s.heap = .ok (some 1) := by
    rw [Heap.sliceBound, if_neg hnone, Heap.bind_of_ok (Heap.expectInt_int hk "slice")]
    rfl
  refine ⟨r, s', ?_, f, hr⟩
  have hpick : ({ start := min 1 items.size, stop := items.size, step := 1 } : Slice).pick items =
      items.toList.tail.toArray := Array.toList_inj.1 (Slice.pick_one items)
  rw [slice]
  show ((liftM (Heap.sliceBound s.noneValue (some key)) : Action (Option Int64)) >>= _) s = _
  rw [ask_bind_of_ok hbound, ask_bind_of_ok (a := none) rfl, ask_bind_of_ok (a := none) rfl]
  dsimp only
  rw [get_bind_of_has hl]
  dsimp only
  rw [check_bind_of_ok (Slice.ofBounds_one items.size), hpick, hs']

/-! ## Texts -/

/-- The words of a text, as a new list. -/
theorem split_frame (code : Code) (ctx : Handle) (i : s.Steady) {text : String}
    (hv : IsText s.heap v text) :
    ∃ r items s', Program.callMethod code ctx v "split" [] s = .ok r s' ∧ Frame [] s s' ∧
      s'.heap.Has r (.list items) ∧ AreTexts s'.heap items.toList (Text.words text) := by
  obtain ⟨hash?, hv⟩ := hv
  obtain ⟨s₁, f₁, h₁⟩ := callMethod_frame code ctx i hv (.str .split) rfl
    (List.forall_mem_nil _)
  obtain ⟨l, s₂, h₂, f₂, hl⟩ := newTexts_frame f₁.steady (Text.words text)
  have hlive : ∀ v ∈ l.toArray.toList, s₂.heap.isLive v = true := hl.live
  obtain ⟨r, s₃, h₃, f₃, hr⟩ := newList_frame f₂.steady hlive
  refine ⟨r, l.toArray, s₃, h₁.trans ?_, (f₁.again f₂).again f₃, hr, f₃.areTexts hl⟩
  rw [runMethod, get_bind_of_has (f₁.keep hv)]
  show ((Text.words text).mapM newStr >>= fun l => newList l.toArray) s₁ = _
  rw [bind_of_ok h₂, h₃]

end Space

end ObjectSpace
