import ObjectSpace.Proofs.Execution.Arithmetic
import ObjectSpace.Proofs.Execution.Printing
import ObjectSpace.Proofs.Execution.Sequences

/-!
# Joining and repeating sequences

**Theorem (`sequences_repeat`).** In every space of a run on live handles, a sum of two sequences of
one type has the elements of the first and then those of the second, and a product with a count, on
whichever side the count stands, has the elements as often as the count says, none for a negative
one. A product is refused exactly if it takes more than 2^32 bytes (`Oversized`): as an overflow if
a word cannot count its units, and otherwise as too large. A product with a sum of counts equals the
sum of the products.

The four types are repeated in different ways, but the check of the size is the same for all: it
counts the units of a sequence, which are its extent, and every unit of one sequence takes the same
number of bytes (`Object.unit`).
-/

namespace ObjectSpace

/-- The bytes that an element takes in a sequence: a handle, a character in UTF-8, or a byte. -/
def Element.bytes : Element → Nat
  | value _ => 12
  | char c => c.utf8Size
  | byte _ => 1

/-- The bytes that elements take in a sequence. -/
def storage (es : List Element) : Nat := (es.map Element.bytes).sum

/-- A repetition takes more than a sequence may. -/
def Oversized (es : List Element) (n : ℤ) : Prop := 0 < n ∧ es ≠ [] ∧ 2 ^ 32 < storage es * n

/-- The elements of a repetition. -/
def copies (es : List Element) (n : ℤ) : List Element := (List.replicate n.toNat es).flatten

/-- The bytes that a unit of a sequence takes. -/
def Object.unit : Object → Nat
  | list _ | tuple _ => 12
  | _ => 1

variable {o o' : Object} {es fs : List Element} {n : ℤ}

/-! ## Units and bytes -/

theorem copies_add {m : ℤ} (hm : 0 ≤ m) (hn : 0 ≤ n) :
    copies es (m + n) = copies es m ++ copies es n := by
  rw [copies, copies, copies, Int.toNat_add hm hn, List.replicate_add, List.flatten_append]

theorem storage_eq (ho : o.elements? = some es) : storage es = extent es * o.unit := by
  have hmap : ∀ {α : Type} {f : α → Element} {k : ℕ} (xs : List α), (∀ x, (f x).bytes = k) →
      (∀ x, (f x).width = 1) → storage (xs.map f) = extent (xs.map f) * k := by
    intro α f k xs hf hw
    rw [extent_map hw]
    simp [storage, Function.comp_def, hf]
  cases o <;> cases ho
  case list.refl | tuple.refl | bytes.refl => exact hmap _ (fun _ => rfl) fun _ => rfl
  case str.refl =>
    simp [storage, extent, Object.unit, Element.bytes, Element.width, Function.comp_def]

theorem Object.unit_pos (o : Object) : 0 < o.unit := by
  cases o <;> exact Nat.succ_pos _

/-- A repetition is oversized as soon as its units take too many bytes. -/
theorem oversized_iff (ho : o.elements? = some es) :
    Oversized es n ↔ 2 ^ 32 < extent es * n.toNat * o.unit := by
  have hs : (storage es : ℤ) * n = extent es * n * o.unit := by
    rw [storage_eq ho]
    push_cast
    ring
  rw [Oversized, hs]
  rcases le_or_gt n 0 with hn | hn
  · simp [Int.toNat_of_nonpos hn, not_lt.2 hn]
  · lift n to ℕ using hn.le
    norm_cast
    refine ⟨fun h => h.2.2, fun h => ⟨by exact_mod_cast hn, fun hes => ?_, h⟩⟩
    subst hes
    simp at h

theorem Oversized.mono {m : ℤ} (h : Oversized es m) (hmn : m ≤ n) : Oversized es n := by
  obtain ⟨hpos, hes, hbytes⟩ := h
  refine ⟨hpos.trans_le hmn, hes, hbytes.trans_le ?_⟩
  gcongr

/-! ## The check of the size -/

/-- Why a repetition is refused. -/
def refusal (es : List Element) (n : ℤ) : Diagnostic :=
  if 2 ^ 64 ≤ extent es * n then .integerOverflow "mul"
  else .invalidValue "repeated sequence is too large"

theorem repeatedLength_of_oversized {k : Int64} (ho : o.elements? = some es)
    (h : Oversized es k.toInt) :
    repeatedLength (extent es) o.unit k = .error (refusal es k.toInt) := by
  have hpos := h.1
  have hbytes := (oversized_iff ho).1 h
  have hcast : (extent es : ℤ) * k.toInt = (extent es * k.toInt.toNat : ℕ) := by
    rw [Nat.cast_mul, Int.toNat_of_nonneg hpos.le]
  have hlimit : sequenceLimit = 2 ^ 32 := rfl
  have hcount : countLimit < extent es * k.toInt.toNat ↔ 2 ^ 64 ≤ (extent es : ℤ) * k.toInt := by
    have : countLimit = 2 ^ 64 - 1 := rfl
    omega
  rw [repeatedLength, refusal]
  simp only [hcount]
  split
  · rfl
  · rw [if_pos (hlimit ▸ hbytes)]

theorem repeatedLength_of_not_oversized {k : Int64} (ho : o.elements? = some es)
    (h : ¬ Oversized es k.toInt) :
    repeatedLength (extent es) o.unit k = .ok (extent es * k.toInt.toNat) := by
  rw [oversized_iff ho, not_lt] at h
  have hunit := o.unit_pos
  have hunits : extent es * k.toInt.toNat ≤ 2 ^ 32 := le_trans (Nat.le_mul_of_pos_right _ hunit) h
  have hlimit : sequenceLimit = 2 ^ 32 := rfl
  have hcount : countLimit = 2 ^ 64 - 1 := rfl
  rw [repeatedLength, if_neg (by omega), if_neg (by omega)]

/-! ## Repeating -/

theorem repeated?_of_oversized {k : Int64} (ho : o.elements? = some es)
    (h : Oversized es k.toInt) : o.repeated? k = some (.error (refusal es k.toInt)) := by
  have hlength := repeatedLength_of_oversized ho h
  rw [← sequenceLength_eq ho] at hlength
  cases o with
  | list items | tuple items | bytes items =>
    have hrepeat : ∀ {α : Type} {xs : Array α} {size : ℕ} {d : Diagnostic},
        repeatedLength xs.size size k = .error d → repeatArray xs size k = .error d := by
      intro α xs size d hd
      rw [repeatArray, hd]
      rfl
    exact congrArg (fun r => some (Except.map _ r)) (hrepeat hlength)
  | str text =>
    have hrepeat : repeatText text k = .error (refusal es k.toInt) := by
      rw [repeatText]
      exact congrArg (· >>= _) hlength
    exact congrArg (fun r => some (Except.map _ r)) hrepeat
  | _ => cases ho

/-- A sequence of the type of another one, with the elements `es`. A text carries no hash. -/
structure Object.Rearranged (o : Object) (es : List Element) (o' : Object) : Prop where
  kind : o'.kind? = o.kind?
  elements : o'.elements? = some es
  plain : ∀ text hash, o' ≠ .str text (some hash)

theorem Object.Rearranged.unique {x y : Object} (hx : o.Rearranged es x)
    (hy : o.Rearranged es y) : x = y := by
  have hkind := hy.kind.trans hx.kind.symm
  have helements := hy.elements.trans hx.elements.symm
  have hmap : ∀ {α : Type} {f : α → Element} {xs ys : List α}, Function.Injective f →
      some (ys.map f) = some (xs.map f) → xs = ys := fun hf h =>
    (hf.list_map (Option.some.inj h)).symm
  cases x with
  | list xs =>
    cases y with
    | list ys => rw [Array.toList_inj.1 (hmap (fun _ _ h => Element.value.inj h) helements)]
    | _ => first | cases hkind | cases helements
  | tuple xs =>
    cases y with
    | tuple ys => rw [Array.toList_inj.1 (hmap (fun _ _ h => Element.value.inj h) helements)]
    | _ => first | cases hkind | cases helements
  | bytes xs =>
    cases y with
    | bytes ys => rw [Array.toList_inj.1 (hmap (fun _ _ h => Element.byte.inj h) helements)]
    | _ => first | cases hkind | cases helements
  | str text hash? =>
    cases y with
    | str text' hash?' =>
      obtain rfl := String.toList_inj.1 (hmap (fun _ _ h => Element.char.inj h) helements)
      rcases hash? with _ | hash
      · rcases hash?' with _ | hash
        · rfl
        · exact absurd rfl (hy.plain text hash)
      · exact absurd rfl (hx.plain text hash)
    | _ => first | cases hkind | cases helements
  | _ => exact absurd hx.elements nofun

theorem copies_map {α : Type} (f : α → Element) (xs : List α) (n : ℤ) :
    copies (xs.map f) n = (List.replicate n.toNat xs).flatten.map f := by
  rw [copies, List.map_flatten, List.map_replicate]

theorem repeatArray_ok {α : Type} {xs : Array α} {size total : ℕ} {k : Int64}
    (h : repeatedLength xs.size size k = .ok total) :
    ∃ ys, repeatArray xs size k = .ok ys ∧
      ys.toList = (List.replicate k.toInt.toNat xs.toList).flatten := by
  refine ⟨_, by rw [repeatArray, h]; rfl, ?_⟩
  split
  · rename_i hempty
    obtain rfl := Array.isEmpty_iff.1 hempty
    exact List.flatten_replicate_nil.symm
  · rw [Array.toList_flatten, Array.toList_replicate, List.map_replicate]

theorem repeatText_ok {text : String} {total : ℕ} {k : Int64}
    (h : repeatedLength text.utf8ByteSize 1 k = .ok total) :
    ∃ t, repeatText text k = .ok t ∧
      t.toList = (List.replicate k.toInt.toNat text.toList).flatten := by
  refine ⟨_, by rw [repeatText, h]; rfl, ?_⟩
  split
  · rename_i hempty
    obtain rfl := String.isEmpty_iff.1 hempty
    exact List.flatten_replicate_nil.symm
  · rw [String.toList_join, List.flatMap_def, List.map_replicate]

theorem repeated?_of_not_oversized {k : Int64} (ho : o.elements? = some es)
    (h : ¬ Oversized es k.toInt) :
    ∃ o', o.repeated? k = some (.ok o') ∧ o.Rearranged (copies es k.toInt) o' := by
  have hlength := repeatedLength_of_not_oversized ho h
  rw [← sequenceLength_eq ho] at hlength
  cases o with
  | list items | tuple items | bytes items =>
    obtain ⟨ys, hys, hlist⟩ := repeatArray_ok hlength
    obtain rfl := Option.some.inj ho
    refine ⟨_, congrArg (fun r => some (Except.map _ r)) hys, rfl, ?_, nofun⟩
    rw [copies_map, ← hlist]
    rfl
  | str text =>
    obtain ⟨t, ht, hlist⟩ := repeatText_ok hlength
    obtain rfl := Option.some.inj ho
    refine ⟨_, congrArg (fun r => some (Except.map _ r)) ht, rfl, ?_, nofun⟩
    rw [copies_map, ← hlist]
    rfl
  | _ => cases ho

theorem Object.mem_children_of_elements? (ho : o.elements? = some es) {h : Handle} :
    h ∈ o.children ↔ .value h ∈ es := by
  cases o <;> cases ho <;> simp [Object.children]

namespace Space

variable {settings : Settings} {disk : Disk} {s s' : Space} {v w : Handle} {x y : Object}
  {k : Int64} {act : Action Handle}

/-- An action makes a sequence of the type of `o` with the elements `es`. -/
def Arranges (s : Space) (act : Action Handle) (o : Object) (es : List Element) : Prop :=
  ∃ o', s.Makes act o' ∧ o.Rearranged es o'

theorem arranges_alloc (i : s.Steady) (ho : o.Rearranged es o')
    (hlive : ∀ h, .value h ∈ es → s.heap.isLive h = true)
    (hact : act s = alloc o' s) : s.Arranges act o es := by
  have hwrites : ¬ o'.Writes := by
    rintro ⟨f, w, rfl, -⟩
    exact absurd ho.elements nofun
  have hplaceable : Placeable (fun heap g => heap.isLive g = true) s.heap o' := by
    have helements := ho.elements
    cases o' with
    | str text hash? =>
      cases hash? with
      | none => trivial
      | some hash => exact absurd rfl (ho.plain text hash)
    | list | tuple | bytes => trivial
    | _ => cases helements
  refine ⟨o', (makes_alloc i hplaceable (fun h hh => hlive h ?_) hwrites).of_eq hact, ho⟩
  exact (Object.mem_children_of_elements? ho.elements).1 hh

theorem Steady.live_elements (i : s.Steady) (hv : s.heap.Has v o) (ho : o.elements? = some es) :
    ∀ h, .value h ∈ es → s.heap.isLive h = true := fun h hh =>
  i.children hv h ((Object.mem_children_of_elements? ho).2 hh)

theorem asInt?_of_elements? (ho : o.elements? = some es) : o.asInt? = none := by
  cases o with
  | bool | int => cases ho
  | _ => rfl

/-- An operator on a sequence and what is no integer, or on a sequence and an integer, joins or
repeats if that gives something. -/
theorem binary_sequence {op : BinaryOp} {result : Except Diagnostic Object}
    (hv : s.heap.Has v x) (hw : s.heap.Has w y) (hint : x.asInt? = none ∨ y.asInt? = none)
    (h : Object.sequenceBinary? op x y = some result) :
    binary op v w s = ((liftM result : Action Object) >>= alloc) s := by
  rw [binary, get_bind_of_has hv, get_bind_of_has hw, h]
  cases hx : x.asInt? with
  | none => rfl
  | some =>
    rw [hint.resolve_left (by simp [hx])]

/-! ## Joining -/

theorem arranges_add (i : s.Steady) (hv : s.heap.Has v x) (hx : x.elements? = some es)
    (hw : s.heap.Has w y) (hy : y.elements? = some fs) (hk : y.kind? = x.kind?) :
    s.Arranges (binary .add v w) x (es ++ fs) := by
  have hsum : ∃ z, Object.sequenceBinary? .add x y = some (.ok z) ∧ x.Rearranged (es ++ fs) z := by
    cases x <;> cases hx <;> cases y <;> cases hy <;> cases hk
    all_goals exact ⟨_, rfl, rfl, by simp [Object.elements?], by rintro _ _ ⟨⟩⟩
  obtain ⟨z, hz, hzs⟩ := hsum
  have hbinary := binary_sequence hv hw (.inl (asInt?_of_elements? hx)) hz
  refine arranges_alloc i hzs (fun h hh => ?_) (hbinary.trans (check_bind_of_ok rfl))
  rcases List.mem_append.1 hh with hh | hh
  · exact i.live_elements hv hx h hh
  · exact i.live_elements hw hy h hh

/-! ## Multiplying -/

theorem binary_mul (hv : s.heap.Has v x) (hx : x.elements? = some es) (hw : s.heap.Has w y)
    (hy : y.asInt? = some k) {result : Except Diagnostic Object} (h : x.repeated? k = some result) :
    binary .mul v w s = ((liftM result : Action Object) >>= alloc) s ∧
      binary .mul w v s = binary .mul v w s := by
  have hint := asInt?_of_elements? hx
  have hright : Object.sequenceBinary? .mul x y = some result := by
    rw [Object.sequenceBinary?, hy]
    exact h
  have hleft : Object.sequenceBinary? .mul y x = some result := by
    rw [Object.sequenceBinary?, hint, hy]
    exact h
  have hmul := binary_sequence hv hw (.inl hint) hright
  exact ⟨hmul, (binary_sequence hw hv (.inr hint) hleft).trans hmul.symm⟩

theorem binary_mul_comm (hv : s.heap.Has v x) (hx : x.elements? = some es) (hw : s.heap.Has w y)
    (hy : y.asInt? = some k) : binary .mul w v s = binary .mul v w s := by
  by_cases h : Oversized es k.toInt
  · exact (binary_mul hv hx hw hy (repeated?_of_oversized hx h)).2
  · obtain ⟨z, hz, -⟩ := repeated?_of_not_oversized hx h
    exact (binary_mul hv hx hw hy hz).2

theorem binary_mul_refused (hv : s.heap.Has v x) (hx : x.elements? = some es)
    (hw : s.heap.Has w y) (hy : y.asInt? = some k) (h : Oversized es k.toInt) :
    binary .mul v w s = .error (.fatal (refusal es k.toInt)) s := by
  rw [(binary_mul hv hx hw hy (repeated?_of_oversized hx h)).1, check_bind_of_error rfl]

/-- Any other product has the copies of the elements. -/
theorem arranges_mul (i : s.Steady) (hv : s.heap.Has v x) (hx : x.elements? = some es)
    (hw : s.heap.Has w y) (hy : y.asInt? = some k) (h : ¬ Oversized es k.toInt) :
    s.Arranges (binary .mul v w) x (copies es k.toInt) := by
  obtain ⟨z, hz, hzs⟩ := repeated?_of_not_oversized hx h
  refine arranges_alloc i hzs (fun g hg => ?_)
    ((binary_mul hv hx hw hy hz).1.trans (check_bind_of_ok rfl))
  -- a copy holds nothing but what is repeated
  obtain ⟨l, hl, hg⟩ := List.mem_flatten.1 hg
  rw [List.eq_of_mem_replicate hl] at hg
  exact i.live_elements hv hx g hg

/-! ## Equal sequences -/

/-- Sequences of one type with the same elements are equal, also if they contain themselves. -/
theorem compares_rearranged (hv : s.heap.Has v x) (hx : o.Rearranged es x) (hw : s.heap.Has w y)
    (hy : o.Rearranged es y) : Heap.compares .eq v w s.heap = .ok true := by
  obtain rfl := hx.unique hy
  obtain ⟨n, hn⟩ := Heap.capacity_pos hv
  have hrefl : ∀ l : List Handle,
      List.Forall₂ (Heap.Yes s.heap (Heap.equalWithin (n + 1))) l l := by
    intro l
    refine List.forall₂_same.2 fun h _ => ?_
    rw [Heap.Yes, Heap.equalWithin, if_pos rfl]
    rfl
  have hsame : Heap.Same s.heap (Heap.equalWithin (n + 1)) x x := by
    have helements := hx.elements
    cases x with
    | list items => exact .list (hrefl _)
    | tuple items => exact .tuple (hrefl _)
    | str text => exact .str text _ _
    | bytes bs => exact .bytes bs
    | _ => cases helements
  have hequal : Heap.equal v w s.heap = .ok true := by
    rw [Heap.equal, Heap.bind_of_ok (Heap.depth_eq_ok.2 rfl), Heap.equalWithin_succ hv.2 hw.2, hn]
    split
    · rfl
    · exact Heap.sameContent_eq_true.2 hsame
  have hcomparable : Heap.comparable x x = true := by
    rw [Heap.comparable, beq_self_eq_true, Bool.or_true]
  rw [Heap.compares, Heap.bind_of_ok (Heap.get_eq_ok.2 hv.2),
    Heap.bind_of_ok (Heap.get_eq_ok.2 hw.2), if_pos hcomparable, Heap.bind_of_ok hequal]
  rfl

theorem mul_refused_iff (i : s.Steady) (hv : s.heap.Has v x) (hx : x.elements? = some es)
    (hw : s.heap.Has w y) (hy : y.asInt? = some k) :
    (∃ e s', binary .mul v w s = .error e s') ↔ Oversized es k.toInt := by
  constructor
  · rintro ⟨e, s', he⟩
    by_contra h
    obtain ⟨z, ⟨p, s₁, hp, -⟩, -⟩ := arranges_mul i hv hx hw hy h
    cases he.symm.trans hp
  · exact fun h => ⟨_, _, binary_mul_refused hv hx hw hy h⟩

/-- If there is a product with a sum of counts, there are the products with the counts, and their
sum equals it. -/
theorem mul_add (i : s.Steady) (hv : s.heap.Has v x) (hx : x.elements? = some es)
    {a b c p : Handle} {ya yb yc : Object} {m n : Int64} (ha : s.heap.Has a ya)
    (hb : s.heap.Has b yb) (hc : s.heap.Has c yc) (hm : ya.asInt? = some m)
    (hn : yb.asInt? = some n) (hk : yc.asInt? = some k) (hm₀ : 0 ≤ m.toInt) (hn₀ : 0 ≤ n.toInt)
    (hsum : k.toInt = m.toInt + n.toInt) {s₁ : Space} (hp : binary .mul v c s = .ok p s₁) :
    ∃ p₁ s₂ p₂ s₃ q s₄, binary .mul v a s₁ = .ok p₁ s₂ ∧ binary .mul v b s₂ = .ok p₂ s₃ ∧
      binary .add p₁ p₂ s₃ = .ok q s₄ ∧ Heap.compares .eq p q s₄.heap = .ok true := by
  have hsize : ¬ Oversized es k.toInt := by
    rw [← mul_refused_iff i hv hx hc hk, hp]
    rintro ⟨e, s', he⟩
    cases he
  obtain ⟨z, ⟨p', s₁', hp', -, f, hz⟩, hzs⟩ := arranges_mul i hv hx hc hk hsize
  obtain ⟨rfl, rfl⟩ := EStateM.Result.ok.inj (hp'.symm.trans hp)
  obtain ⟨z₁, ⟨p₁, s₂, hp₁, -, f₁, hz₁⟩, hzs₁⟩ := arranges_mul f.steady (f.keep hv) hx (f.keep ha)
    hm fun h => hsize (h.mono (by omega))
  obtain ⟨z₂, ⟨p₂, s₃, hp₂, -, f₂, hz₂⟩, hzs₂⟩ := arranges_mul f₁.steady (f₁.keep (f.keep hv)) hx
    (f₁.keep (f.keep hb)) hn fun h => hsize (h.mono (by omega))
  obtain ⟨z₃, ⟨q, s₄, hq, -, f₃, hz₃⟩, hzs₃⟩ := arranges_add f₂.steady (f₂.keep hz₁) hzs₁.elements
    hz₂ hzs₂.elements (hzs₂.kind.trans hzs₁.kind.symm)
  rw [← copies_add hm₀ hn₀, ← hsum] at hzs₃
  refine ⟨p₁, s₂, p₂, s₃, q, s₄, hp₁, hp₂, hq, ?_⟩
  refine compares_rearranged (f₃.keep (f₂.keep (f₁.keep hz))) hzs hz₃ ?_
  exact ⟨hzs₃.kind.trans hzs₁.kind, hzs₃.elements, hzs₃.plain⟩

end Space

open Space

variable {settings : Settings} {disk : Disk} {s : Space} {v : Handle} {x : Object}

/-- **Joining and repeating.** A sum of two sequences of one type has the elements of the first and
then those of the second. A product with a count is the same on both sides, and it is refused
exactly if it takes too many bytes, as an overflow if its units do not fit in a word; otherwise it
has the elements as often as the count says. A product with a sum of counts that are not negative
equals the sum of the products. -/
theorem sequences_repeat (r : LiveRun settings disk s) (hv : s.heap.Has v x)
    (hx : x.elements? = some es) :
    (∀ w y fs, s.heap.Has w y → y.elements? = some fs → y.kind? = x.kind? →
      s.Arranges (binary .add v w) x (es ++ fs)) ∧
    (∀ w y k, s.heap.Has w y → y.asInt? = some k →
      binary .mul w v s = binary .mul v w s ∧
      ((∃ e s', binary .mul v w s = .error e s') ↔ Oversized es k.toInt) ∧
      (¬ Oversized es k.toInt → s.Arranges (binary .mul v w) x (copies es k.toInt)) ∧
      (Oversized es k.toInt → binary .mul v w s = .error (.fatal (refusal es k.toInt)) s)) ∧
    ∀ a b c ya yb yc m n k, s.heap.Has a ya → s.heap.Has b yb → s.heap.Has c yc →
      ya.asInt? = some m → yb.asInt? = some n → yc.asInt? = some k → 0 ≤ m.toInt → 0 ≤ n.toInt →
      k.toInt = m.toInt + n.toInt → ∀ p s₁, binary .mul v c s = .ok p s₁ →
        ∃ p₁ s₂ p₂ s₃ q s₄, binary .mul v a s₁ = .ok p₁ s₂ ∧ binary .mul v b s₂ = .ok p₂ s₃ ∧
          binary .add p₁ p₂ s₃ = .ok q s₄ ∧ Heap.compares .eq p q s₄.heap = .ok true := by
  have i := steady_of_liveRun r
  refine ⟨fun w y fs hw hy hk => arranges_add i hv hx hw hy hk, fun w y k hw hk =>
    ⟨binary_mul_comm hv hx hw hk, mul_refused_iff i hv hx hw hk,
      arranges_mul i hv hx hw hk, binary_mul_refused hv hx hw hk⟩, ?_⟩
  intro a b c ya yb yc m n k ha hb hc hm hn hk hm₀ hn₀ hsum p s₁ hp
  exact mul_add i hv hx ha hb hc hm hn hk hm₀ hn₀ hsum hp

/-- A text of three bytes: two copies of it, and too many of them in both ways. -/
theorem sequences_repeat_text :
    ∃ s v two many most, LiveRun {} {} s ∧ IsText s.heap v "aé" ∧ s.heap.Has two (.int 2) ∧
      s.heap.Has many (.int 1099511627776) ∧ s.heap.Has most (.int Int64.maxValue) ∧
      (∃ p s', binary .mul two v s = .ok p s' ∧ IsText s'.heap p "aéaé") ∧
      binary .mul v many s =
        .error (.fatal (.invalidValue "repeated sequence is too large")) s ∧
      binary .mul v most s = .error (.fatal (.integerOverflow "mul")) s := by
  obtain ⟨s₀, h₀⟩ := create_ok {} rfl {}
  obtain ⟨v, s₁, r₁, f₁, hv⟩ := (LiveRun.start h₀).newStr "aé"
  obtain ⟨two, s₂, r₂, f₂, htwo⟩ := r₁.newInt 2
  obtain ⟨many, s₃, r₃, f₃, hmany⟩ := r₂.newInt 1099511627776
  obtain ⟨most, s, r, f, hmost⟩ := r₃.newInt Int64.maxValue
  have htwo := f.keep (f₃.keep htwo)
  have hmany := f.keep hmany
  obtain ⟨hash?, hv⟩ := f.isText (f₃.isText (f₂.isText hv))
  have hes : (Object.str "aé" hash?).elements? = some [.char 'a', .char 'é'] := by
    rw [Object.elements?, show "aé".toList = ['a', 'é'] by decide]
    rfl
  obtain ⟨-, hmul, -⟩ := sequences_repeat r hv hes
  have hstorage : storage [.char 'a', .char 'é'] = 3 := by decide
  have hextent : extent [.char 'a', .char 'é'] = 3 := by decide
  obtain ⟨hcomm, -, hmake, -⟩ := hmul two _ 2 htwo rfl
  obtain ⟨-, -, -, hlarge⟩ := hmul many _ 1099511627776 hmany rfl
  obtain ⟨-, -, -, hoverflow⟩ := hmul most _ Int64.maxValue hmost rfl
  refine ⟨s, v, two, many, most, r, ⟨hash?, hv⟩, htwo, hmany, hmost, ?_, ?_, ?_⟩
  · obtain ⟨o', ⟨p, s', hp, -, -, ho'⟩, hcopies⟩ := hmake (by rw [Oversized, hstorage]; decide)
    refine ⟨p, s', hcomm.trans hp, none, ?_⟩
    -- the type and the elements determine the result
    have helements : (Object.str "aéaé" none).elements? =
        some (copies [.char 'a', .char 'é'] (2 : Int64).toInt) := by
      rw [Object.elements?, show "aéaé".toList = ['a', 'é', 'a', 'é'] by decide]
      rfl
    obtain rfl : o' = .str "aéaé" none :=
      hcopies.unique ⟨rfl, helements, fun _ _ h => by cases (Object.str.inj h).2⟩
    exact ho'
  · rw [hlarge (by rw [Oversized, hstorage]; decide), refusal, hextent, if_neg (by decide)]
  · rw [hoverflow (by rw [Oversized, hstorage]; decide), refusal, hextent, if_pos (by decide)]

end ObjectSpace
