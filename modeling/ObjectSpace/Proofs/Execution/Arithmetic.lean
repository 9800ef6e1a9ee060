import ObjectSpace.Proofs.Execution.Operations
import ObjectSpace.Proofs.Execution.Values
import ObjectSpace.Proofs.Number.Exact

/-!
# Operators on integers

**Theorem (`integers_exact`).** In every space of a run on live handles, an operator on integers and
Booleans, which count as 0 and 1, gives what it gives over the integers: as a new integer, or as one
of the two Booleans for `&`, `|` and `^` of Booleans. If no word can hold the result the operator
fails with an overflow in its name, and if the second operand is not admissible it is refused. It
ends in no other way, and where it fails the space stays as it was.
-/

namespace ObjectSpace

open Integer (IsWord)

/-- The operators that have a Boolean result for two Booleans. -/
def BinaryOp.IsLogical (op : BinaryOp) : Prop := op = and ∨ op = or ∨ op = xor

/-- An action gives a new integer `m`, or fails with an overflow in `operation` if no word can
hold `m`. -/
def Space.Computes (s : Space) (act : Action Handle) (operation : String) (m : ℤ) : Prop :=
  (IsWord m → ∃ n : Int64, n.toInt = m ∧ s.Makes act (.int n)) ∧
  (¬ IsWord m → act s = .error (.fatal (.integerOverflow operation)) s)

namespace Space

variable {s : Space} {v w : Handle} {x y : Object} {a b n : Int64} {bothBool : Bool} {m : ℤ}
  {op : BinaryOp} {f : ℤ → ℤ → ℤ} {d : Diagnostic} {act : Action Handle} {operation : String}
  {p q : Bool}

theorem binary_integers (hv : s.heap.Has v x) (hw : s.heap.Has w y) (ha : x.asInt? = some a)
    (hb : y.asInt? = some b) (op : BinaryOp) :
    binary op v w s = integerBinary op v w a b (isBool x && isBool y) s := by
  rw [binary, get_bind_of_has hv, get_bind_of_has hw, ha, hb]

theorem integerBinary_eq {r : Except Diagnostic Int64} (h : Integer.binary? op a b = some r) :
    integerBinary op v w a b bothBool s = ((liftM r : Action Int64) >>= fun n =>
      if bothBool && (op = .and || op = .or || op = .xor) then boolean (n ≠ 0)
      else newInt n) s := by
  rw [integerBinary, h]

theorem computes_of_checked (i : s.Steady)
    (h : act s = ((liftM (Integer.checked operation m) : Action Int64) >>= newInt) s) :
    s.Computes act operation m := by
  refine ⟨fun hm => ?_, fun hm => ?_⟩
  · rw [check_bind_of_ok (Integer.checked_of_isWord operation hm)] at h
    exact ⟨_, Integer.toInt_ofInt hm, (makes_newInt i _).of_eq h⟩
  · rw [h, check_bind_of_error (Integer.checked_of_not_isWord operation hm)]

/-- A second operand that is not admissible is refused. -/
theorem binary_refused (hv : s.heap.Has v x) (hw : s.heap.Has w y) (ha : x.asInt? = some a)
    (hb : y.asInt? = some b) (hr : op.refusal? b.toInt = some d) :
    binary op v w s = .error (.fatal d) s := by
  rw [binary_integers hv hw ha hb, integerBinary_eq (Integer.binary?_refused hr),
    check_bind_of_error rfl]

/-- With an admissible second operand, and unless both are Booleans, the result is computed. -/
theorem computes_binary (i : s.Steady) (hv : s.heap.Has v x) (hw : s.heap.Has w y)
    (ha : x.asInt? = some a) (hb : y.asInt? = some b) (hf : op.exact? = some f)
    (hr : op.refusal? b.toInt = none)
    (hbits : ¬ (op.IsLogical ∧ isBool x = true ∧ isBool y = true)) :
    s.Computes (binary op v w) op.name (f a.toInt b.toInt) := by
  have hnew : ((isBool x && isBool y) && (op = .and || op = .or || op = .xor)) = false := by
    rw [← Bool.not_eq_true]
    simpa [BinaryOp.IsLogical, and_comm, or_assoc] using hbits
  refine computes_of_checked i ?_
  rw [binary_integers hv hw ha hb, integerBinary_eq (Integer.binary?_admitted hf hr), hnew]
  rfl

theorem computes_unary (i : s.Steady) (hv : s.heap.Has v x) (ha : x.asInt? = some a)
    {uop : UnaryOp} {g : ℤ → ℤ} (hg : uop.exact? = some g) :
    s.Computes (unary uop v) uop.name (g a.toInt) := by
  have hint : Heap.asInt? v s.heap = .ok (some a) := (Heap.asInt?_eq hv).trans (congrArg _ ha)
  refine computes_of_checked i ?_
  cases uop <;> cases hg <;> refine (ask_bind_of_ok hint).trans ?_
  case neg.refl => rfl
  case pos.refl =>
    have hok : Integer.checked UnaryOp.pos.name a.toInt = .ok a := Integer.checked_toInt _ a
    exact (check_bind_of_ok (f := newInt) hok).symm
  case invert.refl =>
    have hok : Integer.checked UnaryOp.invert.name (Int.lnot a.toInt) = .ok (~~~a) :=
      Integer.checked_eq_ok.2 (Integer.toInt_not a)
    exact (check_bind_of_ok (f := newInt) hok).symm

/-! ## Booleans -/

theorem eq_bool_of_isBool (h : isBool x = true) : ∃ p, x = .bool p := by
  cases x <;> first | exact ⟨_, rfl⟩ | cases h

theorem exact_bits (hop : op.IsLogical) (hf : op.exact? = some f) (p q : Bool) :
    ∃ c : Bool, f (if p then 1 else 0) (if q then 1 else 0) = if c then 1 else 0 := by
  rcases hop with rfl | rfl | rfl <;> cases hf
  · exact ⟨p && q, by cases p <;> cases q <;> rfl⟩
  · exact ⟨p || q, by cases p <;> cases q <;> rfl⟩
  · exact ⟨p ^^ q, by cases p <;> cases q <;> rfl⟩

theorem toInt_bit (p : Bool) : (if p then 1 else 0 : Int64).toInt = if p then 1 else 0 := by
  cases p <;> rfl

theorem binary_bools (hv : s.heap.Has v (.bool p)) (hw : s.heap.Has w (.bool q))
    (hop : op.IsLogical) (hf : op.exact? = some f) :
    ∃ c : Bool, (if c then 1 else 0 : ℤ) = f (if p then 1 else 0) (if q then 1 else 0) ∧
      binary op v w s = .ok (s.truth c) s := by
  obtain ⟨c, hc⟩ := exact_bits hop hf p q
  have hbin : Integer.binary? op (if p then 1 else 0) (if q then 1 else 0) =
      some (.ok (if c then 1 else 0)) := by
    have hr : op.refusal? (if q then 1 else 0 : Int64).toInt = none := by
      rcases hop with rfl | rfl | rfl <;> rfl
    rw [Integer.binary?_admitted hf hr, toInt_bit, toInt_bit, hc, ← toInt_bit,
      Integer.checked_toInt]
  have hbool : decide ((if c then 1 else 0 : Int64) ≠ 0) = c := by cases c <;> rfl
  refine ⟨c, hc.symm, ?_⟩
  rw [binary_integers hv hw rfl rfl, integerBinary_eq hbin, check_bind_of_ok rfl, hbool, if_pos]
  · rfl
  · simpa [isBool, BinaryOp.IsLogical, or_assoc] using hop

end Space

open Space

variable {settings : Settings} {disk : Disk} {s : Space} {v w : Handle} {x y : Object} {a b : Int64}

/-- **Operators on integers.** For integers and Booleans, which count as 0 and 1, the operators give
what they give over the integers: one of the Booleans for `&`, `|` and `^` of Booleans, and
otherwise a new integer, or an overflow if no word can hold it. A second operand that is not
admissible is refused. -/
theorem integers_exact (r : LiveRun settings disk s) (hv : s.heap.Has v x) (hw : s.heap.Has w y)
    (ha : x.asInt? = some a) (hb : y.asInt? = some b) :
    (∀ op f, BinaryOp.exact? op = some f →
      (∀ d, op.refusal? b.toInt = some d → binary op v w s = .error (.fatal d) s) ∧
      (op.refusal? b.toInt = none → ¬ (op.IsLogical ∧ isBool x = true ∧ isBool y = true) →
        s.Computes (binary op v w) op.name (f a.toInt b.toInt)) ∧
      (op.IsLogical → isBool x = true → isBool y = true → ∃ c : Bool,
        (if c then 1 else 0) = f a.toInt b.toInt ∧ binary op v w s = .ok (s.truth c) s ∧
          s.heap.Has (s.truth c) (.bool c))) ∧
    ∀ op f, UnaryOp.exact? op = some f → s.Computes (unary op v) op.name (f a.toInt) := by
  have i := steady_of_liveRun r
  refine ⟨fun op f hf => ⟨fun d hr => binary_refused hv hw ha hb hr,
    fun hr => computes_binary i hv hw ha hb hf hr, fun hop hx hy => ?_⟩,
    fun op f hf => computes_unary i hv ha hf⟩
  obtain ⟨p, rfl⟩ := eq_bool_of_isBool hx
  obtain ⟨q, rfl⟩ := eq_bool_of_isBool hy
  cases ha
  cases hb
  obtain ⟨c, hc, hbin⟩ := binary_bools hv hw hop hf
  rw [toInt_bit, toInt_bit]
  exact ⟨c, hc, hbin, r.truth c⟩

/-- The least integer by minus one: there is no quotient in a word, and nothing is left over. -/
theorem integers_exact_least :
    ∃ s v w, LiveRun {} {} s ∧ s.heap.Has v (.int Int64.minValue) ∧ s.heap.Has w (.int (-1)) ∧
      binary .floorDiv v w s = .error (.fatal (.integerOverflow "floordiv")) s ∧
      s.Makes (binary .mod v w) (.int 0) := by
  obtain ⟨s₀, h₀⟩ := create_ok {} rfl {}
  obtain ⟨v, s₁, r₁, f₁, hv⟩ := (LiveRun.start h₀).newInt Int64.minValue
  obtain ⟨w, s, r, f, hw⟩ := r₁.newInt (-1)
  obtain ⟨hbin, -⟩ := integers_exact r (f.keep hv) hw rfl rfl
  have hmin : Int64.minValue.toInt = -2 ^ 63 := by decide
  have hone : (-1 : Int64).toInt = -1 := by decide
  have hfloor : ⌊(((-2 ^ 63 : ℤ) : ℚ) / ((-1 : ℤ) : ℚ))⌋ = 2 ^ 63 := by norm_num
  refine ⟨s, v, w, r, f.keep hv, hw, ((hbin .floorDiv _ rfl).2.1 ?_ ?_).2 ?_, ?_⟩
  · rw [hone]
    rfl
  · rintro ⟨h | h | h, -⟩ <;> cases h
  · rw [hmin, hone, hfloor]
    unfold IsWord
    omega
  · obtain ⟨n, hn, hm⟩ := ((hbin .mod _ rfl).2.1 (by rw [hone]; rfl)
      (by rintro ⟨h | h | h, -⟩ <;> cases h)).1 (by rw [hmin, hone, hfloor]; unfold IsWord; omega)
    rw [hmin, hone, hfloor] at hn
    obtain rfl : n = 0 := Int64.toInt_inj.1 (hn.trans (by decide))
    exact hm

end ObjectSpace
