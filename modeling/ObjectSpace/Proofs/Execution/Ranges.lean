import ObjectSpace.Proofs.Execution.Iterating
import ObjectSpace.Proofs.Execution.Values
import ObjectSpace.Proofs.Number.Progressions

/-!
# Ranges

**Theorem (`ranges_agree`).** In every space of a run on live handles, a range is the list of
integers that it stands for: that list has its length, the terms at its places, the integers that
it contains, and what iterating forwards and backwards gives; and ranges are equal when their lists
are.

A cursor adds its step modulo the number of words, and so does the negation of the step of a
reversed range. Words modulo that number are what integers become as words (`Int64.ofInt`), which
commutes with both. So the cursor stands at the word of an integer that is computed exactly, and
where a term is due that integer is one (`yields_range`).
-/

namespace ObjectSpace

open Integer (IsWord)

/-- A handle names the integer `n`. -/
def Heap.IsInteger (heap : Heap) (v : Handle) (n : ℤ) : Prop :=
  ∃ w : Int64, w.toInt = n ∧ heap.Has v (.int w)

namespace Space

/-- Advancing an iterator gives the integers of a list one after the other, and then nothing. -/
def Yields (it : Handle) : List ℤ → Space → Prop
  | [], s => ∃ s', next it s = .ok none s' ∧ Frame [it] s s'
  | n :: l, s => ∃ v s', next it s = .ok (some v) s' ∧ Frame [it] s s' ∧ s'.heap.IsInteger v n ∧
    Yields it l s'

/-- An action makes an iterator that gives the integers of a list, also when all of it is
collected. -/
def Drains (s : Space) (act : Action Handle) (l : List ℤ) : Prop :=
  ∃ it s₁, act s = .ok it s₁ ∧ s.heap.get? it = none ∧ Frame [] s s₁ ∧ Yields it l s₁ ∧
    ∃ items s₂, collect it s₁ = .ok items s₂ ∧ Frame [it] s₁ s₂ ∧
      List.Forall₂ s₂.heap.IsInteger items.toList l

variable {s : Space} {v w it key : Handle} {p q : Progression} {o : Object} {i : Int64}
  {a d n : ℤ} {l : List ℤ} {j m : ℕ} {touched : List Handle}

theorem Frame.isInteger {s' : Space} (f : Frame touched s s') (h : s.heap.IsInteger v n) :
    s'.heap.IsInteger v n := by
  obtain ⟨w, hw, hv⟩ := h
  exact ⟨w, hw, f.fixed hv fun _ h => h⟩

/-! ## Iterating -/

/-- A cursor at the word of an integer gives the integers that follow by its step, as long as they
are words. -/
theorem yields_range (i : s.Steady)
    (hit : s.heap.Has it (.iter (.range (Int64.ofInt a) (Int64.ofInt d) m)))
    (hword : ∀ j < m, IsWord (a + d * (j : ℕ))) :
    Yields it ((List.range m).map fun j : ℕ => a + d * j) s := by
  induction m generalizing s a with
  | zero => exact next_no_term i hit
  | succ m ih =>
    obtain ⟨v, s', hs', f, hv, hit'⟩ := next_term i hit
    rw [← Int64.ofInt_add] at hit'
    have hnext : ∀ j : ℕ, a + d * ((j + 1 : ℕ) : ℤ) = a + d + d * j := by
      intro j
      push_cast
      ring
    have hrest := ih f.steady hit' fun j hj => hnext j ▸ hword (j + 1) (by omega)
    have hfirst : IsWord a := by simpa using hword 0 (Nat.zero_lt_succ m)
    rw [List.range_succ_eq_map, List.map_cons, List.map_map]
    refine ⟨v, s', hs', f, ⟨_, ?_, hv⟩, ?_⟩
    · simp [Integer.toInt_ofInt hfirst]
    · simpa only [Function.comp_def, Nat.succ_eq_add_one, hnext] using hrest

/-- Draining an iterator adds what it yields. -/
theorem drain_of_yields (h : Yields it l s) (done : Array Handle) :
    ∃ items s', drain it done (l.length + 1) s = .ok (done ++ items) s' ∧ Frame [it] s s' ∧
      List.Forall₂ s'.heap.IsInteger items.toList l := by
  obtain ⟨items, s', hs', f, hitems⟩ := drain_of_left (R := Heap.IsInteger)
    (L := Yields it) (fun f => f.isInteger) (fun _ h => h) (fun _ _ _ h => h) h done
  exact ⟨items, s', hs' _ (Nat.lt_succ_self _), f, hitems⟩

/-- Collecting from a cursor over a range gives all that it yields. -/
theorem collect_of_yields {k e : Int64} (hit : s.heap.Has it (.iter (.range k e l.length)))
    (h : Yields it l s) :
    ∃ items s', collect it s = .ok items s' ∧ Frame [it] s s' ∧
      List.Forall₂ s'.heap.IsInteger items.toList l := by
  obtain ⟨items, s', hs', f, hitems⟩ := drain_of_yields h #[]
  refine ⟨items, s', ?_, f, hitems⟩
  rw [collect_iterator hit.2, ask_bind_of_ok (Heap.depth_eq_ok.2 rfl),
    ask_bind_of_ok (stepsWithin_range hit), hs', Array.empty_append]

/-- A new cursor at the word of an integer is drained of the integers that follow. -/
theorem drains_of_makes {act : Action Handle}
    (hm : s.Makes act (.iter (.range (Int64.ofInt a) (Int64.ofInt d) m)))
    (hword : ∀ j < m, IsWord (a + d * (j : ℕ))) :
    s.Drains act ((List.range m).map fun j : ℕ => a + d * j) := by
  obtain ⟨it, s₁, hs₁, hnew, f₁, hit⟩ := hm
  have hy := yields_range f₁.steady hit hword
  have hlen : ((List.range m).map fun j : ℕ => a + d * j).length = m := by simp
  exact ⟨it, s₁, hs₁, hnew, f₁, hy, collect_of_yields (hlen.symm ▸ hit) hy⟩

theorem makes_cursor (i : s.Steady) (k e : Int64) (m : ℕ) :
    s.Makes (alloc (.iter (.range k e m))) (.iter (.range k e m)) :=
  makes_alloc i (.inl (List.forall_mem_nil _)) nofun nofun

theorem drains_iter (i : s.Steady) (hv : s.heap.Has v (.range p)) :
    s.Drains (iter v) p.integers := by
  have hm : s.Makes (iter v) (.iter (.range p.start p.step p.length)) :=
    (makes_cursor i _ _ _).of_eq (by
      rw [iter, get_bind_of_has hv]
      rfl)
  rw [← Int64.ofInt_toInt p.start, ← Int64.ofInt_toInt p.step] at hm
  rw [p.integers_eq_map]
  exact drains_of_makes hm fun j hj => Progression.isWord_term hj

theorem drains_reversed (i : s.Steady) (hv : s.heap.Has v (.range p)) :
    s.Drains (reversed v) p.integers.reverse := by
  have hm : s.Makes (reversed v) (.iter (.range
      (if p.length = 0 then p.start else p.nth (p.length - 1)) (-p.step) p.length)) :=
    (makes_cursor i _ _ _).of_eq (by
      rw [reversed, get_bind_of_has hv]
      rfl)
  rw [← Int64.ofInt_toInt p.step, ← Int64.ofInt_neg] at hm
  rw [p.reverse_integers]
  by_cases hzero : p.length = 0
  · rw [if_pos hzero, ← Int64.ofInt_toInt p.start, hzero] at hm
    have hd := drains_of_makes hm fun j hj => absurd hj (Nat.not_lt_zero j)
    rw [hzero, List.range_zero, List.map_nil]
    exact hd
  · rw [if_neg hzero] at hm
    exact drains_of_makes hm fun j hj => p.term_back hj ▸ Progression.isWord_term (by omega)

/-! ## Terms -/

/-- An index from the start, or from the end, names its place. -/
theorem normalizeIndex_of_place {length : ℕ} (hj : j < length)
    (hi : i.toInt = j ∨ i.toInt = j - length) (type : String) :
    normalizeIndex i length type = .ok j := by
  have hplace : (if i < 0 then i.toInt + length else i.toInt) = j := by
    simp only [← Integer.toInt_neg_iff]
    split <;> omega
  rw [normalizeIndex]
  simp only [hplace]
  rw [if_pos (by omega), Int.toNat_natCast]

theorem makes_getItem (h : s.Steady) (hv : s.heap.Has v (.range p)) (hk : s.heap.Has key o)
    (ho : o.asInt? = some i) (hn : p.integers[j]? = some n)
    (hi : i.toInt = j ∨ i.toInt = j - p.integers.length) :
    ∃ w : Int64, w.toInt = n ∧ s.Makes (getItem v key) (.int w) := by
  have hj : j < p.length := p.length_eq ▸ (List.getElem?_eq_some_iff.1 hn).1
  refine ⟨p.nth j, Progression.toInt_nth hn, (makes_newInt h _).of_eq ?_⟩
  rw [getItem, get_bind_of_has hv]
  dsimp only
  simp only [bind_assoc]
  rw [ask_bind_of_ok (indexArgument_eq hk ho v "getitem"),
    check_bind_of_ok (normalizeIndex_of_place hj (p.length_eq ▸ hi) _)]

/-- A range contains what is one of its numbers. -/
theorem contains_any (hv : s.heap.Has v (.range p)) (hw : s.heap.Has w o) :
    Heap.contains v w s.heap = .ok (o.asInt?.any p.contains) := by
  rw [Heap.contains, Heap.bind_of_ok (Heap.get_eq_ok.2 hv.2)]
  dsimp only
  rw [Heap.bind_of_ok (Heap.asInt?_eq hw)]
  rfl

theorem contains_range (hv : s.heap.Has v (.range p)) (hw : s.heap.Has w o)
    (ho : o.asInt? = some i) : Heap.contains v w s.heap = .ok (p.contains i) := by
  rw [contains_any hv hw, ho, Option.any_some]

theorem equal_ranges (hv : s.heap.Has v (.range p)) (hw : s.heap.Has w (.range q)) :
    Heap.equal v w s.heap = .ok (p.sameTerms q) := by
  refine Heap.equal_of_sameContent hv.2 hw.2 (fun _ => rfl) ?_
  rintro rfl
  obtain rfl := Object.range.inj (hv.unique hw)
  exact Progression.sameTerms_iff.2 rfl

end Space

open Space

variable {settings : Settings} {disk : Disk} {s : Space} {v : Handle} {p : Progression}

/-- **Ranges.** One list of integers describes a range: its length, which is less than the number of
words, the terms at its places, the integers in it, what it is drained of forwards and backwards,
its items from the start and from the end, and its equality with other ranges. -/
theorem ranges_agree (r : LiveRun settings disk s) (hv : s.heap.Has v (.range p)) :
    (p.length = p.integers.length ∧ p.length < 2 ^ 64 ∧
      Heap.length v s.heap = .ok p.integers.length) ∧
    (∀ j n, p.integers[j]? = some n → (p.nth j).toInt = n) ∧
    (∀ n : Int64, p.contains n = true ↔ n.toInt ∈ p.integers) ∧
    (∀ w o n, s.heap.Has w o → o.asInt? = some n →
      ∃ b, Heap.contains v w s.heap = .ok b ∧ (b = true ↔ n.toInt ∈ p.integers)) ∧
    s.Drains (iter v) p.integers ∧ s.Drains (reversed v) p.integers.reverse ∧
    (∀ key o i, s.heap.Has key o → o.asInt? = some i → ∀ (j : ℕ) n, p.integers[j]? = some n →
      i.toInt = j ∨ i.toInt = j - p.integers.length →
        ∃ w : Int64, w.toInt = n ∧ s.Makes (getItem v key) (.int w)) ∧
    ∀ w q, s.heap.Has w (.range q) →
      ∃ b, Heap.equal v w s.heap = .ok b ∧ (b = true ↔ p.integers = q.integers) := by
  have i := steady_of_liveRun r
  refine ⟨⟨p.length_eq, p.length_lt, ?_⟩, fun j n => Progression.toInt_nth,
    fun n => Progression.contains_iff,
    fun w o n hw ho => ⟨_, contains_range hv hw ho, Progression.contains_iff⟩, drains_iter i hv,
    drains_reversed i hv, fun key o n hk ho j m hm hn => makes_getItem i hv hk ho hm hn,
    fun w q hw => ⟨_, equal_ranges hv hw, Progression.sameTerms_iff⟩⟩
  rw [← p.length_eq]
  exact Heap.bind_of_ok (Heap.get_eq_ok.2 hv.2)

/-- A range by the least step: from the greatest word it takes one step, to minus one, and backwards
it gives the greatest word last, although the step has no negative. -/
theorem ranges_agree_least :
    ∃ s v, LiveRun {} {} s ∧
      s.heap.Has v (.range ⟨Int64.maxValue, Int64.minValue, Int64.minValue, by decide⟩) ∧
      s.Drains (iter v) [2 ^ 63 - 1, -1] ∧ s.Drains (reversed v) [-1, 2 ^ 63 - 1] := by
  obtain ⟨s₀, h₀⟩ := create_ok {} rfl {}
  let p : Progression := ⟨Int64.maxValue, Int64.minValue, Int64.minValue, by decide⟩
  obtain ⟨v, s, r, -, hv⟩ := (LiveRun.start h₀).making (.newRange p.start p.stop p.step) rfl nofun
    (makes_newRange (steady_of_liveRun (LiveRun.start h₀)) p)
  obtain ⟨-, -, -, -, hiter, hreversed, -⟩ := ranges_agree r hv
  have hp : p.integers = [2 ^ 63 - 1, -1] := by
    rw [p.integers_eq_map]
    decide
  rw [hp] at hiter hreversed
  exact ⟨s, v, r, hv, hiter, hreversed⟩

end ObjectSpace
