import ObjectSpace.Text.Numeral
import ObjectSpace.Proofs.Number.Exact
import ObjectSpace.Proofs.Text.Literals
import Mathlib.Data.Nat.Digits.Defs
import Mathlib.Data.List.TakeWhile
import Mathlib.Tactic.Ring

/-!
# The numerals of a base

What a text has to be in order to denote an integer (`Denotes`): blanks, at most one sign, for the
bases 16, 8 and 2 possibly their mark, digits of the base with single underscores between them, and
blanks.

**Theorem (`parse_of_denotes`, `denotes_of_parse`).** Reading gives exactly the integers that texts
denote and that words can hold; a text that denotes an integer no word can hold is an overflow.

The grammar may leave the mark out and the code drops it wherever it finds one, but the letter of a
mark is no digit of its base, so a text has one reading only. Reading stops at the first prefix of
the digits beyond 64 bits. The number only grows from there on (`le_accumulate`), so that the whole
magnitude is beyond 64 bits as well and no word can hold it, whatever the sign.

**Printed numbers** (`denotes_decimal`, `denotes_hexadecimal`) denote the number that was printed.
-/

namespace ObjectSpace.Numeral

/-! ## The grammar -/

/-- The digits that there are, in the order of their values. -/
def alphabet : List Char := "0123456789abcdefghijklmnopqrstuvwxyz".toList

/-- The character is the digit of the base with the value `d`, in either letter case. -/
def IsDigit (base : ℕ) (c : Char) (d : ℕ) : Prop :=
  d < base ∧ ∃ a, alphabet[d]? = some a ∧ (c = a ∨ c = a.toUpper)

/-- Digits of a base and their values; single underscores may stand between two digits. -/
inductive Digits (base : ℕ) : List Char → List ℕ → Prop
  | last {c d} : IsDigit base c d → Digits base [c] [d]
  | next {c d cs ds} : IsDigit base c d → Digits base cs ds → Digits base (c :: cs) (d :: ds)
  | apart {c d cs ds} :
      IsDigit base c d → Digits base cs ds → Digits base (c :: '_' :: cs) (d :: ds)

/-- The signs, which may be missing, and the factors that they stand for. -/
def signs : List (List Char × ℤ) := [([], 1), (['+'], 1), (['-'], -1)]

/-- The marks of a base, which may be missing. -/
def marks : ℕ → List (List Char)
  | 16 => [[], ['0', 'x'], ['0', 'X']]
  | 8 => [[], ['0', 'o'], ['0', 'O']]
  | 2 => [[], ['0', 'b'], ['0', 'B']]
  | _ => [[]]

/-- The characters are a sign, a mark of the base and digits, which together stand for an
integer. -/
inductive Spells (base : ℕ) : List Char → ℤ → Prop
  | intro {sign : List Char} {factor : ℤ} {mark digits : List Char} {ds : List ℕ} :
      (sign, factor) ∈ signs → mark ∈ marks base → Digits base digits ds →
      Spells base (sign ++ mark ++ digits) (factor * Nat.ofDigits base ds.reverse)

/-- The text denotes the integer in the base: blanks may stand around what spells it. -/
def Denotes (base : ℕ) (text : String) (n : ℤ) : Prop :=
  ∃ before core after, text.toList = before ++ core ++ after ∧
    (∀ c ∈ before, Text.isBlank c = true) ∧ (∀ c ∈ after, Text.isBlank c = true) ∧
    Spells base core n

variable {base d n : ℕ} {c : Char} {cs digits : List Char} {ds : List ℕ} {text : String} {k : ℤ}

/-! ## One digit -/

theorem digitValue?_alphabet {a : Char} (ha : alphabet[d]? = some a) :
    digitValue? a = some d ∧ digitValue? a.toUpper = some d := by
  have hall : ∀ d < 36, (alphabet[d]?).all fun a =>
      digitValue? a = some d ∧ digitValue? a.toUpper = some d := by decide
  have h := hall d (List.getElem?_eq_some_iff.1 ha).1
  rwa [ha, Option.all_some, decide_eq_true_eq] at h

theorem alphabet_decimal : ∀ d < 10, alphabet[d]? = some (Char.ofNat (48 + d)) := by decide

theorem alphabet_letter : ∀ d < 26, alphabet[d + 10]? = some (Char.ofNat (97 + d)) ∧
    (Char.ofNat (97 + d)).toUpper = Char.ofNat (65 + d) := by decide

theorem digitValue?_eq_some :
    digitValue? c = some d ↔ ∃ a, alphabet[d]? = some a ∧ (c = a ∨ c = a.toUpper) := by
  constructor
  · intro h
    have hcode : ∀ {first : ℕ}, first ≤ c.toNat → c = Char.ofNat (first + (c.toNat - first)) :=
      fun hle => by rw [Nat.add_sub_cancel' hle, Char.ofNat_toNat]
    unfold digitValue? at h
    simp only [Char.le_def, UInt32.le_iff_toNat_le] at h
    split_ifs at h with h₁ h₂ h₃
    · obtain rfl := Option.some.inj h
      exact ⟨_, alphabet_decimal _ (Nat.sub_lt_left_of_lt_add h₁.1 (Nat.lt_succ_of_le h₁.2)),
        .inl (hcode h₁.1)⟩
    · obtain rfl := Option.some.inj h
      obtain ⟨ha, -⟩ := alphabet_letter _ (Nat.sub_lt_left_of_lt_add h₂.1 (Nat.lt_succ_of_le h₂.2))
      exact ⟨_, ha, .inl (hcode h₂.1)⟩
    · obtain rfl := Option.some.inj h
      obtain ⟨ha, hu⟩ := alphabet_letter _ (Nat.sub_lt_left_of_lt_add h₃.1 (Nat.lt_succ_of_le h₃.2))
      exact ⟨_, ha, .inr ((hcode h₃.1).trans hu.symm)⟩
  · rintro ⟨a, ha, rfl | rfl⟩
    · exact (digitValue?_alphabet ha).1
    · exact (digitValue?_alphabet ha).2

theorem digit?_eq_some : digit? base c = some d ↔ IsDigit base c d := by
  rw [digit?, Option.filter_eq_some_iff, digitValue?_eq_some, decide_eq_true_eq, and_comm, IsDigit]

theorem IsDigit.value (h : IsDigit base c d) : digitValue? c = some d := digitValue?_eq_some.2 h.2

theorem IsDigit.ne {x : Char} (h : IsDigit base c d) (hx : digitValue? x = none) : c ≠ x := by
  rintro rfl
  rw [h.value] at hx
  cases hx

theorem IsDigit.not_blank (h : IsDigit base c d) : Text.isBlank c = false := by
  have hvalue := h.value
  have hrange : 48 ≤ c.toNat ∧ c.toNat ≤ 122 := by
    unfold digitValue? at hvalue
    simp only [Char.le_def, UInt32.le_iff_toNat_le] at hvalue
    split_ifs at hvalue with h₁ h₂ h₃
    · exact ⟨h₁.1, h₁.2.trans (by decide)⟩
    · exact ⟨(by decide : 48 ≤ 97).trans h₂.1, h₂.2⟩
    · exact ⟨(by decide : 48 ≤ 65).trans h₃.1, h₃.2.trans (by decide)⟩
  rw [Text.isBlank, decide_eq_false_iff_not]
  omega

/-! ## Digits -/

theorem Digits.cons (h : Digits base cs ds) : ∃ c d t, cs = c :: t ∧ IsDigit base c d := by
  cases h with
  | last hd => exact ⟨_, _, _, rfl, hd⟩
  | next hd _ => exact ⟨_, _, _, rfl, hd⟩
  | apart hd _ => exact ⟨_, _, _, rfl, hd⟩

theorem Digits.concat (h : Digits base cs ds) : ∃ t c d, cs = t ++ [c] ∧ IsDigit base c d := by
  induction h with
  | last hd => exact ⟨[], _, _, rfl, hd⟩
  | next _ _ ih =>
    obtain ⟨t, c, d, rfl, hd⟩ := ih
    exact ⟨_ :: t, c, d, rfl, hd⟩
  | apart _ _ ih =>
    obtain ⟨t, c, d, rfl, hd⟩ := ih
    exact ⟨_ :: '_' :: t, c, d, rfl, hd⟩

/-- Without the underscores the digits stand for their values, one by one. -/
theorem Digits.values (h : Digits base cs ds) :
    List.Forall₂ (fun c d => digit? base c = some d) (cs.filter (· ≠ '_')) ds := by
  have hfilter : ∀ {c d} t, IsDigit base c d →
      (c :: t).filter (· ≠ '_') = c :: t.filter (· ≠ '_') :=
    fun t hd => List.filter_cons_of_pos (decide_eq_true (hd.ne rfl))
  induction h with
  | last hd =>
    rw [hfilter _ hd]
    exact .cons (digit?_eq_some.2 hd) .nil
  | next hd _ ih =>
    rw [hfilter _ hd]
    exact .cons (digit?_eq_some.2 hd) ih
  | apart hd _ ih =>
    rw [hfilter _ hd, List.filter_cons_of_neg (by decide)]
    exact .cons (digit?_eq_some.2 hd) ih

/-- A character begins no pair of underscores unless it is the first one of two. -/
theorem noDoubleUnderscore_cons (h : ¬ (c = '_' ∧ cs.head? = some '_')) :
    noDoubleUnderscore (c :: cs) = noDoubleUnderscore cs := by
  rw [noDoubleUnderscore]
  rintro t rfl rfl
  exact h ⟨rfl, rfl⟩

theorem Digits.noDoubleUnderscore (h : Digits base cs ds) : noDoubleUnderscore cs = true := by
  induction h with
  | last hd =>
    rw [noDoubleUnderscore_cons fun hc => hd.ne rfl hc.1]
    rfl
  | next hd _ ih => rwa [noDoubleUnderscore_cons fun hc => hd.ne rfl hc.1]
  | apart hd hcs ih =>
    obtain ⟨x, d', t, rfl, hd'⟩ := hcs.cons
    have hx : ¬ ('_' = '_' ∧ (x :: t).head? = some '_') := fun hc =>
      hd'.ne rfl (Option.some.inj hc.2)
    rwa [noDoubleUnderscore_cons fun hc => hd.ne rfl hc.1, noDoubleUnderscore_cons hx]

theorem wellFormed_iff : wellFormed cs = true ↔ cs ≠ [] ∧ cs.head? ≠ some '_' ∧
    cs.getLast? ≠ some '_' ∧ noDoubleUnderscore cs = true ∧ cs.head? ≠ some '+' ∧
    cs.head? ≠ some '-' := decide_eq_true_iff

theorem Digits.wellFormed (h : Digits base cs ds) : wellFormed cs = true := by
  have hno := h.noDoubleUnderscore
  have hlast : cs.getLast? ≠ some '_' := by
    obtain ⟨t, c, d, rfl, hd⟩ := h.concat
    rw [List.getLast?_concat]
    exact fun hc => hd.ne rfl (Option.some.inj hc)
  obtain ⟨c, d, t, rfl, hd⟩ := h.cons
  have hhead : ∀ {x}, digitValue? x = none → (c :: t).head? ≠ some x := fun hx hc =>
    hd.ne hx (Option.some.inj hc)
  exact wellFormed_iff.2 ⟨List.cons_ne_nil _ _, hhead rfl, hlast, hno, hhead rfl, hhead rfl⟩

/-- Characters that are all digits but for the underscores are digits of the base, when no
underscore stands first, last or next to another one. -/
theorem digits_of_underscores : ∀ cs : List Char, cs ≠ [] → cs.head? ≠ some '_' →
    cs.getLast? ≠ some '_' → noDoubleUnderscore cs = true →
    (∀ c ∈ cs, c ≠ '_' → ∃ d, digit? base c = some d) → ∃ ds, Digits base cs ds
  | [], hne, _, _, _, _ => absurd rfl hne
  | [c], _, hhead, _, _, h => by
    obtain ⟨d, hd⟩ := h c List.mem_cons_self fun hc => hhead (congrArg some hc)
    exact ⟨[d], .last (digit?_eq_some.1 hd)⟩
  | c :: x :: cs, _, hhead, hlast, hno, h => by
    have hc : c ≠ '_' := fun hc => hhead (congrArg some hc)
    obtain ⟨d, hd⟩ := h c List.mem_cons_self hc
    rw [noDoubleUnderscore_cons fun he => hc he.1] at hno
    rw [List.getLast?_cons_cons] at hlast
    by_cases hx : x = '_'
    · subst hx
      -- what follows the underscore is not empty and does not begin with another one
      obtain ⟨y, t, rfl⟩ : ∃ y t, cs = y :: t := by
        cases cs with
        | nil => exact absurd rfl hlast
        | cons y t => exact ⟨y, t, rfl⟩
      have hy : y ≠ '_' := by
        rintro rfl
        cases hno
      have hnext : ¬ ('_' = '_' ∧ (y :: t).head? = some '_') := fun he =>
        hy (Option.some.inj he.2)
      rw [noDoubleUnderscore_cons hnext] at hno
      obtain ⟨ds, hds⟩ := digits_of_underscores (y :: t) (List.cons_ne_nil _ _)
        (fun he => hy (Option.some.inj he)) (by rwa [List.getLast?_cons_cons] at hlast) hno
        fun e he => h e (List.mem_cons_of_mem _ (List.mem_cons_of_mem _ he))
      exact ⟨d :: ds, .apart (digit?_eq_some.1 hd) hds⟩
    · obtain ⟨ds, hds⟩ := digits_of_underscores (x :: cs) (List.cons_ne_nil _ _)
        (fun he => hx (Option.some.inj he)) hlast hno fun e he => h e (List.mem_cons_of_mem _ he)
      exact ⟨d :: ds, .next (digit?_eq_some.1 hd) hds⟩

theorem digits_of_wellFormed (hw : wellFormed cs = true)
    (h : ∀ c ∈ cs.filter (· ≠ '_'), ∃ d, digit? base c = some d) : ∃ ds, Digits base cs ds := by
  obtain ⟨hne, hhead, hlast, hno, -, -⟩ := wellFormed_iff.1 hw
  exact digits_of_underscores cs hne hhead hlast hno fun c hc hx =>
    h c (List.mem_filter.2 ⟨hc, decide_eq_true hx⟩)

/-! ## Magnitudes -/

theorem le_accumulate (hb : 0 < base) (n : ℕ) (ds : List ℕ) :
    n ≤ n * base ^ ds.length + Nat.ofDigits base ds.reverse :=
  (Nat.le_mul_of_pos_right n (Nat.pow_pos hb)).trans (Nat.le_add_right _ _)

/-- The next digit, as the first one of what is left or as the last one of what was read. -/
theorem accumulate_cons (n d : ℕ) (ds : List ℕ) :
    n * base ^ (d :: ds).length + Nat.ofDigits base (d :: ds).reverse =
      (n * base + d) * base ^ ds.length + Nat.ofDigits base ds.reverse := by
  rw [List.reverse_cons, Nat.ofDigits_append, Nat.ofDigits_singleton, List.length_reverse,
    List.length_cons]
  ring

theorem magnitude_eq (hb : 0 < base)
    (h : List.Forall₂ (fun c d => digit? base c = some d) cs ds) (hn : n < 2 ^ 64) :
    magnitude base n cs =
      if 2 ^ 64 ≤ n * base ^ ds.length + Nat.ofDigits base ds.reverse then .error .tooLarge
      else .ok (n * base ^ ds.length + Nat.ofDigits base ds.reverse) := by
  induction h generalizing n with
  | nil =>
    rw [magnitude, List.reverse_nil, Nat.ofDigits_nil, List.length_nil, pow_zero, mul_one, add_zero,
      if_neg hn.not_ge]
  | @cons c d cs ds hd _ ih =>
    rw [magnitude, hd, accumulate_cons]
    dsimp only
    rw [Nat.pow_eq]
    split
    · rename_i hlarge
      rw [if_pos (hlarge.trans (le_accumulate hb _ ds))]
    · rename_i hsmall
      exact ih (Nat.lt_of_not_le hsmall)

theorem digit?_of_magnitude {m : ℕ} (h : magnitude base n cs = .ok m) :
    ∀ c ∈ cs, ∃ d, digit? base c = some d := by
  induction cs generalizing n with
  | nil => exact List.forall_mem_nil _
  | cons c cs ih =>
    rw [magnitude] at h
    cases hd : digit? base c with
    | none =>
      rw [hd] at h
      cases h
    | some d =>
      rw [hd] at h
      dsimp only at h
      split at h
      · cases h
      · exact List.forall_mem_cons.2 ⟨⟨d, hd⟩, ih h⟩

/-! ## Signs, marks and blanks -/

theorem mem_signs {sign : List Char} {factor : ℤ} : (sign, factor) ∈ signs ↔
    sign = [] ∧ factor = 1 ∨ sign = ['+'] ∧ factor = 1 ∨ sign = ['-'] ∧ factor = -1 := by
  simp [signs]

/-- Every text begins with a sign, which may be missing. -/
theorem exists_sign (cs : List Char) : ∃ sign, cs = sign ++ (splitSign cs).2 ∧
    (sign, if (splitSign cs).1 then -1 else 1) ∈ signs := by
  unfold splitSign
  split
  · exact ⟨['-'], rfl, mem_signs.2 (.inr (.inr ⟨rfl, rfl⟩))⟩
  · exact ⟨['+'], rfl, mem_signs.2 (.inr (.inl ⟨rfl, rfl⟩))⟩
  · exact ⟨[], rfl, mem_signs.2 (.inl ⟨rfl, rfl⟩)⟩

theorem splitSign_append {sign : List Char} {factor : ℤ} (h : (sign, factor) ∈ signs)
    (hplus : c ≠ '+') (hminus : c ≠ '-') (cs : List Char) :
    (splitSign (sign ++ c :: cs)).2 = c :: cs ∧
      (if (splitSign (sign ++ c :: cs)).1 then -1 else 1) = factor := by
  obtain ⟨rfl, rfl⟩ | ⟨rfl, rfl⟩ | ⟨rfl, rfl⟩ := mem_signs.1 h
  · have hnone : splitSign (c :: cs) = (false, c :: cs) := by
      rw [splitSign]
      · rintro t ht
        exact hminus (List.cons.inj ht).1
      · rintro t ht
        exact hplus (List.cons.inj ht).1
    rw [List.nil_append, hnone]
    exact ⟨rfl, rfl⟩
  · exact ⟨rfl, rfl⟩
  · exact ⟨rfl, rfl⟩

theorem mem_marks {mark : List Char} : mark ∈ marks base ↔
    mark = [] ∨ ∃ l u, baseMark? base = some (l, u) ∧ (mark = ['0', l] ∨ mark = ['0', u]) := by
  unfold marks baseMark?
  split <;> simp

/-- The letter of a mark is no digit of its base, and no underscore. -/
theorem baseMark?_not_digit {l u : Char} (h : baseMark? base = some (l, u)) :
    (digit? base l = none ∧ digit? base u = none) ∧ l ≠ '_' ∧ u ≠ '_' := by
  unfold baseMark? at h
  split at h
  · cases h; decide
  · cases h; decide
  · cases h; decide
  · cases h

theorem dropMark_zero (c : Char) (cs : List Char) : dropMark base ('0' :: c :: cs) =
    match baseMark? base with
    | some (l, u) => if c = l ∨ c = u then cs else '0' :: c :: cs
    | none => '0' :: c :: cs := rfl

theorem Digits.dropMark (h : Digits base cs ds) : dropMark base cs = cs := by
  rw [dropMark.eq_def]
  split
  · rename_i c rest
    split
    · rename_i l u hm
      obtain ⟨⟨hl, hu⟩, hl', hu'⟩ := baseMark?_not_digit hm
      rw [if_neg]
      intro hc
      cases h with
      | next _ ht =>
        obtain ⟨x, d, t, hx, hd⟩ := ht.cons
        obtain ⟨rfl, rfl⟩ := List.cons.inj hx
        have hd := digit?_eq_some.2 hd
        rcases hc with rfl | rfl
        · rw [hl] at hd
          cases hd
        · rw [hu] at hd
          cases hd
      | apart => exact hc.elim (fun e => hl' e.symm) fun e => hu' e.symm
    · rfl
  · rfl

theorem dropMark_append {mark : List Char} (hm : mark ∈ marks base) (h : Digits base cs ds) :
    dropMark base (mark ++ cs) = cs := by
  obtain rfl | ⟨l, u, hmark, rfl | rfl⟩ := mem_marks.1 hm
  · exact h.dropMark
  · show dropMark base ('0' :: l :: cs) = cs
    rw [dropMark_zero, hmark]
    exact if_pos (.inl rfl)
  · show dropMark base ('0' :: u :: cs) = cs
    rw [dropMark_zero, hmark]
    exact if_pos (.inr rfl)

/-- Dropping takes off a mark of the base, or nothing. -/
theorem exists_mark (base : ℕ) (cs : List Char) :
    ∃ mark ∈ marks base, cs = mark ++ dropMark base cs := by
  rw [dropMark.eq_def]
  split
  · split
    · rename_i l u hmark
      split
      · rename_i hc
        rcases hc with rfl | rfl
        · exact ⟨_, mem_marks.2 (.inr ⟨_, _, hmark, .inl rfl⟩), rfl⟩
        · exact ⟨_, mem_marks.2 (.inr ⟨_, _, hmark, .inr rfl⟩), rfl⟩
      · exact ⟨[], mem_marks.2 (.inl rfl), rfl⟩
    · exact ⟨[], mem_marks.2 (.inl rfl), rfl⟩
  · exact ⟨[], mem_marks.2 (.inl rfl), rfl⟩

theorem exists_trimList (p : Char → Bool) (cs : List Char) : ∃ before after,
    cs = before ++ Text.trimList p cs ++ after ∧ (∀ c ∈ before, p c = true) ∧
      (∀ c ∈ after, p c = true) := by
  refine ⟨cs.takeWhile p, ((cs.dropWhile p).reverse.takeWhile p).reverse, ?_, ?_, ?_⟩
  · rw [Text.trimList, List.append_assoc, ← List.reverse_append, List.takeWhile_append_dropWhile,
      List.reverse_reverse, List.takeWhile_append_dropWhile]
  · exact fun c hc => List.mem_takeWhile_imp hc
  · exact fun c hc => List.mem_takeWhile_imp (List.mem_reverse.1 hc)

/-- Trimming takes off all blanks around what neither begins nor ends with one. -/
theorem trimList_append {p : Char → Bool} {before core after : List Char}
    (hb : ∀ c ∈ before, p c = true) (ha : ∀ c ∈ after, p c = true)
    (hh : ∃ c t, core = c :: t ∧ p c = false) (hl : ∃ t c, core = t ++ [c] ∧ p c = false) :
    Text.trimList p (before ++ core ++ after) = core := by
  have hfirst : (before ++ core ++ after).dropWhile p = core ++ after := by
    obtain ⟨c, t, rfl, hc⟩ := hh
    rw [List.append_assoc, List.dropWhile_append_of_pos hb, List.cons_append,
      List.dropWhile_cons_of_neg (by simp [hc])]
  have hlast : (core ++ after).reverse.dropWhile p = core.reverse := by
    obtain ⟨t, c, rfl, hc⟩ := hl
    rw [List.reverse_append, List.dropWhile_append_of_pos fun c hc => ha c (List.mem_reverse.1 hc),
      List.reverse_concat, List.dropWhile_cons_of_neg (by simp [hc])]
  rw [Text.trimList, hfirst, hlast, List.reverse_reverse]

/-! ## Numerals -/

/-- A mark or a digit begins what follows the sign; neither is a sign or a blank. -/
theorem exists_head {mark : List Char} (hmark : mark ∈ marks base) (h : Digits base digits ds) :
    ∃ c t, mark ++ digits = c :: t ∧ c ≠ '+' ∧ c ≠ '-' ∧ Text.isBlank c = false := by
  obtain rfl | ⟨l, u, -, rfl | rfl⟩ := mem_marks.1 hmark
  · obtain ⟨c, d, t, rfl, hd⟩ := h.cons
    exact ⟨c, t, rfl, hd.ne rfl, hd.ne rfl, hd.not_blank⟩
  · exact ⟨'0', _, rfl, by decide⟩
  · exact ⟨'0', _, rfl, by decide⟩

theorem Spells.cons (h : Spells base cs k) : ∃ c t, cs = c :: t ∧ Text.isBlank c = false := by
  obtain ⟨hsign, hmark, hdigits⟩ := h
  obtain ⟨c, t, hc, -, -, hblank⟩ := exists_head hmark hdigits
  rw [List.append_assoc, hc]
  obtain ⟨rfl, -⟩ | ⟨rfl, -⟩ | ⟨rfl, -⟩ := mem_signs.1 hsign
  · exact ⟨c, t, rfl, hblank⟩
  · exact ⟨'+', _, rfl, rfl⟩
  · exact ⟨'-', _, rfl, rfl⟩

theorem Spells.concat (h : Spells base cs k) : ∃ t c, cs = t ++ [c] ∧ Text.isBlank c = false := by
  obtain ⟨-, -, hdigits⟩ := h
  obtain ⟨t, c, d, rfl, hd⟩ := hdigits.concat
  exact ⟨_, c, (List.append_assoc _ t [c]).symm, hd.not_blank⟩

/-- What is left of a numeral behind the sign and the mark. -/
def digitsOf (base : ℕ) (text : String) : List Char :=
  dropMark base (splitSign (Text.trim text).toList).2

/-- A number that is read gets its sign and is checked to be a word. -/
theorem parse_of_magnitude (hwell : wellFormed (digitsOf base text) = true)
    (hn : magnitude base 0 ((digitsOf base text).filter (· ≠ '_')) = .ok n) :
    parse base text = Integer.checked "int"
      ((if (splitSign (Text.trim text).toList).1 then -1 else 1) * n) := by
  unfold digitsOf at hwell hn
  rw [parse]
  generalize splitSign (Text.trim text).toList = signed at hwell hn ⊢
  obtain ⟨negative, rest⟩ := signed
  dsimp only at hwell hn ⊢
  rw [if_neg (by simp [hwell]), hn]
  cases negative with
  | false => exact congrArg (Integer.checked "int") (one_mul _).symm
  | true => exact congrArg (Integer.checked "int") (neg_one_mul _).symm

/-- A number that does not fit in 64 bits is refused. -/
theorem parse_of_tooLarge (hwell : wellFormed (digitsOf base text) = true)
    (hn : magnitude base 0 ((digitsOf base text).filter (· ≠ '_')) = .error .tooLarge) :
    parse base text = .error (.integerOverflow "int") := by
  unfold digitsOf at hwell hn
  rw [parse]
  generalize splitSign (Text.trim text).toList = signed at hwell hn ⊢
  obtain ⟨negative, rest⟩ := signed
  dsimp only at hwell hn ⊢
  rw [if_neg (by simp [hwell]), hn]

theorem magnitude_of_parse {w : Int64} (h : parse base text = .ok w) :
    wellFormed (digitsOf base text) = true ∧
      ∃ n, magnitude base 0 ((digitsOf base text).filter (· ≠ '_')) = .ok n := by
  unfold digitsOf
  rw [parse] at h
  generalize splitSign (Text.trim text).toList = signed at h ⊢
  obtain ⟨negative, rest⟩ := signed
  dsimp only at h ⊢
  split at h
  · cases h
  · rename_i hwell
    refine ⟨by simpa using hwell, ?_⟩
    split at h
    · cases h
    · cases h
    · rename_i n hn
      exact ⟨n, hn⟩

theorem not_isWord_of_large {sign : List Char} {factor : ℤ} (h : (sign, factor) ∈ signs)
    (hn : 2 ^ 64 ≤ n) : ¬ Integer.IsWord (factor * n) := by
  unfold Integer.IsWord
  obtain ⟨-, rfl⟩ | ⟨-, rfl⟩ | ⟨-, rfl⟩ := mem_signs.1 h <;> omega

/-- **Reading a numeral.** The result is the integer that it denotes, checked to be a word. -/
theorem parse_of_denotes (hb : 0 < base) (h : Denotes base text k) :
    parse base text = Integer.checked "int" k := by
  obtain ⟨before, core, after, htext, hbefore, hafter, hcore⟩ := h
  have htrim : (Text.trim text).toList = core := by
    rw [Text.trim, Text.trimWhere, String.toList_ofList, htext,
      trimList_append hbefore hafter hcore.cons hcore.concat]
  obtain @⟨sign, factor, mark, digits, ds, hsign, hmark, hdigits⟩ := hcore
  obtain ⟨c, t, hc, hplus, hminus, -⟩ := exists_head hmark hdigits
  obtain ⟨hrest, hfactor⟩ := splitSign_append hsign hplus hminus t
  rw [← hc, ← List.append_assoc, ← htrim] at hrest hfactor
  have hvalue := magnitude_eq hb hdigits.values (n := 0) (by decide)
  rw [zero_mul, zero_add] at hvalue
  have hdigitsOf : digitsOf base text = digits := by
    rw [digitsOf, hrest, dropMark_append hmark hdigits]
  rw [← hdigitsOf] at hvalue
  have hwell : wellFormed (digitsOf base text) = true := hdigitsOf ▸ hdigits.wellFormed
  by_cases hlarge : 2 ^ 64 ≤ Nat.ofDigits base ds.reverse
  · rw [if_pos hlarge] at hvalue
    rw [parse_of_tooLarge hwell hvalue]
    exact (Integer.checked_of_not_isWord "int" (not_isWord_of_large hsign hlarge)).symm
  · rw [if_neg hlarge] at hvalue
    rw [parse_of_magnitude hwell hvalue, hfactor]

/-- **Reading succeeds on numerals only.** -/
theorem denotes_of_parse {w : Int64} (hb : 0 < base) (h : parse base text = .ok w) :
    Denotes base text w.toInt := by
  obtain ⟨before, after, htext, hbefore, hafter⟩ := exists_trimList Text.isBlank text.toList
  have htrim : (Text.trim text).toList = Text.trimList Text.isBlank text.toList :=
    String.toList_ofList
  obtain ⟨sign, hsign, hmem⟩ := exists_sign (Text.trim text).toList
  obtain ⟨mark, hmark, hcs⟩ := exists_mark base (splitSign (Text.trim text).toList).2
  obtain ⟨hwell, m, hm⟩ := magnitude_of_parse h
  obtain ⟨ds, hdigits⟩ := digits_of_wellFormed hwell (digit?_of_magnitude hm)
  have hspells := Spells.intro hmem hmark hdigits
  rw [List.append_assoc, digitsOf, ← hcs, ← hsign, htrim] at hspells
  -- the text denotes something, which is what is read
  have hdenotes : Denotes base text _ := ⟨before, _, after, htext, hbefore, hafter, hspells⟩
  rw [parse_of_denotes hb hdenotes] at h
  rw [Integer.checked_eq_ok.1 h]
  exact hdenotes

/-! ## Printed numbers -/

theorem Digits.append (h : Digits base cs ds) (hd : IsDigit base c d) :
    Digits base (cs ++ [c]) (ds ++ [d]) := by
  induction h with
  | last hc => exact .next hc (.last hd)
  | next hc _ ih => exact .next hc ih
  | apart hc _ ih => exact .apart hc ih

theorem isDigit_digitChar (hb : base ≤ 16) (hd : d < base) : IsDigit base d.digitChar d := by
  have hall : ∀ d < 16, alphabet[d]? = some d.digitChar := by decide
  exact ⟨hd, _, hall d (hd.trans_le hb), .inl rfl⟩

/-- The digits of a number are digits that stand for it. -/
theorem digits_toDigits (hb : 1 < base) (hb' : base ≤ 16) (n : ℕ) :
    ∃ ds, Digits base (Nat.toDigits base n) ds ∧ Nat.ofDigits base ds.reverse = n := by
  induction n using Nat.strong_induction_on with
  | _ n ih =>
    by_cases hn : n < base
    · rw [Nat.toDigits_of_lt_base hn]
      exact ⟨[n], .last (isDigit_digitChar hb' hn), Nat.ofDigits_singleton⟩
    · -- the last digit is what division by the base leaves over
      rw [Nat.toDigits_of_base_le hb (Nat.le_of_not_lt hn)]
      obtain ⟨ds, hds, hvalue⟩ := ih (n / base) (Nat.div_lt_self (by omega) hb)
      have hlast := isDigit_digitChar hb' (Nat.mod_lt n (Nat.zero_lt_of_lt hb))
      refine ⟨ds ++ [n % base], hds.append hlast, ?_⟩
      rw [List.reverse_concat, Nat.ofDigits_cons, hvalue]
      exact Nat.mod_add_div n base

/-- A minus sign, if the number is negative, and the digits of the magnitude denote the number. -/
theorem denotes_of_toList {n : ℤ} {sign : List Char} (hb : 1 < base) (hb' : base ≤ 16)
    (htext : text.toList = sign ++ Nat.toDigits base n.natAbs)
    (hsign : sign = [] ∧ 0 ≤ n ∨ sign = ['-'] ∧ n < 0) : Denotes base text n := by
  obtain ⟨ds, hds, hvalue⟩ := digits_toDigits hb hb' n.natAbs
  obtain ⟨factor, hfactor, hn⟩ : ∃ factor : ℤ, (sign, factor) ∈ signs ∧ factor * n.natAbs = n := by
    obtain ⟨rfl, h⟩ | ⟨rfl, h⟩ := hsign
    · exact ⟨1, mem_signs.2 (.inl ⟨rfl, rfl⟩), by omega⟩
    · exact ⟨-1, mem_signs.2 (.inr (.inr ⟨rfl, rfl⟩)), by omega⟩
  have hspells := Spells.intro hfactor (mem_marks.2 (.inl rfl)) hds
  rw [List.append_nil, hvalue, hn] at hspells
  exact ⟨[], _, [], by rw [htext, List.nil_append, List.append_nil], List.forall_mem_nil _,
    List.forall_mem_nil _, hspells⟩

theorem denotes_decimal (w : Int64) : Denotes 10 (decimal w) w.toInt := by
  obtain ⟨sign, htext, hsign⟩ := toList_decimal w
  exact denotes_of_toList (by decide) (by decide) htext hsign

theorem denotes_hexadecimal (w : Int64) : Denotes 16 (hexadecimal w) w.toInt := by
  have htext : (hexadecimal w).toList =
      (if w < 0 then "-" else "").toList ++ Nat.toDigits 16 w.toInt.natAbs := by
    rw [hexadecimal, String.toList_append, String.toList_ofList]
  refine denotes_of_toList (by decide) (by decide) htext ?_
  split
  · exact .inr ⟨rfl, Integer.toInt_neg_iff.2 ‹_›⟩
  · exact .inl ⟨rfl, Int.not_lt.1 (mt Integer.toInt_neg_iff.1 ‹_›)⟩

end ObjectSpace.Numeral
