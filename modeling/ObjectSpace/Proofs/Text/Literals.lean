import ObjectSpace.Text.Literal
import ObjectSpace.Text.Numeral
import Mathlib.Data.List.Basic
import Mathlib.Tactic.SplitIfs

/-!
# Reading literals back

**Theorem (`ofText_unique`, `ofBytes_unique`).** A literal determines its content, and where it ends
in a longer text: if two texts begin with a literal each and are the same, the contents are the
same and so is what follows.

The first character of a literal is the quote, so two equal literals have the same one although it
depends on the content. Inside, `readUnit` reads one character at a time, from the text alone: after
a backslash the next character tells which escape it is. No unit begins with the quote
(`Readable.head`), so the first one that stands where a unit could begin is the end.

**Decimal forms** (`decimal_unique`) have no mark at their end; they end where no digit follows.
-/

namespace ObjectSpace

namespace Literal

/-! ## Units -/

/-- The value of a hexadecimal digit. -/
def hexValue (c : Char) : Nat := if c.toNat < 58 then c.toNat - 48 else c.toNat - 87

theorem hexValue_hexDigit : ∀ n < 16, hexValue (hexDigit n) = n := by decide

/-- The first character that is written inside a literal, and what follows it. -/
def readUnit : List Char → Option (Char × List Char)
  | '\\' :: 'n' :: rest => some ('\n', rest)
  | '\\' :: 'r' :: rest => some ('\r', rest)
  | '\\' :: 't' :: rest => some ('\t', rest)
  | '\\' :: 'x' :: high :: low :: rest =>
    some (Char.ofNat (16 * hexValue high + hexValue low), rest)
  | '\\' :: c :: rest => some (c, rest)
  | c :: rest => some (c, rest)
  | [] => none

theorem readUnit_plain {c : Char} (hc : c ≠ '\\') (rest : List Char) :
    readUnit (c :: rest) = some (c, rest) := by
  rw [readUnit.eq_def]
  split <;> simp_all

theorem readUnit_hexEscape {c : Char} (hc : c.toNat < 256) (rest : List Char) :
    readUnit (hexEscape c.toNat ++ rest) = some (c, rest) := by
  have hhigh := hexValue_hexDigit (c.toNat / 16) (by omega)
  have hlow := hexValue_hexDigit (c.toNat % 16) (by omega)
  have hcode : 16 * (c.toNat / 16) + c.toNat % 16 = c.toNat := by omega
  simp only [hexEscape, List.cons_append, List.nil_append, readUnit, hhigh, hlow, hcode,
    Char.ofNat_toNat]

/-- How the characters with `P` are written inside a literal: each can be read back, whatever
follows, and none begins as the end of the literal does. -/
structure Readable (quote : Char) (unit : Char → List Char) (P : Char → Prop) : Prop where
  read : ∀ c, P c → ∀ rest, readUnit (unit c ++ rest) = some (c, rest)
  head : ∀ c, P c → ∀ rest, (unit c ++ rest).head? ≠ some quote

/-- A character is written by an escape that all literals share, as it is, or by its code. -/
theorem readable_escape {quote : Char} (hq : quote = '\'' ∨ quote = '"')
    {plain : Char → List Char} {P : Char → Prop}
    (hp : ∀ c, P c → plain c = [c] ∨ plain c = hexEscape c.toNat ∧ c.toNat < 256) :
    Readable quote (fun c => (escape? quote c).getD (plain c)) P := by
  have hquote : quote ≠ '\\' := by rcases hq with rfl | rfl <;> decide
  have hcases : ∀ c, P c → (∃ e, escape? quote c = some ('\\' :: e) ∧
      ∀ rest, readUnit ('\\' :: e ++ rest) = some (c, rest)) ∨
      escape? quote c = none ∧ c ≠ '\\' ∧ c ≠ quote := by
    intro c hc
    unfold escape?
    split_ifs with h₁ h₂ h₃ h₄ h₅
    · exact .inl ⟨_, rfl, fun rest => by subst h₁; rfl⟩
    · exact .inl ⟨_, rfl, fun rest => by subst h₂; rfl⟩
    · exact .inl ⟨_, rfl, fun rest => by subst h₃; rfl⟩
    · exact .inl ⟨_, rfl, fun rest => by subst h₄; rfl⟩
    · exact .inl ⟨_, rfl, fun rest => by subst h₅; rcases hq with rfl | rfl <;> rfl⟩
    · exact .inr ⟨rfl, h₁, h₅⟩
  constructor
  · intro c hc rest
    rcases hcases c hc with ⟨e, he, hread⟩ | ⟨he, hslash, -⟩
    · simpa only [he, Option.getD_some] using hread rest
    · rw [he, Option.getD_none]
      rcases hp c hc with h | ⟨h, hcode⟩
      · rw [h]
        exact readUnit_plain hslash rest
      · rw [h]
        exact readUnit_hexEscape hcode rest
  · intro c hc rest
    rcases hcases c hc with ⟨e, he, -⟩ | ⟨he, -, hne⟩
    · simpa [he] using hquote.symm
    · rw [he, Option.getD_none]
      rcases hp c hc with h | ⟨h, -⟩
      · simpa [h] using hne
      · simpa [h, hexEscape] using hquote.symm

/-! ## Literals -/

section Quoted

variable {quote : Char} {unit : Char → List Char} {P : Char → Prop} {s t x y : List Char}

theorem Readable.inside (R : Readable quote unit P) (hs : ∀ c ∈ s, P c) (ht : ∀ c ∈ t, P c)
    (h : s.flatMap unit ++ quote :: x = t.flatMap unit ++ quote :: y) : s = t ∧ x = y := by
  induction s generalizing t with
  | nil =>
    cases t with
    | nil => exact ⟨rfl, (List.cons.inj h).2⟩
    | cons d t =>
      rw [List.flatMap_cons, List.append_assoc] at h
      exact absurd (congrArg List.head? h).symm (R.head d (ht d List.mem_cons_self) _)
  | cons c s ih =>
    rw [List.forall_mem_cons] at hs
    rw [List.flatMap_cons, List.append_assoc] at h
    cases t with
    | nil => exact absurd (congrArg List.head? h) (R.head c hs.1 _)
    | cons d t =>
      rw [List.forall_mem_cons] at ht
      rw [List.flatMap_cons, List.append_assoc] at h
      have hread := congrArg readUnit h
      rw [R.read c hs.1, R.read d ht.1, Option.some.injEq, Prod.mk.injEq] at hread
      obtain ⟨rfl, hrest⟩ := hread
      obtain ⟨rfl, rfl⟩ := ih hs.2 ht.2 hrest
      exact ⟨rfl, rfl⟩

theorem quoteFor_cases (s : List Char) : quoteFor s = '\'' ∨ quoteFor s = '"' := by
  unfold quoteFor
  split
  · exact .inr rfl
  · exact .inl rfl

/-- A literal determines its content and its end, if its units do. -/
theorem quoted_unique {unit : Char → Char → List Char}
    (R : ∀ quote, quote = '\'' ∨ quote = '"' → Readable quote (unit quote) P)
    (hs : ∀ c ∈ s, P c) (ht : ∀ c ∈ t, P c)
    (h : quoted unit s ++ x = quoted unit t ++ y) : s = t ∧ x = y := by
  simp only [quoted, List.cons_append, List.append_assoc] at h
  obtain ⟨hquote, h⟩ := List.cons.inj h
  rw [hquote] at h
  exact (R _ (quoteFor_cases t)).inside hs ht h

end Quoted

theorem readable_textUnit {quote : Char} (hq : quote = '\'' ∨ quote = '"') :
    Readable quote (textUnit quote) fun _ => True := by
  refine readable_escape hq fun c _ => ?_
  split_ifs with hc
  · exact .inr ⟨rfl, by omega⟩
  · exact .inl rfl

theorem readable_byteUnit {quote : Char} (hq : quote = '\'' ∨ quote = '"') :
    Readable quote (byteUnit quote) fun c => c.toNat < 256 := by
  refine readable_escape hq fun c hcode => ?_
  split_ifs with hc
  · exact .inr ⟨rfl, hcode⟩
  · exact .inl rfl

/-- **Text literals.** They determine the text, and where they end. -/
theorem ofText_unique {s t : String} {x y : List Char}
    (h : (ofText s).toList ++ x = (ofText t).toList ++ y) : s = t ∧ x = y := by
  simp only [ofText, String.toList_ofList] at h
  obtain ⟨hst, rfl⟩ := quoted_unique (fun _ => readable_textUnit) (fun _ _ => trivial)
    (fun _ _ => trivial) h
  exact ⟨String.toList_inj.1 hst, rfl⟩

theorem ofText_cons (s : String) :
    ∃ c t, (ofText s).toList = c :: t ∧ (c = '\'' ∨ c = '"') := by
  rw [ofText, String.toList_ofList, quoted]
  exact ⟨_, _, rfl, quoteFor_cases _⟩

theorem toNat_ofByte (b : UInt8) : (Char.ofNat b.toNat).toNat = b.toNat := by
  have hvalid : b.toNat.isValidChar := by
    have hb := b.toNat_lt
    simp only [Nat.isValidChar]
    omega
  rw [Char.ofNat, dif_pos hvalid]
  rfl

/-- **Bytes literals.** They determine the bytes, and where they end. -/
theorem ofBytes_unique {s t : Array UInt8} {x y : List Char}
    (h : (ofBytes s).toList ++ x = (ofBytes t).toList ++ y) : s = t ∧ x = y := by
  have hcode : ∀ bs : Array UInt8, ∀ c ∈ bs.toList.map fun b => Char.ofNat b.toNat,
      c.toNat < 256 := by
    intro bs c hc
    obtain ⟨b, -, rfl⟩ := List.mem_map.1 hc
    rw [toNat_ofByte]
    exact b.toNat_lt
  have hinj : Function.Injective fun b : UInt8 => Char.ofNat b.toNat := fun a b hab => by
    have hn := congrArg Char.toNat hab
    simp only [toNat_ofByte] at hn
    exact UInt8.toNat_inj.1 hn
  simp only [ofBytes, String.toList_ofList, List.cons_append] at h
  obtain ⟨hst, rfl⟩ := quoted_unique (fun _ => readable_byteUnit) (hcode s) (hcode t)
    (List.cons.inj h).2
  exact ⟨Array.toList_inj.1 (List.map_injective_iff.2 hinj hst), rfl⟩

end Literal

namespace Numeral

/-! ## Decimal forms -/

/-- What can follow a decimal form: the end, or a character that is no digit. -/
def Ends (x : List Char) : Prop := ∀ c, x.head? = some c → c.isDigit = false

theorem digits_unique {s t x y : List Char} (hs : ∀ c ∈ s, c.isDigit = true)
    (ht : ∀ c ∈ t, c.isDigit = true) (hx : Ends x) (hy : Ends y) (h : s ++ x = t ++ y) :
    s = t ∧ x = y := by
  have htake : ∀ {s x : List Char}, (∀ c ∈ s, c.isDigit = true) → Ends x →
      (s ++ x).takeWhile Char.isDigit = s := fun {s x} hs hx => by
    rw [List.takeWhile_append_of_pos hs]
    cases x with
    | nil => rw [List.takeWhile_nil, List.append_nil]
    | cons c x => rw [List.takeWhile_cons_of_neg (by simp [hx c rfl]), List.append_nil]
  have hst := congrArg (List.takeWhile Char.isDigit) h
  rw [htake hs hx, htake ht hy] at hst
  subst hst
  exact ⟨rfl, List.append_cancel_left h⟩

theorem toList_decimal (n : Int64) : ∃ sign, (decimal n).toList =
    sign ++ Nat.toDigits 10 n.toInt.natAbs ∧
      (sign = [] ∧ 0 ≤ n.toInt ∨ sign = ['-'] ∧ n.toInt < 0) := by
  rw [decimal, Int.toString_eq_repr, Int.repr_eq_if]
  split
  · refine ⟨[], ?_, .inl ⟨rfl, ‹_›⟩⟩
    rw [Nat.toList_repr, List.nil_append]
    congr 1
    omega
  · refine ⟨['-'], ?_, .inr ⟨rfl, by omega⟩⟩
    rw [String.toList_append, Nat.toList_repr]
    congr 2
    omega

theorem decimal_cons (n : Int64) :
    ∃ c t, (decimal n).toList = c :: t ∧ (c = '-' ∨ c.isDigit = true) := by
  obtain ⟨sign, hn, hsign⟩ := toList_decimal n
  obtain ⟨c, ds, hds⟩ :=
    List.exists_cons_of_ne_nil (Nat.toDigits_ne_nil (b := 10) (n := n.toInt.natAbs))
  rw [hn]
  rcases hsign with ⟨rfl, -⟩ | ⟨rfl, -⟩
  · refine ⟨c, ds, hds, .inr ?_⟩
    exact Nat.isDigit_of_mem_toDigits (by decide) (by decide) (hds ▸ List.mem_cons_self)
  · exact ⟨_, _, rfl, .inl rfl⟩

/-- **Decimal forms.** They determine the number, and where they end if no digit follows. -/
theorem decimal_unique {n m : Int64} {x y : List Char} (hx : Ends x) (hy : Ends y)
    (h : (decimal n).toList ++ x = (decimal m).toList ++ y) : n = m ∧ x = y := by
  obtain ⟨sn, hn, hsn⟩ := toList_decimal n
  obtain ⟨sm, hm, hsm⟩ := toList_decimal m
  rw [hn, hm, List.append_assoc, List.append_assoc] at h
  have hdigit : ∀ k : Nat, ∀ c ∈ Nat.toDigits 10 k, c.isDigit = true := fun k c hc =>
    Nat.isDigit_of_mem_toDigits (by decide) (by decide) hc
  have hminus : ∀ (k : Nat) x y, Nat.toDigits 10 k ++ x ≠ '-' :: y := by
    intro k x y he
    obtain ⟨c, ds, hds⟩ := List.exists_cons_of_ne_nil (Nat.toDigits_ne_nil (b := 10) (n := k))
    rw [hds] at he
    obtain ⟨rfl, -⟩ := List.cons.inj he
    exact absurd (hdigit k _ (hds ▸ List.mem_cons_self)) (by decide)
  have hmagnitude : Nat.toDigits 10 n.toInt.natAbs ++ x = Nat.toDigits 10 m.toInt.natAbs ++ y →
      n.toInt.natAbs = m.toInt.natAbs ∧ x = y := fun he => by
    obtain ⟨hds, rfl⟩ := digits_unique (hdigit _) (hdigit _) hx hy he
    have hvalue := congrArg (Nat.ofDigitChars 10 · 0) hds
    simp only [Nat.ofDigitChars_ten_toDigits] at hvalue
    exact ⟨hvalue, rfl⟩
  rcases hsn with ⟨rfl, hn0⟩ | ⟨rfl, hn0⟩ <;> rcases hsm with ⟨rfl, hm0⟩ | ⟨rfl, hm0⟩
  · obtain ⟨habs, rfl⟩ := hmagnitude h
    exact ⟨Int64.toInt_inj.1 (by omega), rfl⟩
  · exact absurd h (hminus _ _ _)
  · exact absurd h.symm (hminus _ _ _)
  · obtain ⟨habs, rfl⟩ := hmagnitude (List.cons.inj h).2
    exact ⟨Int64.toInt_inj.1 (by omega), rfl⟩

end Numeral

end ObjectSpace
