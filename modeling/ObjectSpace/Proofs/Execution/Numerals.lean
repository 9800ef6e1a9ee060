import ObjectSpace.Proofs.Execution.Codecs
import ObjectSpace.Proofs.Execution.Printing
import ObjectSpace.Proofs.Execution.Ranges
import ObjectSpace.Proofs.Text.Numerals

/-!
# Integers of texts

**Theorem (`int_numeral`).** In every space of a run on live handles, `int` of a text and a base
from 2 to 36 gives the integer that the text denotes in the base, when it denotes one that a word
can hold. It fails with an overflow for the other integers that texts denote, and with a diagnostic
for a text that denotes none. Without a base the base is 10.
-/

namespace ObjectSpace

open Integer (IsWord)
open Numeral (Denotes)

namespace Space

/-- The base that `int` is asked for, by what follows the text. -/
inductive IsBase (heap : Heap) : List Handle → ℕ → Prop
  | decimal : IsBase heap [] 10
  | given {b : Handle} {o : Object} {w : Int64} {base : ℕ} : heap.Has b o → o.asInt? = some w →
      w.toInt = base → 2 ≤ base → base ≤ 36 → IsBase heap [b] base

variable {s s' : Space} {v callee ctx : Handle} {rest : List Handle} {text : String} {base : ℕ}
  {code : Code}

theorem IsBase.live (h : IsBase s.heap rest base) : ∀ b ∈ rest, s.heap.isLive b = true := by
  cases h with
  | decimal => exact List.forall_mem_nil _
  | given hb => exact List.forall_mem_singleton.2 hb.1

theorem IsBase.pos {heap : Heap} (h : IsBase heap rest base) : 0 < base := by
  cases h <;> omega

theorem Frame.isBase (f : Frame [] s s') (h : IsBase s.heap rest base) :
    IsBase s'.heap rest base := by
  cases h with
  | decimal => exact .decimal
  | given hb ho hw hle hge => exact .given (f.keep hb) ho hw hle hge

theorem integerOf_text (hv : IsText s.heap v text) (hbase : IsBase s.heap rest base) :
    integerOf (v :: rest) s = (liftM (Numeral.parse base text) : Action Int64) s := by
  cases hbase with
  | decimal =>
    obtain ⟨hash, hv⟩ := hv
    show ((liftM (Heap.get v) : Action Object) >>= _) s = _
    rw [get_bind_of_has hv]
  | @given b o w _ hb ho hw hle hge =>
    have hadmitted : ¬ (w < 2 ∨ 36 < w) := by
      simp only [Int64.lt_iff_toInt_lt, hw, show (2 : Int64).toInt = 2 by decide,
        show (36 : Int64).toInt = 36 by decide]
      omega
    show ((liftM (Heap.expectInt b "int") : Action Int64) >>= _) s = _
    rw [ask_bind_of_ok (Heap.expectInt_eq hb ho _)]
    simp only [if_neg hadmitted, hw, Int.toNat_natCast]
    show ((liftM (Heap.expectStr v "int") : Action String) >>= _) s = _
    rw [ask_bind_of_ok (Heap.expectStr_text hv _)]

theorem callWith_int (code : Code) (ctx : Handle) (i : s.Steady)
    (hcallee : s.heap.Has callee (.type .int)) (hv : IsText s.heap v text)
    (hbase : IsBase s.heap rest base) :
    ∃ s', Frame [] s s' ∧ callWith code ctx callee (v :: rest) s =
      ((liftM (Numeral.parse base text) : Action Int64) >>= newInt) s' := by
  obtain ⟨s', f, hs'⟩ :=
    callWith_type code ctx i hcallee (List.forall_mem_cons.2 ⟨hv.live, hbase.live⟩)
  refine ⟨s', f, hs'.trans ?_⟩
  have hint := integerOf_text (f.isText hv) (f.isBase hbase)
  show (integerOf (v :: rest) >>= newInt) s' = _
  cases hp : Numeral.parse base text with
  | ok w =>
    rw [hp] at hint
    rw [bind_of_ok hint, check_bind_of_ok rfl]
  | error d =>
    rw [hp] at hint
    rw [bind_of_error hint, check_bind_of_error rfl]

end Space

open Space

variable {settings : Settings} {disk : Disk} {s : Space} {v callee : Handle} {rest : List Handle}
  {text : String} {base : ℕ}

/-- **Integers of texts.** `int` of a text succeeds with exactly the words that the text denotes in
the base. An integer that the text denotes and that is no word is an overflow, and a text that
denotes no integer is refused. -/
theorem int_numeral (r : LiveRun settings disk s) (code : Code) (ctx : Handle)
    (hcallee : s.heap.Has callee (.type .int)) (hv : IsText s.heap v text)
    (hbase : IsBase s.heap rest base) :
    (∀ n, (∃ w s', callWith code ctx callee (v :: rest) s = .ok w s' ∧ s'.heap.IsInteger w n) ↔
      Denotes base text n ∧ IsWord n) ∧
    (∀ n, Denotes base text n → ¬ IsWord n → ∃ s',
      callWith code ctx callee (v :: rest) s = .error (.fatal (.integerOverflow "int")) s') ∧
    ((∀ n, ¬ Denotes base text n) → ∃ d s',
      callWith code ctx callee (v :: rest) s = .error (.fatal d) s') := by
  obtain ⟨s', f, hs'⟩ := callWith_int code ctx (steady_of_liveRun r) hcallee hv hbase
  have hb := hbase.pos
  refine ⟨fun n => ⟨?_, ?_⟩, fun n hn hlarge => ?_, fun hnone => ?_⟩
  · rintro ⟨w, s'', h, k, hk, hw⟩
    rw [hs'] at h
    cases hp : Numeral.parse base text with
    | error d =>
      rw [check_bind_of_error hp] at h
      cases h
    | ok m =>
      rw [check_bind_of_ok hp] at h
      obtain ⟨w', s₁, h₁, -, hw'⟩ := newInt_frame f.steady m
      obtain ⟨rfl, rfl⟩ := EStateM.Result.ok.inj (h.symm.trans h₁)
      obtain rfl : k = m := Object.int.inj (hw.unique hw')
      exact hk ▸ ⟨Numeral.denotes_of_parse hb hp, Integer.isWord_toInt k⟩
  · rintro ⟨hn, hword⟩
    have hp := (Numeral.parse_of_denotes hb hn).trans (Integer.checked_of_isWord "int" hword)
    obtain ⟨w, s₁, h₁, -, hw⟩ := newInt_frame f.steady (Int64.ofInt n)
    refine ⟨w, s₁, ?_, _, Integer.toInt_ofInt hword, hw⟩
    rw [hs', check_bind_of_ok hp, h₁]
  · have hp := (Numeral.parse_of_denotes hb hn).trans (Integer.checked_of_not_isWord "int" hlarge)
    exact ⟨s', by rw [hs', check_bind_of_error hp]⟩
  · cases hp : Numeral.parse base text with
    | ok m => exact absurd (Numeral.denotes_of_parse hb hp) (hnone _)
    | error d => exact ⟨d, s', by rw [hs', check_bind_of_error hp]⟩

/-- A negative number in the base 16, with its mark, an underscore and blanks. -/
theorem int_numeral_hexadecimal :
    ∃ s callee v b, LiveRun {} {} s ∧ s.heap.Has callee (.type .int) ∧
      IsText s.heap v " -0x7_F\n" ∧ s.heap.Has b (.int 16) ∧ ∃ w s',
        callWith noCode s.noneValue callee [v, b] s = .ok w s' ∧ s'.heap.IsInteger w (-127) := by
  obtain ⟨s₀, h₀⟩ := create_ok {} rfl {}
  obtain ⟨v, s₁, r₁, f₁, hv⟩ := (LiveRun.start h₀).newStr " -0x7_F\n"
  obtain ⟨b, s, r, f, hb⟩ := r₁.newInt 16
  have hcallee : s.heap.Has _ (.type .int) := (steady_of_liveRun r).types Kind.int.index
  have hbase : IsBase s.heap [b] 16 := .given hb rfl (by decide) (by decide) (by decide)
  have hdigits : Numeral.Digits 16 ['7', '_', 'F'] [7, 15] :=
    .apart ⟨by decide, '7', rfl, .inl rfl⟩ (.last ⟨by decide, 'f', rfl, .inr rfl⟩)
  have hspells : Numeral.Spells 16 "-0x7_F".toList (-1 * Nat.ofDigits 16 [15, 7]) :=
    .intro (Numeral.mem_signs.2 (.inr (.inr ⟨rfl, rfl⟩)))
      (Numeral.mem_marks.2 (.inr ⟨'x', 'X', rfl, .inl rfl⟩)) hdigits
  have hdenotes : Denotes 16 " -0x7_F\n" (-127) :=
    ⟨[' '], _, ['\n'], rfl, by simp [Text.isBlank], by simp [Text.isBlank], hspells⟩
  have hword : IsWord (-127) := by
    unfold IsWord
    omega
  exact ⟨s, _, v, b, r, hcallee, f.isText hv, hb,
    ((int_numeral r noCode s.noneValue hcallee (f.isText hv) hbase).1 (-127)).2 ⟨hdenotes, hword⟩⟩

end ObjectSpace

/-!
## Printed integers

**Theorem (`integers_printed`).** In every space of a run on live handles, and for every way to
print an integer (`Prints`): `int` of what is printed, with the base of the numeral, succeeds and
gives the integer again. So the texts of two integers are equal only if the integers are.

Printing writes a numeral that denotes the integer (`Prints.denotes`), and a text denotes one
integer only. That the printer and the reader treat the sign and the magnitude of the least integer
apart from each other does not show in that.
-/

namespace ObjectSpace

namespace Space

/-- The conversions of formats for integers, with the base and the form of the numeral. -/
def integerFormats : List (String × ℕ × (Int64 → String)) :=
  [("%d", 10, Numeral.decimal), ("%i", 10, Numeral.decimal), ("%x", 16, Numeral.hexadecimal)]

/-- The ways of a program to print an integer, with the base and the form of the numeral. -/
inductive Prints (code : Code) (ctx : Handle) (heap : Heap) :
    ℕ → (Int64 → String) → (Handle → Action Handle) → Prop
  | str {callee : Handle} : heap.Has callee (.type .str) →
      Prints code ctx heap 10 Numeral.decimal fun v => callWith code ctx callee [v]
  | repr {callee : Handle} {name : String} {keywords : List String} :
      heap.Has callee (.function name (.builtin .repr keywords)) →
      Prints code ctx heap 10 Numeral.decimal fun v => callWith code ctx callee [v]
  | percent {format : Handle} {text : String} {base : ℕ} {form : Int64 → String} :
      IsText heap format text → (text, base, form) ∈ integerFormats →
      Prints code ctx heap base form fun v => binary .mod format v

variable {s s' : Space} {v callee ctx : Handle} {rest : List Handle} {text : String} {base : ℕ}
  {code : Code} {form : Int64 → String} {print : Handle → Action Handle} {n m : Int64}

/-- What is printed denotes the integer. -/
theorem Prints.denotes {heap : Heap} (h : Prints code ctx heap base form print) (n : Int64) :
    Numeral.Denotes base (form n) n.toInt := by
  cases h with
  | str | repr => exact Numeral.denotes_decimal n
  | percent _ hform =>
    simp only [integerFormats, List.mem_cons, Prod.mk.injEq, List.not_mem_nil, or_false] at hform
    obtain ⟨-, rfl, rfl⟩ | ⟨-, rfl, rfl⟩ | ⟨-, rfl, rfl⟩ := hform
    · exact Numeral.denotes_decimal n
    · exact Numeral.denotes_decimal n
    · exact Numeral.denotes_hexadecimal n

theorem Prints.injective {heap : Heap} (h : Prints code ctx heap base form print)
    (hb : 0 < base) : Function.Injective form := by
  intro n m hnm
  have hn := Numeral.parse_of_denotes hb (h.denotes n)
  have hm := Numeral.parse_of_denotes hb (h.denotes m)
  rw [Integer.checked_toInt] at hn hm
  rw [hnm, hm] at hn
  exact (Except.ok.inj hn).symm

theorem Frame.prints (f : Frame [] s s') (h : Prints code ctx s.heap base form print) :
    Prints code ctx s'.heap base form print := by
  cases h with
  | str hc => exact .str (f.keep hc)
  | repr hc => exact .repr (f.keep hc)
  | percent ht hform => exact .percent (f.isText ht) hform

/-- A format that is one conversion is filled with what the conversion makes. -/
theorem percentFormat_conversion {c : Char} {convert : Handle → Query String}
    (hv : s.heap.Has v (.int n)) (hc : Heap.conversion? c = some convert) (hne : c ≠ '%')
    (hform : convert v s.heap = .ok text) :
    Heap.percentFormat (String.ofList ['%', c]) v s.heap = .ok text := by
  rw [Heap.percentFormat, Heap.bind_of_ok (Heap.get_eq_ok.2 hv.2)]
  show Heap.fill "" (String.ofList ['%', c]).toList [v] s.heap = _
  rw [String.toList_ofList, Heap.fill.eq_7 _ _ _ _ _ _ hne hc, Heap.bind_of_ok hform, Heap.fill,
    String.empty_append]
  rfl

theorem percentFormat_integer (hv : s.heap.Has v (.int n))
    (hform : (text, base, form) ∈ integerFormats) :
    Heap.percentFormat text v s.heap = .ok (form n) := by
  have hint := Heap.expectInt_int hv
  simp only [integerFormats, List.mem_cons, Prod.mk.injEq, List.not_mem_nil, or_false] at hform
  obtain ⟨rfl, -, rfl⟩ | ⟨rfl, -, rfl⟩ | ⟨rfl, -, rfl⟩ := hform
  · exact percentFormat_conversion hv rfl (by decide) (Heap.bind_of_ok (hint "%d format"))
  · exact percentFormat_conversion hv rfl (by decide) (Heap.bind_of_ok (hint "%d format"))
  · exact percentFormat_conversion hv rfl (by decide) (Heap.bind_of_ok (hint "%x format"))

theorem Prints.makes (h : Prints code ctx s.heap base form print) (i : s.Steady)
    (hv : s.heap.Has v (.int n)) :
    ∃ t s', print v s = .ok t s' ∧ Frame [] s s' ∧ s'.heap.Has t (.str (form n) none) := by
  have hargs : ∀ a ∈ [v], s.heap.isLive a = true := List.forall_mem_singleton.2 hv.1
  cases h with
  | str hc =>
    obtain ⟨s₁, f₁, h₁⟩ := callWith_type code ctx i hc hargs
    obtain ⟨t, s₂, h₂, f₂, ht⟩ := newStr_frame f₁.steady (Numeral.decimal n)
    refine ⟨t, s₂, h₁.trans ?_, f₁.again f₂, ht⟩
    show ((liftM (Heap.str v) : Action String) >>= newStr) s₁ = _
    rw [ask_bind_of_ok (Heap.str_int (f₁.keep hv)), h₂]
  | repr hc =>
    obtain ⟨s₁, f₁, h₁⟩ := callWith_builtin code ctx i hc hargs
    obtain ⟨t, s₂, h₂, f₂, ht⟩ := newStr_frame f₁.steady (Numeral.decimal n)
    refine ⟨t, s₂, h₁.trans ?_, f₁.again f₂, ht⟩
    show ((liftM (Heap.repr v) : Action String) >>= newStr) s₁ = _
    rw [ask_bind_of_ok (Heap.repr_int (f₁.keep hv)), h₂]
  | percent ht hform =>
    obtain ⟨t, s', hs', f, hnew⟩ := newStr_frame i (form n)
    obtain ⟨hash?, ht⟩ := ht
    refine ⟨t, s', ?_, f, hnew⟩
    show binary .mod _ v s = _
    rw [binary, get_bind_of_has ht, get_bind_of_has hv]
    show ((liftM (Heap.percentFormat _ v) : Action String) >>= newStr) s = _
    rw [ask_bind_of_ok (percentFormat_integer hv hform), hs']

end Space

open Space

variable {settings : Settings} {disk : Disk} {s : Space} {v callee ctx : Handle}
  {rest : List Handle} {base : ℕ} {code : Code} {form : Int64 → String}
  {print : Handle → Action Handle} {n : Int64}

/-- **Printed integers.** Whatever way an integer is printed, `int` reads it again; and the texts of
two integers are equal if the integers are the same, and not otherwise. -/
theorem integers_printed (r : LiveRun settings disk s)
    (hprint : Prints code ctx s.heap base form print) (hcallee : s.heap.Has callee (.type .int))
    (hbase : IsBase s.heap rest base) (hv : s.heap.Has v (.int n)) :
    ∃ t s₁, print v s = .ok t s₁ ∧
      (∃ w s₂, callWith code ctx callee (t :: rest) s₁ = .ok w s₂ ∧ s₂.heap.Has w (.int n)) ∧
      ∀ u m, s.heap.Has u (.int m) → ∃ t' s₂, print u s₁ = .ok t' s₂ ∧
        Heap.equal t t' s₂.heap = .ok (decide (n = m)) := by
  obtain ⟨t, s₁, hs₁, f₁, ht⟩ := hprint.makes (steady_of_liveRun r) hv
  refine ⟨t, s₁, hs₁, ?_, fun u m hu => ?_⟩
  · obtain ⟨s₂, f₂, hs₂⟩ := callWith_int code ctx f₁.steady (f₁.keep hcallee) ⟨none, ht⟩
      (f₁.isBase hbase)
    have hread := Numeral.parse_of_denotes hbase.pos (hprint.denotes n)
    rw [Integer.checked_toInt] at hread
    obtain ⟨w, s₃, hs₃, -, hw⟩ := newInt_frame f₂.steady n
    exact ⟨w, s₃, by rw [hs₂, check_bind_of_ok hread, hs₃], hw⟩
  · obtain ⟨t', s₂, hs₂, f₂, ht'⟩ := (f₁.prints hprint).makes f₁.steady (f₁.keep hu)
    have hforms : form n = form m ↔ n = m := (hprint.injective hbase.pos).eq_iff
    refine ⟨t', s₂, hs₂, Heap.equal_of_sameContent (f₂.keep ht).2 ht'.2 (fun _ => ?_) ?_⟩
    · rw [← decide_eq_decide.2 hforms]
      rfl
    · rintro rfl
      have hsame := Object.str.inj ((f₂.keep ht).unique ht')
      exact decide_eq_true (hforms.1 hsame.1)

theorem integers_printed_least :
    ∃ s format callee v b, LiveRun {} {} s ∧ IsText s.heap format "%x" ∧
      s.heap.Has callee (.type .int) ∧ s.heap.Has v (.int Int64.minValue) ∧
      s.heap.Has b (.int 16) ∧ ∃ t s₁, binary .mod format v s = .ok t s₁ ∧ ∃ w s₂,
        callWith noCode s.noneValue callee [t, b] s₁ = .ok w s₂ ∧
          s₂.heap.Has w (.int Int64.minValue) := by
  obtain ⟨s₀, h₀⟩ := create_ok {} rfl {}
  obtain ⟨format, s₁, r₁, f₁, hformat⟩ := (LiveRun.start h₀).newStr "%x"
  obtain ⟨v, s₂, r₂, f₂, hv⟩ := r₁.newInt Int64.minValue
  obtain ⟨b, s, r, f₃, hb⟩ := r₂.newInt 16
  have hformat := f₃.isText (f₂.isText hformat)
  have hcallee : s.heap.Has _ (.type .int) := (steady_of_liveRun r).types Kind.int.index
  have hprint : Prints noCode s.noneValue s.heap 16 Numeral.hexadecimal (binary .mod format) :=
    .percent hformat (by simp [integerFormats])
  have hbase : IsBase s.heap [b] 16 := .given hb rfl (by decide) (by decide) (by decide)
  obtain ⟨t, s', ht, hread, -⟩ := integers_printed r hprint hcallee hbase (f₃.keep hv)
  exact ⟨s, format, _, v, b, r, hformat, hcallee, f₃.keep hv, hb, t, s', ht, hread⟩

end ObjectSpace
