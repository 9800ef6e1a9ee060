import ObjectSpace.Proofs.Execution.TextForms

/-!
# Filled formats

A format is a text in which a percent sign and a letter stand for the text of an argument, and two
percent signs for one. Its parts are characters, percent signs and conversions, and it is made of
them in one way only (`FormatPart.spelling_unique`).

**Theorem (`fill_eq_ok`).** What reads the format and takes the arguments at once gives the parts
of a format one after the other, each conversion with the next argument (`Filled`).

**Theorem (`formats_filled`).** In a run that is so if and only if the arguments suit the
conversions (`Suit`): there are as many, and an integer or a Boolean stands where a number is asked
for. Text forms are never what is missing.
-/

namespace ObjectSpace

/-! ## Formats -/

/-- The conversions of a format. -/
inductive Conversion where
  | str
  | repr
  | decimal
  | integer
  | hexadecimal
  deriving DecidableEq

namespace Conversion

/-- The character that stands for a conversion. -/
def letter : Conversion → Char
  | str => 's'
  | repr => 'r'
  | decimal => 'd'
  | integer => 'i'
  | hexadecimal => 'x'

theorem letter_ne (c : Conversion) : c.letter ≠ '%' := by
  cases c <;> decide

theorem letter_injective {c d : Conversion} : c.letter = d.letter → c = d := by
  cases c <;> cases d <;> decide

/-- Whether a conversion is of integers. -/
def Numeric : Conversion → Prop
  | str | repr => False
  | decimal | integer | hexadecimal => True

end Conversion

/-- A part of a format. -/
inductive FormatPart where
  | plain (c : Char) (h : c ≠ '%')
  | percent
  | conversion (c : Conversion)

namespace FormatPart

/-- The characters of a part. -/
def spelling : FormatPart → List Char
  | plain c _ => [c]
  | percent => ['%', '%']
  | conversion c => ['%', c.letter]

/-- The conversion that a part is. -/
def conversion? : FormatPart → Option Conversion
  | plain .. | percent => none
  | conversion c => some c

/-- A format is made of its parts in one way only. -/
theorem spelling_unique {parts parts' : List FormatPart}
    (h : parts.flatMap spelling = parts'.flatMap spelling) : parts = parts' := by
  induction parts generalizing parts' with
  | nil =>
    cases parts' with
    | nil => rfl
    | cons p parts' => cases p <;> cases h
  | cons p parts ih =>
    cases parts' with
    | nil => cases p <;> cases h
    | cons q parts' =>
      have htail : p = q ∧ parts.flatMap spelling = parts'.flatMap spelling := by
        cases p with
        | plain c hc =>
          cases q with
          | plain d hd =>
            obtain ⟨rfl, hrest⟩ := List.cons.inj h
            exact ⟨rfl, hrest⟩
          | percent | conversion => exact absurd (List.cons.inj h).1 hc
        | percent =>
          cases q with
          | plain d hd => exact absurd (List.cons.inj h).1.symm hd
          | percent => exact ⟨rfl, (List.cons.inj (List.cons.inj h).2).2⟩
          | conversion d => exact absurd (List.cons.inj (List.cons.inj h).2).1.symm d.letter_ne
        | conversion c =>
          cases q with
          | plain d hd => exact absurd (List.cons.inj h).1.symm hd
          | percent => exact absurd (List.cons.inj (List.cons.inj h).2).1 c.letter_ne
          | conversion d =>
            obtain ⟨hletter, hrest⟩ := List.cons.inj (List.cons.inj h).2
            exact ⟨congrArg conversion (Conversion.letter_injective hletter), hrest⟩
      rw [htail.1, ih htail.2]

end FormatPart

namespace Heap

/-- A value is an integer, or a Boolean that stands for one. -/
inductive Counts (heap : Heap) (v : Handle) : Int64 → Prop
  | int {n : Int64} : heap.get? v = some (.int n) → Counts heap v n
  | bool {b : Bool} : heap.get? v = some (.bool b) → Counts heap v (if b then 1 else 0)

/-- A conversion gives a text for a value. -/
def Gives (heap : Heap) (c : Conversion) (v : Handle) (text : String) : Prop :=
  match c with
  | .str => str v heap = .ok text
  | .repr => repr v heap = .ok text
  | .decimal | .integer => ∃ n, heap.Counts v n ∧ Numeral.decimal n = text
  | .hexadecimal => ∃ n, heap.Counts v n ∧ Numeral.hexadecimal n = text

/-- The text of a value by a conversion. -/
def convert : Conversion → Handle → Query String
  | .str => str
  | .repr => repr
  | .decimal | .integer => fun v => return Numeral.decimal (← expectInt v "%d format")
  | .hexadecimal => fun v => return Numeral.hexadecimal (← expectInt v "%x format")

/-- A format filled with arguments, one for each conversion, in their order. -/
inductive Filled (heap : Heap) : List FormatPart → List Handle → String → Prop
  | nil : Filled heap [] [] ""
  | plain {c : Char} {h : c ≠ '%'} {parts : List FormatPart} {args : List Handle} {text : String} :
      Filled heap parts args text → Filled heap (.plain c h :: parts) args (.singleton c ++ text)
  | percent {parts : List FormatPart} {args : List Handle} {text : String} :
      Filled heap parts args text → Filled heap (.percent :: parts) args ("%" ++ text)
  | conversion {c : Conversion} {parts : List FormatPart} {v : Handle} {args : List Handle}
      {shown text : String} : heap.Gives c v shown → Filled heap parts args text →
      Filled heap (.conversion c :: parts) (v :: args) (shown ++ text)

/-- The arguments that a value stands for: the elements of a tuple, or the value itself. -/
inductive Arguments (heap : Heap) (v : Handle) : List Handle → Prop
  | tuple {items : Array Handle} : heap.get? v = some (.tuple items) →
      Arguments heap v items.toList
  | single {o : Object} : heap.get? v = some o → (∀ items, o ≠ .tuple items) →
      Arguments heap v [v]

theorem Arguments.unique {heap : Heap} {v : Handle} {args args' : List Handle}
    (h : Arguments heap v args) (h' : Arguments heap v args') : args = args' := by
  cases h with
  | tuple ho =>
    cases h' with
    | tuple ho' =>
      obtain rfl := Object.tuple.inj (Option.some.inj (ho.symm.trans ho'))
      rfl
    | single ho' hne => exact absurd (Option.some.inj (ho'.symm.trans ho)) (hne _)
  | single ho hne =>
    cases h' with
    | tuple ho' => exact absurd (Option.some.inj (ho.symm.trans ho')) (hne _)
    | single => rfl

/-- The values suit the conversions: there are as many, and where an integer is asked for there is
one. -/
def Suit (heap : Heap) (parts : List FormatPart) (args : List Handle) : Prop :=
  (parts.filterMap FormatPart.conversion?).length = args.length ∧
    ∀ p ∈ (parts.filterMap FormatPart.conversion?).zip args,
      p.1.Numeric → ∃ n, heap.Counts p.2 n

section Filling

variable {heap : Heap} {v : Handle} {args : List Handle} {done text out : String}
  {parts : List FormatPart} {c : Conversion}

theorem counts_iff {n : Int64} :
    heap.Counts v n ↔ ∃ o, heap.get? v = some o ∧ o.asInt? = some n := by
  constructor
  · rintro (h | h)
    · exact ⟨_, h, rfl⟩
    · exact ⟨_, h, rfl⟩
  · rintro ⟨o, ho, hn⟩
    cases o with
    | int m =>
      obtain rfl := Option.some.inj hn
      exact .int ho
    | bool b =>
      obtain rfl := Option.some.inj hn
      exact .bool ho
    | _ => cases hn

theorem expectInt_eq_ok {name : String} {n : Int64} :
    expectInt v name heap = .ok n ↔ heap.Counts v n := by
  rw [counts_iff, expectInt, bind_eq_ok]
  constructor
  · rintro ⟨m?, hm, h⟩
    obtain ⟨o, ho, hpure⟩ := bind_eq_ok.1 hm
    obtain rfl := pure_eq_ok.1 hpure
    refine ⟨o, get_eq_ok.1 ho, ?_⟩
    cases hn : o.asInt? with
    | none =>
      rw [hn] at h
      exact absurd h (refuses_badArgument name "int" v heap n)
    | some m =>
      rw [hn] at h
      rw [pure_eq_ok.1 h]
  · rintro ⟨o, ho, hn⟩
    refine ⟨some n, bind_eq_ok.2 ⟨o, get_eq_ok.2 ho, ?_⟩, rfl⟩
    rw [hn]
    rfl

theorem numeral_eq_ok {name : String} {form : Int64 → String} :
    (do return form (← expectInt v name) : Query String) heap = .ok text ↔
      ∃ n, heap.Counts v n ∧ form n = text := by
  rw [bind_eq_ok]
  simp only [expectInt_eq_ok, pure_eq_ok]

theorem convert_eq_ok : convert c v heap = .ok text ↔ heap.Gives c v text := by
  cases c with
  | str | repr => exact Iff.rfl
  | decimal | integer | hexadecimal => exact numeral_eq_ok

theorem conversion?_eq_some {l : Char} {f : Handle → Query String} :
    conversion? l = some f ↔ ∃ c : Conversion, c.letter = l ∧ convert c = f := by
  constructor
  · intro h
    unfold conversion? at h
    split at h
    · exact ⟨.str, rfl, Option.some.inj h⟩
    · exact ⟨.repr, rfl, Option.some.inj h⟩
    · exact ⟨.decimal, rfl, Option.some.inj h⟩
    · exact ⟨.integer, rfl, Option.some.inj h⟩
    · exact ⟨.hexadecimal, rfl, Option.some.inj h⟩
    · cases h
  · rintro ⟨c, rfl, rfl⟩
    cases c <;> rfl

/-- **Filling.** What a format is filled to is its parts in their order. -/
theorem fill_eq_ok {format : List Char} :
    fill done format args heap = .ok out ↔ ∃ parts text,
      parts.flatMap FormatPart.spelling = format ∧ Filled heap parts args text ∧
        out = done ++ text := by
  constructor
  · intro h
    fun_induction fill done format args with
    | case1 done =>
      obtain rfl := pure_eq_ok.1 h
      exact ⟨[], "", rfl, .nil, String.append_empty.symm⟩
    | case2 | case4 | case5 | case6 => cases h
    | case3 done rest args ih =>
      obtain ⟨parts, text, rfl, hfilled, rfl⟩ := ih h
      refine ⟨.percent :: parts, _, rfl, .percent hfilled, ?_⟩
      rw [String.push_eq_append, String.append_assoc]
      rfl
    | case7 done c rest hc f v args hf ih =>
      obtain ⟨shown, hshown, hrest⟩ := bind_eq_ok.1 h
      obtain ⟨c, rfl, rfl⟩ := conversion?_eq_some.1 hf
      obtain ⟨parts, text, rfl, hfilled, rfl⟩ := ih shown hrest
      exact ⟨.conversion c :: parts, _, rfl, .conversion (convert_eq_ok.1 hshown) hfilled,
        String.append_assoc ..⟩
    | case8 done c rest args h₁ h₂ h₃ ih =>
      obtain ⟨parts, text, rfl, hfilled, rfl⟩ := ih h
      have hc : c ≠ '%' := by
        intro hc
        cases hrest : parts.flatMap FormatPart.spelling with
        | nil => exact h₂ hc hrest
        | cons c' rest => exact h₃ c' rest hc hrest
      refine ⟨.plain c hc :: parts, _, rfl, .plain hfilled, ?_⟩
      rw [String.push_eq_append, String.append_assoc]
  · rintro ⟨parts, text, rfl, hfilled, rfl⟩
    induction hfilled generalizing done with
    | nil => exact congrArg Except.ok String.append_empty.symm
    | @plain c hc parts args text _ ih =>
      rw [List.flatMap_cons, ← String.append_assoc, String.append_singleton]
      have hfill := fill.eq_8 done args c (parts.flatMap FormatPart.spelling)
        (fun _ h => absurd h hc) (fun h => absurd h hc) fun _ _ h => absurd h hc
      exact (congrFun hfill heap).trans ih
    | percent _ ih =>
      rw [List.flatMap_cons, ← String.append_assoc]
      exact ih
    | @conversion c parts v args shown text hgives _ ih =>
      rw [List.flatMap_cons, ← String.append_assoc]
      have hfill := fill.eq_7 done c.letter (parts.flatMap FormatPart.spelling) _ v args
        c.letter_ne (conversion?_eq_some.2 ⟨c, rfl, rfl⟩)
      refine (congrFun hfill heap).trans ?_
      rw [bind_of_ok (convert_eq_ok.2 hgives)]
      exact ih

/-- A value has a text by a conversion if it has text forms and, where an integer is asked for, is
one. -/
theorem exists_gives_iff (hstr : ∃ t, str v heap = .ok t) (hrepr : ∃ t, repr v heap = .ok t) :
    (∃ t, heap.Gives c v t) ↔ (c.Numeric → ∃ n, heap.Counts v n) := by
  cases c with
  | str => exact ⟨fun _ h => h.elim, fun _ => hstr⟩
  | repr => exact ⟨fun _ h => h.elim, fun _ => hrepr⟩
  | decimal | integer | hexadecimal =>
    exact ⟨fun ⟨_, n, hn, _⟩ _ => ⟨n, hn⟩, fun h => ⟨_, (h trivial).choose,
      (h trivial).choose_spec, rfl⟩⟩

/-- **Arguments.** A format can be filled with the values that suit it, and with no others. -/
theorem exists_filled_iff
    (hargs : ∀ v ∈ args, (∃ t, str v heap = .ok t) ∧ ∃ t, repr v heap = .ok t) :
    (∃ text, Filled heap parts args text) ↔ Suit heap parts args := by
  induction parts generalizing args with
  | nil =>
    constructor
    · rintro ⟨_, ⟨⟩⟩
      exact ⟨rfl, List.forall_mem_nil _⟩
    · rintro ⟨hlength, -⟩
      obtain rfl := List.eq_nil_of_length_eq_zero hlength.symm
      exact ⟨_, .nil⟩
  | cons p parts ih =>
    cases p with
    | plain d hd =>
      refine Iff.trans ⟨?_, ?_⟩ (ih hargs)
      · rintro ⟨_, h⟩
        cases h with
        | plain h => exact ⟨_, h⟩
      · rintro ⟨_, h⟩
        exact ⟨_, .plain h⟩
    | percent =>
      refine Iff.trans ⟨?_, ?_⟩ (ih hargs)
      · rintro ⟨_, h⟩
        cases h with
        | percent h => exact ⟨_, h⟩
      · rintro ⟨_, h⟩
        exact ⟨_, .percent h⟩
    | conversion d =>
      cases args with
      | nil =>
        constructor
        · rintro ⟨_, h⟩
          cases h
        · rintro ⟨hlength, -⟩
          cases hlength
      | cons v args =>
        obtain ⟨⟨hstr, hrepr⟩, hargs⟩ := List.forall_mem_cons.1 hargs
        have hgives : (∃ t, heap.Gives d v t) ↔ (d.Numeric → ∃ n, heap.Counts v n) :=
          exists_gives_iff hstr hrepr
        constructor
        · rintro ⟨_, h⟩
          cases h with
          | conversion hshown h =>
            obtain ⟨hlength, hints⟩ := (ih hargs).1 ⟨_, h⟩
            exact ⟨congrArg Nat.succ hlength,
              List.forall_mem_cons.2 ⟨hgives.1 ⟨_, hshown⟩, hints⟩⟩
        · rintro ⟨hlength, hints⟩
          obtain ⟨hint, hints⟩ := List.forall_mem_cons.1 hints
          obtain ⟨shown, hshown⟩ := hgives.2 hint
          obtain ⟨text, h⟩ := (ih hargs).2 ⟨Nat.succ.inj hlength, hints⟩
          exact ⟨_, .conversion hshown h⟩

/-- **Formats.** A format that is filled with a value is filled with its arguments. -/
theorem percentFormat_eq_ok {format : String} :
    percentFormat format v heap = .ok out ↔ ∃ parts args,
      parts.flatMap FormatPart.spelling = format.toList ∧ Arguments heap v args ∧
        Filled heap parts args out := by
  rw [percentFormat, bind_eq_ok]
  simp only [get_eq_ok]
  constructor
  · rintro ⟨o, ho, h⟩
    split at h
    · obtain ⟨parts, text, hspelled, hfilled, rfl⟩ := fill_eq_ok.1 h
      exact ⟨parts, _, hspelled, .tuple ho, by rwa [String.empty_append]⟩
    · rename_i hne
      obtain ⟨parts, text, hspelled, hfilled, rfl⟩ := fill_eq_ok.1 h
      exact ⟨parts, _, hspelled, .single ho hne, by rwa [String.empty_append]⟩
  · rintro ⟨parts, args, hspelled, hargs, hfilled⟩
    have hfill := fill_eq_ok.2 ⟨parts, out, hspelled, hfilled, String.empty_append.symm⟩
    cases hargs with
    | tuple ho => exact ⟨_, ho, hfill⟩
    | @single o ho hne =>
      refine ⟨o, ho, ?_⟩
      split
      · exact absurd rfl (hne _)
      · exact hfill

end Filling

end Heap

/-! ## Formats in runs -/

open Heap (Arguments Filled Suit)

namespace Space.Firm

variable {s : Space} {v : Handle} {format : String} {E : Prop} (i : s.Firm)

include i

theorem calm_conversion? {l : Char} {convert : Handle → Query String}
    (h : Heap.conversion? l = some convert) (hv : s.heap.isLive v = true) :
    s.heap.Calm E (convert v) := by
  obtain ⟨c, -, rfl⟩ := Heap.conversion?_eq_some.1 h
  cases c with
  | str => exact i.calm_str hv
  | repr => exact i.calm_repr hv
  | decimal | integer | hexadecimal => exact .bind (i.calm_expectInt hv) fun _ _ => .pure _

theorem calm_fill {done : String} {cs : List Char} {args : List Handle}
    (hargs : ∀ a ∈ args, s.heap.isLive a = true) : s.heap.Calm E (Heap.fill done cs args) := by
  fun_induction Heap.fill done cs args with
  | case1 => exact .pure _
  | case2 | case4 | case5 | case6 => exact .fatal _
  | case3 _ _ _ ih => exact ih hargs
  | case7 _ _ _ _ _ v args hconvert ih =>
    obtain ⟨hv, hargs⟩ := List.forall_mem_cons.1 hargs
    exact .bind (i.calm_conversion? hconvert hv) fun text _ => ih text hargs
  | case8 _ _ _ _ _ _ _ ih => exact ih hargs

theorem str_total (hv : s.heap.isLive v = true) : ∃ text, Heap.str v s.heap = .ok text := by
  obtain ⟨o, ho, -⟩ := i.sound.get? hv
  rw [Heap.str, Heap.bind_of_ok (Heap.get_eq_ok.2 ho)]
  split
  · exact ⟨_, rfl⟩
  · exact i.repr_total hv

theorem arguments_total (hv : s.heap.isLive v = true) :
    ∃ args, Arguments s.heap v args ∧ ∀ a ∈ args, s.heap.isLive a = true := by
  obtain ⟨o, ho, hlive⟩ := i.sound.get? hv
  by_cases htuple : ∃ items, o = .tuple items
  · obtain ⟨items, rfl⟩ := htuple
    exact ⟨_, .tuple ho, hlive⟩
  · exact ⟨_, .single ho fun items h => htuple ⟨items, h⟩, List.forall_mem_singleton.2 hv⟩

theorem calm_percentFormat (hv : s.heap.isLive v = true) :
    s.heap.Calm E (Heap.percentFormat format v) := by
  obtain ⟨o, ho, hlive⟩ := i.sound.get? hv
  refine .get_bind ho ?_
  split
  · exact i.calm_fill hlive
  · exact i.calm_fill (List.forall_mem_singleton.2 hv)

/-- A format is filled just where its conversions suit the arguments. -/
theorem exists_filled_iff {parts : List FormatPart} {args : List Handle}
    (hargs : ∀ a ∈ args, s.heap.isLive a = true) :
    (∃ out, Filled s.heap parts args out) ↔ Suit s.heap parts args :=
  Heap.exists_filled_iff fun a ha => ⟨i.str_total (hargs a ha), i.repr_total (hargs a ha)⟩

end Space.Firm

open Space

variable {settings : Settings} {disk : Disk} {s : Space} {f v : Handle} {format : String}

theorem Space.binary_mod (hf : IsText s.heap f format) {o : Object} (hv : s.heap.Has v o) :
    binary .mod f v s = ((liftM (Heap.percentFormat format v) : Action String) >>= newStr) s := by
  obtain ⟨hash?, hf⟩ := hf
  rw [binary, get_bind_of_has hf, get_bind_of_has hv]
  cases o <;> rfl

/-- **Formats.** A value stands for its arguments. A format that is made of parts is filled with
them if and only if they suit its conversions, and then to its parts in their order. Other formats
are refused, and what refuses is a diagnostic. The operator on a text makes a new text of what the
text is filled to. -/
theorem formats_filled (r : LiveRun settings disk s) (hv : s.heap.isLive v = true)
    (format : String) :
    ∃ args, Arguments s.heap v args ∧
      (∀ parts : List FormatPart, parts.flatMap FormatPart.spelling = format.toList →
        ((∃ out, Heap.percentFormat format v s.heap = .ok out) ↔ Suit s.heap parts args) ∧
        ∀ out, Heap.percentFormat format v s.heap = .ok out ↔ Filled s.heap parts args out) ∧
      (∀ out, Heap.percentFormat format v s.heap = .ok out →
        ∃ parts : List FormatPart, parts.flatMap FormatPart.spelling = format.toList) ∧
      (∀ e, Heap.percentFormat format v s.heap = .error e → ∃ d, e = .fatal d) ∧
      ∀ f, IsText s.heap f format →
        (∀ out, Heap.percentFormat format v s.heap = .ok out →
          s.Makes (binary .mod f v) (.str out none)) ∧
        ∀ e, Heap.percentFormat format v s.heap = .error e → binary .mod f v s = .error e s := by
  have i := r.firm
  obtain ⟨o, ho, -⟩ := i.sound.get? hv
  obtain ⟨args, hargs, hlive⟩ := i.arguments_total hv
  have hfilled : ∀ parts : List FormatPart, parts.flatMap FormatPart.spelling = format.toList →
      ∀ out, Heap.percentFormat format v s.heap = .ok out ↔ Filled s.heap parts args out := by
    intro parts hspelled out
    rw [Heap.percentFormat_eq_ok]
    constructor
    · rintro ⟨parts', args', hspelled', hargs', h⟩
      obtain rfl := hargs.unique hargs'
      obtain rfl := FormatPart.spelling_unique (hspelled.trans hspelled'.symm)
      exact h
    · exact fun h => ⟨parts, args, hspelled, hargs, h⟩
  refine ⟨args, hargs, fun parts hspelled => ⟨?_, hfilled parts hspelled⟩, fun out hout => ?_,
    fun e he => ?_, fun f hf => ⟨fun out hout => ?_, fun e he => ?_⟩⟩
  · simp only [hfilled parts hspelled]
    exact i.exists_filled_iff hlive
  · obtain ⟨parts, -, hspelled, -⟩ := Heap.percentFormat_eq_ok.1 hout
    exact ⟨parts, hspelled⟩
  · cases (i.calm_percentFormat (E := False) hv).proper e he with
    | fatal d => exact ⟨d, rfl⟩
    | endless h => exact h.elim
  · refine (makes_newStr (steady_of_liveRun r) out).of_eq ?_
    rw [binary_mod hf ⟨hv, ho⟩, ask_bind_of_ok hout]
  · rw [binary_mod hf ⟨hv, ho⟩]
    exact bind_of_error (ask_of_error he)

/-- A hexadecimal number and a percent sign; a tuple with one argument too many is refused. -/
theorem formats_filled_hexadecimal :
    ∃ s v pair, LiveRun {} {} s ∧ s.heap.Has v (.int (-255)) ∧ s.heap.Has pair (.tuple #[v, v]) ∧
      Heap.percentFormat "%x%%" v s.heap = .ok "-ff%" ∧
      ∃ d, Heap.percentFormat "%x%%" pair s.heap = .error (.fatal d) := by
  obtain ⟨s₀, h₀⟩ := Space.create_ok {} rfl {}
  obtain ⟨v, s₁, r₁, -, hv⟩ := (LiveRun.start h₀).newInt (-255)
  have hlive : ∀ g ∈ (#[v, v] : Array Handle).toList, s₁.heap.isLive g = true := by
    simpa using hv.1
  obtain ⟨pair, s, r, f, hpair⟩ := r₁.making (.newTuple #[v, v]) rfl hlive
    (makes_newTuple (steady_of_liveRun r₁) hlive)
  replace hv := f.keep hv
  have hspelled : [FormatPart.conversion .hexadecimal, .percent].flatMap FormatPart.spelling =
      "%x%%".toList := by decide
  refine ⟨s, v, pair, r, hv, hpair, ?_, ?_⟩
  · obtain ⟨args, hargs, hparts, -⟩ := formats_filled r hv.1 "%x%%"
    obtain rfl := hargs.unique (.single hv.2 nofun)
    refine ((hparts _ hspelled).2 _).2 ?_
    have hshown : s.heap.Gives .hexadecimal v "-ff" := ⟨-255, .int hv.2, by decide +kernel⟩
    exact .conversion hshown (.percent .nil)
  · obtain ⟨args, hargs, hparts, -, hfatal, -⟩ := formats_filled r hpair.1 "%x%%"
    obtain rfl := hargs.unique (.tuple hpair.2)
    cases hformat : Heap.percentFormat "%x%%" pair s.heap with
    | ok out =>
      obtain ⟨hlength, -⟩ := (hparts _ hspelled).1.1 ⟨out, hformat⟩
      cases hlength
    | error e =>
      obtain ⟨d, rfl⟩ := hfatal e hformat
      exact ⟨d, rfl⟩

end ObjectSpace
