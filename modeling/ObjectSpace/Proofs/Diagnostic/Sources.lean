import ObjectSpace.Builtin
import ObjectSpace.Heap
import ObjectSpace.Method
import ObjectSpace.Operator
import ObjectSpace.Proofs.Text.Literals
import ObjectSpace.Text.Case

/-!
# What a message is made of

What can break the line of a text. Fixed wordings, numbers and the names of what is built in have no
break, and neither have the literals of texts and bytes, because they escape it. A text is
`Composed` of such lines and of parts from elsewhere; a break in it is one of those parts'
(`Composed.oneLine_iff`).

The message of a diagnostic is composed of lines, of names, and of the texts that the diagnostic
quotes. Names of classes and functions and paths of files are what a value or a type is mentioned by
in any message. Texts are what a program works with; of these a message shows the literal, which is
a line, except for the diagnostics that `Diagnostic.Quotes` lists: they show the text as it is.

So a message has a break only where a name or a quoted text has one (`Sources.Accounts.oneLine`).
-/

namespace ObjectSpace

/-! ## Lines -/

/-- A text without line feed and carriage return. -/
def OneLine (s : String) : Prop := ∀ c ∈ s.toList, c ≠ '\n' ∧ c ≠ '\r'

theorem unbroken_of_all {l : List Char} (h : l.all (fun c => c != '\n' && c != '\r') = true) :
    ∀ c ∈ l, c ≠ '\n' ∧ c ≠ '\r' := fun c hc => by
  simpa using List.all_eq_true.1 h c hc

namespace OneLine

variable {s t : String}

theorem ofList {l : List Char} (h : l.all (fun c => c != '\n' && c != '\r') = true) :
    OneLine (String.ofList l) := by
  intro c hc
  rw [String.toList_ofList] at hc
  exact unbroken_of_all h c hc

theorem append (hs : OneLine s) (ht : OneLine t) : OneLine (s ++ t) := by
  intro c hc
  rw [String.toList_append] at hc
  exact (List.mem_append.1 hc).elim (hs c) (ht c)

theorem of_infix (ht : OneLine t) (h : s.toList <:+: t.toList) : OneLine s :=
  fun c hc => ht c (h.subset hc)

theorem of_number (h : ∀ c ∈ s.toList, c.isDigit = true ∨ c = '-') : OneLine s := by
  intro c hc
  rcases h c hc with hc | rfl
  · constructor <;> (rintro rfl; revert hc; decide)
  · decide

end OneLine

/-! ## Numbers and literals -/

theorem isDigit_of_mem_toDigits {n : Nat} {c : Char} (hc : c ∈ Nat.toDigits 10 n) :
    c.isDigit = true :=
  Nat.isDigit_of_mem_toDigits (by decide) (by decide) hc

theorem oneLine_nat (n : Nat) : OneLine (toString n) := by
  refine .of_number fun c hc => .inl (isDigit_of_mem_toDigits (n := n) ?_)
  rwa [← Nat.toList_repr]

theorem oneLine_decimal (n : Int64) : OneLine (Numeral.decimal n) := by
  obtain ⟨sign, hn, hsign⟩ := Numeral.toList_decimal n
  refine .of_number fun c hc => ?_
  rw [hn, List.mem_append] at hc
  rcases hc with hc | hc
  · rcases hsign with ⟨rfl, -⟩ | ⟨rfl, -⟩
    · cases hc
    · exact .inr (List.mem_singleton.1 hc)
  · exact .inl (isDigit_of_mem_toDigits hc)

namespace Literal

theorem hexEscape_breaks {n : Nat} (hn : n < 256) : ∀ c ∈ hexEscape n, c ≠ '\n' ∧ c ≠ '\r' := by
  have hall : ∀ n < 256, (hexEscape n).all (fun c => c != '\n' && c != '\r') = true := by
    decide +kernel
  exact unbroken_of_all (hall n hn)

/-- Line feed and carriage return are among the characters that all literals escape. -/
theorem escape_breaks {quote c d : Char} {plain : List Char} (hq : quote = '\'' ∨ quote = '"')
    (hp : c ≠ '\n' → c ≠ '\r' → ∀ d ∈ plain, d ≠ '\n' ∧ d ≠ '\r')
    (hd : d ∈ (escape? quote c).getD plain) : d ≠ '\n' ∧ d ≠ '\r' := by
  unfold escape? at hd
  split_ifs at hd with h₁ h₂ h₃ h₄ h₅ <;> simp only [Option.getD_some, Option.getD_none] at hd
  -- the five escapes, then a character that is not escaped
  · exact unbroken_of_all rfl d hd
  · exact unbroken_of_all rfl d hd
  · exact unbroken_of_all rfl d hd
  · exact unbroken_of_all rfl d hd
  · rw [h₅] at hd
    rcases hq with rfl | rfl <;> exact unbroken_of_all rfl d hd
  · exact hp h₂ h₃ d hd

theorem oneLine_quoted {unit : Char → Char → List Char} {content : List Char}
    (h : ∀ quote, quote = '\'' ∨ quote = '"' → ∀ c ∈ content, ∀ d ∈ unit quote c,
      d ≠ '\n' ∧ d ≠ '\r') : OneLine (String.ofList (quoted unit content)) := by
  have hq := quoteFor_cases content
  have hquote : quoteFor content ≠ '\n' ∧ quoteFor content ≠ '\r' := by
    rcases hq with hq | hq <;> rw [hq] <;> decide
  intro c hc
  simp only [String.toList_ofList, quoted, List.cons_append, List.mem_cons, List.mem_append,
    List.mem_flatMap, List.not_mem_nil, or_false] at hc
  rcases hc with rfl | ⟨d, hd, hc⟩ | rfl
  · exact hquote
  · exact h _ hq d hd c hc
  · exact hquote

/-- The literal of a text is one line, whatever the text is. -/
theorem oneLine_ofText (s : String) : OneLine (ofText s) := by
  refine oneLine_quoted fun quote hq c _ d hd => escape_breaks hq (fun hn hr => ?_) hd
  split_ifs with hc
  · exact hexEscape_breaks (by omega)
  · exact List.forall_mem_singleton.2 ⟨hn, hr⟩

/-- The literal of bytes is one line. -/
theorem oneLine_ofBytes (bs : Array UInt8) : OneLine (ofBytes bs) := by
  have hquoted : OneLine (String.ofList (quoted byteUnit
      (bs.toList.map fun b => Char.ofNat b.toNat))) := by
    refine oneLine_quoted fun quote hq c hc d hd => escape_breaks hq (fun hn hr => ?_) hd
    obtain ⟨b, -, rfl⟩ := List.mem_map.1 hc
    split_ifs
    · rw [toNat_ofByte]
      exact hexEscape_breaks b.toNat_lt
    · exact List.forall_mem_singleton.2 ⟨hn, hr⟩
  intro c hc
  rw [ofBytes, String.toList_ofList] at hc
  rcases List.mem_cons.1 hc with rfl | hc
  · decide
  · exact hquoted c (by rwa [String.toList_ofList])

end Literal

/-! ## Names of what is built in -/

theorem oneLine_kind (k : Kind) : OneLine k.name := by cases k <;> exact .ofList rfl

theorem oneLine_builtin (f : Builtin) : OneLine f.name := by cases f <;> exact .ofList rfl

theorem oneLine_binaryOp (op : BinaryOp) : OneLine op.name := by cases op <;> exact .ofList rfl

theorem oneLine_unaryOp (op : UnaryOp) : OneLine op.name := by cases op <;> exact .ofList rfl

theorem oneLine_comparison (op : Comparison) : OneLine op.name := by cases op <;> exact .ofList rfl

theorem oneLine_methodName (m : Method) : OneLine m.name := by
  rcases m with m | m | m | m | m | _ | m <;> try cases m
  all_goals exact .ofList rfl

theorem oneLine_method (m : Method) : OneLine m.qualifiedName :=
  ((oneLine_kind _).append (.ofList rfl)).append (oneLine_methodName m)

/-! ## Lower case -/

theorem toLower_breaks {c : Char} (h : c ≠ '\n' ∧ c ≠ '\r') :
    c.toLower ≠ '\n' ∧ c.toLower ≠ '\r' := by
  unfold Char.toLower
  split
  case isTrue hc =>
    -- a letter becomes one of code 97 and above
    have h₁ := UInt32.le_iff_toNat_le.1 hc.1
    have h₂ := UInt32.le_iff_toNat_le.1 hc.2
    constructor <;> intro heq <;> replace heq := congrArg (fun c => c.val.toNat) heq <;>
      simp at h₁ h₂ heq <;> omega
  case isFalse => exact h

theorem OneLine.lowerAscii {s : String} (h : OneLine s) : OneLine (Text.lowerAscii s) := by
  intro c hc
  rw [Text.lowerAscii, String.toList_map] at hc
  obtain ⟨d, hd, rfl⟩ := List.mem_map.1 hc
  exact toLower_breaks (h d hd)

/-! ## Composed texts -/

/-- A text that is put together of lines and of the given parts. -/
inductive Composed (parts : String → Prop) : String → Prop
  | line {s : String} (h : OneLine s) : Composed parts s
  | part {s : String} (h : parts s) : Composed parts s
  | append {s t : String} (hs : Composed parts s) (ht : Composed parts t) : Composed parts (s ++ t)

namespace Composed

variable {parts other : String → Prop} {s t : String}

theorem mono (h : Composed parts s) (hp : ∀ p, parts p → other p) : Composed other s := by
  induction h with
  | line h => exact .line h
  | part h => exact .part (hp _ h)
  | append _ _ ihs iht => exact ihs.append iht

/-- A break is in one of the parts that stand in the text. -/
theorem oneLine_iff (h : Composed parts s) :
    OneLine s ↔ ∀ p, parts p → p.toList <:+: s.toList → OneLine p := by
  refine ⟨fun hs _ _ hin => hs.of_infix hin, fun hp => ?_⟩
  induction h with
  | line h => exact h
  | part h => exact hp _ h List.infix_rfl
  | append _ _ ihs iht =>
    simp only [String.toList_append] at hp
    exact .append
      (ihs fun p hpart hin => hp p hpart (hin.trans (List.prefix_append _ _).isInfix))
      (iht fun p hpart hin => hp p hpart (hin.trans (List.suffix_append _ _).isInfix))

/-- A text between two lines. -/
theorem between {before after : String} (h : Composed parts s) (hb : OneLine before)
    (ha : OneLine after) : Composed parts (before ++ s ++ after) :=
  ((Composed.line hb).append h).append (.line ha)

theorem intercalate {sep : String} {l : List String} (hsep : OneLine sep)
    (hl : ∀ t ∈ l, Composed parts t) : Composed parts (sep.intercalate l) := by
  induction l with
  | nil => exact .line (.ofList rfl)
  | cons t l ih =>
    rw [List.forall_mem_cons] at hl
    cases l with
    | nil =>
      rw [String.intercalate_singleton]
      exact hl.1
    | cons u l =>
      rw [String.intercalate_cons_cons]
      exact (hl.1.append (.line hsep)).append (ih hl.2)

end Composed

/-! ## Messages -/

namespace Diagnostic

/-- The texts that go into the wording of a diagnostic. -/
def fields : Diagnostic → List String
  | unimplemented operation type => [operation, type]
  | binaryUnsupported operation left right => [operation, left, right]
  | notCallable type | notIterable type | unhashable type | indexOutOfRange type => [type]
  | argumentCount name .. | noKeywordArguments name | nameNotDefined name => [name]
  | unexpectedKeyword name keyword => [name, keyword]
  | badArgument name expected actual => [name, expected, actual]
  | invalidLiteral _ text => [text]
  | invalidValue reason | inputOutput reason | arenaLayout reason => [reason]
  | keyNotFound key => [key]
  | unknownAttribute type name => [type, name]
  | notInContainer container item => [container, item]
  | emptyCollection what => [what]
  | integerOverflow operation => [operation]
  | fileNotFound path => [path]
  | slotNotDefined _ | iteratorExhausted | divisionByZero | negativeShift | negativeExponent
  | fileClosed | badObjectSize _ => []

/-- The wording adds only lines to the fields. -/
theorem composed_message {parts : String → Prop} {d : Diagnostic}
    (h : ∀ f ∈ d.fields, Composed parts f) : Composed parts d.message := by
  have line {l : List Char} (hl : l.all (fun c => c != '\n' && c != '\r') = true) :
      Composed parts (String.ofList l) := .line (.ofList hl)
  cases d <;> simp only [fields, List.forall_mem_cons, List.not_mem_nil, false_implies,
    implies_true, and_true] at h
  case unimplemented => exact ((h.1.append (line rfl)).append h.2).append (line rfl)
  case binaryUnsupported =>
    exact ((((h.1.append (line rfl)).append h.2.1).append (line rfl)).append h.2.2).append
      (line rfl)
  case notCallable | notIterable | unhashable | nameNotDefined | keyNotFound | fileNotFound =>
    exact h.between (.ofList rfl) (.ofList rfl)
  case argumentCount least most actual =>
    change Composed parts (argumentCountMessage _ least most actual)
    unfold argumentCountMessage
    split_ifs
    all_goals
      exact (((h.between (.ofList rfl) (.ofList rfl)).append (.line (oneLine_nat _))).append
        (line rfl)).append (.line (oneLine_nat _))
  case noKeywordArguments | indexOutOfRange | emptyCollection => exact h.append (line rfl)
  case unexpectedKeyword => exact ((h.1.append (line rfl)).append h.2).append (line rfl)
  case badArgument =>
    exact ((((h.1.between (.ofList rfl) (.ofList rfl)).append h.2.1).append (line rfl)).append
      h.2.2).append (line rfl)
  case invalidLiteral =>
    exact ((((line rfl).append (.line (oneLine_nat _))).append (line rfl)).append h).append
      (line rfl)
  case invalidValue => exact h
  case slotNotDefined =>
    exact .between (.line (oneLine_nat _)) (.ofList rfl) (.ofList rfl)
  case unknownAttribute =>
    exact ((h.1.between (.ofList rfl) (.ofList rfl)).append h.2).append (line rfl)
  case notInContainer => exact (h.2.append (line rfl)).append h.1
  case integerOverflow | inputOutput | arenaLayout => exact (line rfl).append h
  case badObjectSize => exact (line rfl).append (.line (oneLine_nat _))
  all_goals exact line rfl

/-- The diagnostic shows `part`, which it takes from `text` without escaping anything. -/
inductive Quotes : Diagnostic → (text part : String) → Prop
  | literal (base : Nat) (text : String) : Quotes (.invalidLiteral base text) text text
  | encoding (name : String) :
    Quotes (.invalidValue ("unknown encoding: " ++ Text.lowerAscii name)) name
      (Text.lowerAscii name)
  | mode (mode : String) : Quotes (.invalidValue ("invalid mode: '" ++ mode ++ "'")) mode mode
  | conversion {format : String} {c : Char} (h : c ∈ format.toList) :
    Quotes (.invalidValue ("unsupported format character '" ++ c.toString ++ "'")) format c.toString
  | keyword (name keyword : String) : Quotes (.unexpectedKeyword name keyword) keyword keyword
  | missing (path : String) : Quotes (.fileNotFound path) path path
  | fault (path reason : String) : Quotes (.inputOutput (path ++ ": " ++ reason)) path path

/-- A diagnostic that quotes a line shows a line. -/
theorem Quotes.oneLine {d : Diagnostic} {text part : String} (h : d.Quotes text part)
    (ht : OneLine text) : OneLine part := by
  cases h with
  | encoding => exact ht.lowerAscii
  | conversion hc =>
    intro c h
    rw [Char.toString_eq_singleton, String.toList_singleton, List.mem_singleton] at h
    exact h ▸ ht _ hc
  | _ => exact ht

end Diagnostic

/-! ## Sources -/

/-- The name that an object has of its own: that of a class or a function, the path of a file. -/
def Object.label? : Object → Option String
  | userClass name _ | function name _ => some name
  | file f => some f.path
  | _ => none

/-- The names and the texts that messages may show. -/
structure Sources where
  name : String → Prop
  text : String → Prop

namespace Heap

/-- An object of the heap has the name. -/
def HasName (heap : Heap) (name : String) : Prop :=
  ∃ v o, heap.get? v = some o ∧ o.label? = some name

/-- A text object of the heap has the content. -/
def HasText (heap : Heap) (text : String) : Prop :=
  ∃ v o, heap.get? v = some o ∧ o.asStr? = some text

end Heap

namespace Sources

/-- Further the names and texts of a heap. -/
def plus (S : Sources) (heap : Heap) : Sources where
  name n := S.name n ∨ heap.HasName n
  text t := S.text t ∨ heap.HasText t

theorem text_plus {S : Sources} {heap : Heap} {text : String} (h : heap.HasText text) :
    (S.plus heap).text text := .inr h

/-- What the message of a diagnostic may show besides lines: names, and parts of texts that the
diagnostic quotes. -/
def Part (S : Sources) (d : Diagnostic) (part : String) : Prop :=
  S.name part ∨ ∃ text, S.text text ∧ d.Quotes text part

/-- The message of a diagnostic is composed of lines and what it may show besides. -/
def Accounts (S : Sources) (d : Diagnostic) : Prop := Composed (S.Part d) d.message

variable {S : Sources} {d : Diagnostic}

/-- A diagnostic of lines and names. -/
theorem Accounts.of_fields (h : ∀ f ∈ d.fields, Composed S.name f) : S.Accounts d :=
  Diagnostic.composed_message fun f hf => (h f hf).mono fun _ => .inl

theorem Accounts.of_oneLine (h : ∀ f ∈ d.fields, OneLine f) : S.Accounts d :=
  .of_fields fun f hf => .line (h f hf)

theorem Accounts.field {f : String} (hd : d.fields = [f]) (hf : Composed S.name f) :
    S.Accounts d :=
  .of_fields (hd ▸ List.forall_mem_singleton.2 hf)

theorem Accounts.pair {f g : String} (hd : d.fields = [f, g]) (hf : Composed S.name f)
    (hg : Composed S.name g) : S.Accounts d :=
  .of_fields (hd ▸ List.forall_mem_cons.2 ⟨hf, List.forall_mem_singleton.2 hg⟩)

theorem Accounts.triple {f g h : String} (hd : d.fields = [f, g, h]) (hf : Composed S.name f)
    (hg : Composed S.name g) (hh : Composed S.name h) : S.Accounts d :=
  .of_fields (hd ▸ List.forall_mem_cons.2
    ⟨hf, List.forall_mem_cons.2 ⟨hg, List.forall_mem_singleton.2 hh⟩⟩)

/-- A message is a line exactly when the names and the quoted texts that it shows are. -/
theorem Accounts.oneLine_iff (h : S.Accounts d) : OneLine d.message ↔
    ∀ part, S.Part d part → part.toList <:+: d.message.toList → OneLine part :=
  Composed.oneLine_iff h

/-- Where names and texts are lines, so is the message. -/
theorem Accounts.oneLine (h : S.Accounts d) (hname : ∀ n, S.name n → OneLine n)
    (htext : ∀ t, S.text t → OneLine t) : OneLine d.message :=
  h.oneLine_iff.2 fun _ hpart _ =>
    hpart.elim (hname _) fun ⟨_, ht, hq⟩ => hq.oneLine (htext _ ht)

end Sources

end ObjectSpace
