import ObjectSpace.Proofs.Heap.Depth
import ObjectSpace.Proofs.Table.Trim
import ObjectSpace.Proofs.Text.Literals

/-!
# Reading text forms back

The text form of data is made of the text forms of its parts. `Object.spelled` says how, for one
object, and `spelling` follows the parts to a given depth.

**Theorem (`reads_spelling`).** A text form determines the variant, the content and, part by part,
what the text forms of the parts determine (`Match`); and it determines where it ends in a longer
text, if that does not go on with a digit.

The first character tells the variants apart (`leadKind`), but for a dict and a set, which both
stand in braces. There what follows the first key decides: a colon, or a comma or the brace. A row
of parts can be read because no part begins with a bracket that closes, and because a part ends
before a comma, a colon or a closing bracket, none of which continues a number.
-/

namespace ObjectSpace

open Numeral (Ends)

/-! ## Texts that can be read back -/

/-- The brackets that close. -/
def closers : List Char := [']', ')', '\x7d']

/-- The texts of the elements with `P` determine what `R` says of an element, and where they end if
no digit follows. -/
structure Reads {α : Type} (text : α → List Char) (P : α → Prop) (R : α → α → Prop) : Prop where
  opens : ∀ a, P a → ∃ c t, text a = c :: t ∧ c ∉ closers
  unique : ∀ a b x y, P a → P b → Ends x → Ends y → text a ++ x = text b ++ y → R a b ∧ x = y

theorem ends_cons {c : Char} {x : List Char} (hc : c.isDigit = false) : Ends (c :: x) := by
  rintro d hd
  obtain rfl := Option.some.inj hd
  exact hc

theorem ends_closer {c : Char} {x : List Char} (hc : c ∈ closers) : Ends (c :: x) := by
  refine ends_cons ?_
  simp only [closers, List.mem_cons, List.not_mem_nil, or_false] at hc
  rcases hc with rfl | rfl | rfl <;> rfl

namespace Reads

variable {α : Type} {text : α → List Char} {P : α → Prop} {R : α → α → Prop} {a b : α}
  {c : Char} {x y z : List Char}

theorem ne_closer (h : Reads text P R) (ha : P a) (hc : c ∈ closers) : text a ++ z ≠ c :: x := by
  obtain ⟨d, t, ht, hd⟩ := h.opens a ha
  rintro he
  rw [ht] at he
  obtain ⟨rfl, -⟩ := List.cons.inj he
  exact hd hc

end Reads

/-! ## Rows -/

/-- The texts of the elements, with a comma and a blank between two. -/
def row {α : Type} (text : α → List Char) (l : List α) : List Char :=
  [',', ' '].intercalate (l.map text)

/-- What follows the first element of a row. -/
def rowRest {α : Type} (text : α → List Char) (l : List α) : List Char :=
  l.flatMap fun a => ',' :: ' ' :: text a

theorem row_cons {α : Type} (text : α → List Char) (a : α) (l : List α) :
    row text (a :: l) = text a ++ rowRest text l := by
  induction l generalizing a with
  | nil => simp [row, rowRest]
  | cons b l ih =>
    have hb : [',', ' '].intercalate (text b :: l.map text) = text b ++ rowRest text l := ih b
    rw [row, List.map_cons, List.map_cons, List.intercalate_cons_cons, hb]
    simp [rowRest]

namespace Reads

variable {α : Type} {text : α → List Char} {P : α → Prop} {R : α → α → Prop} {a b : α}
  {l m : List α} {c : Char} {x y : List Char}

/-- What follows an element of a row does not continue a number. -/
theorem ends_rest (hx : Ends x) : Ends (rowRest text l ++ x) := by
  cases l with
  | nil => exact hx
  | cons => exact ends_cons rfl

theorem first (h : Reads text P R) (ha : P a) (hb : P b) (hx : Ends x) (hy : Ends y)
    (he : row text (a :: l) ++ x = row text (b :: m) ++ y) :
    R a b ∧ rowRest text l ++ x = rowRest text m ++ y := by
  rw [row_cons, row_cons, List.append_assoc, List.append_assoc] at he
  exact h.unique a b _ _ ha hb (ends_rest hx) (ends_rest hy) he

theorem rest (h : Reads text P R) (hl : ∀ a ∈ l, P a) (hm : ∀ a ∈ m, P a) (hx : Ends x)
    (hy : Ends y) (hxc : ∀ z, x ≠ ',' :: ' ' :: z) (hyc : ∀ z, y ≠ ',' :: ' ' :: z)
    (he : rowRest text l ++ x = rowRest text m ++ y) : List.Forall₂ R l m ∧ x = y := by
  induction l generalizing m with
  | nil =>
    cases m with
    | nil => exact ⟨.nil, he⟩
    | cons b m => exact absurd he (hxc _)
  | cons a l ih =>
    cases m with
    | nil => exact absurd he.symm (hyc _)
    | cons b m =>
      rw [List.forall_mem_cons] at hl hm
      simp only [rowRest, List.flatMap_cons, List.cons_append, List.append_assoc,
        List.cons.injEq, true_and] at he
      obtain ⟨hab, he⟩ := h.unique a b _ _ hl.1 hm.1 (ends_rest hx) (ends_rest hy) he
      obtain ⟨hrest, rfl⟩ := ih hl.2 hm.2 he
      exact ⟨.cons hab hrest, rfl⟩

theorem closer_ne_comma (hc : c ∈ closers) (z : List Char) : c :: x ≠ ',' :: ' ' :: z := by
  intro hz
  obtain ⟨rfl, -⟩ := List.cons.inj hz
  exact absurd hc (by decide)

/-- **Rows.** Up to a bracket that closes, a row can be read. -/
theorem row_unique (h : Reads text P R) (hl : ∀ a ∈ l, P a) (hm : ∀ a ∈ m, P a)
    (hc : c ∈ closers) (he : row text l ++ c :: x = row text m ++ c :: y) :
    List.Forall₂ R l m ∧ x = y := by
  cases l with
  | nil =>
    cases m with
    | nil => exact ⟨.nil, (List.cons.inj he).2⟩
    | cons b m =>
      rw [row_cons, List.append_assoc] at he
      exact absurd he.symm (h.ne_closer (hm b List.mem_cons_self) hc)
  | cons a l =>
    cases m with
    | nil =>
      rw [row_cons, List.append_assoc] at he
      exact absurd he (h.ne_closer (hl a List.mem_cons_self) hc)
    | cons b m =>
      rw [List.forall_mem_cons] at hl hm
      obtain ⟨hab, he⟩ := h.first hl.1 hm.1 (ends_closer hc) (ends_closer hc) he
      obtain ⟨hrest, hxy⟩ := h.rest hl.2 hm.2 (ends_closer hc) (ends_closer hc)
        (closer_ne_comma hc) (closer_ne_comma hc) he
      exact ⟨.cons hab hrest, (List.cons.inj hxy).2⟩

/-- What closes a tuple: the only element is followed by a comma. -/
def tupleEnd (size : Nat) : List Char := if size = 1 then [',', ')'] else [')']

/-- The comma of a tuple with one element is not that before another one. -/
theorem tuple_unique (h : Reads text P R) (hl : ∀ a ∈ l, P a) (hm : ∀ a ∈ m, P a)
    (he : row text l ++ (tupleEnd l.length ++ x) = row text m ++ (tupleEnd m.length ++ y)) :
    List.Forall₂ R l m ∧ x = y := by
  have hends : ∀ n z, Ends (tupleEnd n ++ z) := fun n z => by
    unfold tupleEnd
    split <;> exact ends_cons rfl
  have hcomma : ∀ n z w, tupleEnd n ++ z ≠ ',' :: ' ' :: w := fun n z w hw => by
    unfold tupleEnd at hw
    split at hw
    · exact absurd (List.cons.inj (List.cons.inj hw).2).1 (by decide)
    · exact absurd (List.cons.inj hw).1 (by decide)
  cases l with
  | nil =>
    cases m with
    | nil => exact ⟨.nil, (List.cons.inj he).2⟩
    | cons b m =>
      rw [row_cons, List.append_assoc] at he
      exact absurd he.symm (h.ne_closer (hm b List.mem_cons_self) (by decide))
  | cons a l =>
    cases m with
    | nil =>
      rw [row_cons, List.append_assoc] at he
      exact absurd he (h.ne_closer (hl a List.mem_cons_self) (by decide))
    | cons b m =>
      rw [List.forall_mem_cons] at hl hm
      obtain ⟨hab, he⟩ := h.first hl.1 hm.1 (hends _ x) (hends _ y) he
      obtain ⟨hrest, hxy⟩ := h.rest hl.2 hm.2 (hends _ x) (hends _ y) (hcomma _ x) (hcomma _ y) he
      have hall : List.Forall₂ R (a :: l) (b :: m) := .cons hab hrest
      rw [hall.length_eq] at hxy
      exact ⟨hall, List.append_cancel_left hxy⟩

/-- A key and a value with a colon between them. -/
def entryText (text : α → List Char) (e : α × α) : List Char :=
  text e.1 ++ ':' :: ' ' :: text e.2

theorem entry (h : Reads text P R) :
    Reads (entryText text) (fun e => P e.1 ∧ P e.2) fun e f => R e.1 f.1 ∧ R e.2 f.2 := by
  constructor
  · rintro e ⟨hk, -⟩
    obtain ⟨c, t, ht, hc⟩ := h.opens e.1 hk
    exact ⟨c, t ++ ':' :: ' ' :: text e.2, by rw [entryText, ht]; rfl, hc⟩
  · rintro e f x y ⟨hk, hv⟩ ⟨hk', hv'⟩ hx hy he
    simp only [entryText, List.append_assoc, List.cons_append] at he
    obtain ⟨hkey, he⟩ := h.unique _ _ _ _ hk hk' (ends_cons rfl) (ends_cons rfl) he
    obtain ⟨hvalue, hxy⟩ := h.unique _ _ _ _ hv hv' hx hy (List.cons.inj (List.cons.inj he).2).2
    exact ⟨⟨hkey, hvalue⟩, hxy⟩

/-- The entries of a dict do not look like the members of a set. -/
theorem entries_ne_members (h : Reads text P R) {e : List (α × α)} (he : ∀ p ∈ e, P p.1 ∧ P p.2)
    (hl : ∀ a ∈ l, P a) (hne : l ≠ []) (hc : c ∈ closers) :
    row (entryText text) e ++ c :: x ≠ row text l ++ c :: y := by
  obtain ⟨a, l, rfl⟩ := List.exists_cons_of_ne_nil hne
  have ha := hl a List.mem_cons_self
  intro heq
  cases e with
  | nil =>
    rw [row_cons, List.append_assoc] at heq
    exact h.ne_closer ha hc heq.symm
  | cons p e =>
    simp only [row_cons, List.append_assoc, entryText, List.cons_append] at heq
    obtain ⟨-, hcolon⟩ := h.unique _ _ _ _ (he p List.mem_cons_self).1 ha (ends_cons rfl)
      (ends_rest (ends_closer hc)) heq
    cases l with
    | nil =>
      obtain ⟨rfl, -⟩ := List.cons.inj hcolon
      exact absurd hc (by decide)
    | cons => exact absurd (List.cons.inj hcolon).1 (by decide)

end Reads

/-! ## One object -/

/-- The bounds that the text form of a range shows, and what it shows of the step. -/
def Progression.bounds (p : Progression) : List Int64 :=
  [p.start, p.stop] ++ if p.step = 1 then [] else [p.step]

theorem Progression.eq_of_bounds {p q : Progression} (h : p.bounds = q.bounds) : p = q := by
  obtain ⟨start, stop, step, hstep⟩ := p
  obtain ⟨start', stop', step', hstep'⟩ := q
  simp only [bounds, List.cons_append, List.nil_append, List.cons.injEq] at h
  obtain ⟨rfl, rfl, hsteps⟩ := h
  congr 1
  split at hsteps <;> split at hsteps <;> simp_all

namespace Object

/-- The variants of data. -/
def IsData : Object → Prop
  | nothing | bool _ | int _ | str .. | bytes _ | list _ | tuple _ | dict _ | set _ | range _ =>
    True
  | _ => False

/-- The text form of an object, given those of its parts. -/
def spelled (text : Handle → List Char) : Object → List Char
  | nothing => "None".toList
  | bool b => (if b then "True" else "False").toList
  | int n => (Numeral.decimal n).toList
  | str s _ => (Literal.ofText s).toList
  | bytes bs => (Literal.ofBytes bs).toList
  | list items => '[' :: (row text items.toList ++ [']'])
  | tuple items => '(' :: (row text items.toList ++ Reads.tupleEnd items.size)
  | dict t => '\x7b' :: (row (Reads.entryText text) t.toList ++ ['\x7d'])
  | set t => if t.isEmpty then "set()".toList else '\x7b' :: (row text t.toList ++ ['\x7d'])
  | range p => ['r', 'a', 'n', 'g', 'e', '('] ++
      (row (fun n => (Numeral.decimal n).toList) p.bounds ++ [')'])
  | _ => []

/-- Objects of one variant and content, with parts that stand in a relation one by one. -/
inductive Alike (R : Handle → Handle → Prop) : Object → Object → Prop
  | nothing : Alike R nothing nothing
  | bool (b : Bool) : Alike R (bool b) (bool b)
  | int (n : Int64) : Alike R (int n) (int n)
  | str (s : String) (x y : Option UInt64) : Alike R (str s x) (str s y)
  | bytes (bs : Array UInt8) : Alike R (bytes bs) (bytes bs)
  | range (p : Progression) : Alike R (range p) (range p)
  | list {xs ys : Array Handle} : List.Forall₂ R xs.toList ys.toList → Alike R (list xs) (list ys)
  | tuple {xs ys : Array Handle} : List.Forall₂ R xs.toList ys.toList →
      Alike R (tuple xs) (tuple ys)
  | dict {d e : Table (Handle × Handle)} :
      List.Forall₂ (fun p q => R p.1 q.1 ∧ R p.2 q.2) d.toList e.toList → Alike R (dict d) (dict e)
  | set {d e : Table Handle} : List.Forall₂ R d.toList e.toList → Alike R (set d) (set e)

theorem Alike.mono {R S : Handle → Handle → Prop} {x y : Object} (h : Alike R x y)
    (hRS : ∀ p ∈ x.parts, ∀ q ∈ y.parts, R p q → S p q) : Alike S x y := by
  cases h with
  | list h => exact .list (forall₂_mono h hRS)
  | tuple h => exact .tuple (forall₂_mono h hRS)
  | set h => exact .set (forall₂_mono h hRS)
  | @dict d e h =>
    refine .dict (forall₂_mono h fun e he f hf => And.imp (hRS _ ?_ _ ?_) (hRS _ ?_ _ ?_))
    · exact List.mem_flatMap.2 ⟨e, he, by simp⟩
    · exact List.mem_flatMap.2 ⟨f, hf, by simp⟩
    · exact List.mem_flatMap.2 ⟨e, he, by simp⟩
    · exact List.mem_flatMap.2 ⟨f, hf, by simp⟩
  | _ => constructor

/-- The type of the data that begins with a character; sets with members begin as dicts do. -/
def leadKind : Char → Kind
  | 'N' => .noneType
  | 'T' | 'F' => .bool
  | '\'' | '"' => .str
  | 'b' => .bytes
  | '[' => .list
  | '(' => .tuple
  | '\x7b' => .dict
  | 's' => .set
  | 'r' => .range
  | _ => .int

theorem leadKind_of_number {c : Char} (hc : c = '-' ∨ c.isDigit = true) : leadKind c = .int := by
  unfold leadKind
  split <;> first | rfl | exact absurd hc (by decide)

section Spelled

variable {text : Handle → List Char} {P : Handle → Prop} {R : Handle → Handle → Prop}
  {o o' : Object} {x y : List Char}

/-- The text form of data begins with a character that tells the type, but for sets, and that is no
bracket that closes. -/
theorem spelled_cons (text : Handle → List Char) (ho : o.IsData) :
    ∃ c t, o.spelled text = c :: t ∧ c ∉ closers ∧
      (o.kind? = some (leadKind c) ∨ (∃ t, o = .set t) ∧ c = '\x7b') := by
  cases o with
  | nothing => exact ⟨_, _, rfl, by decide, .inl rfl⟩
  | bool b => cases b <;> exact ⟨_, _, rfl, by decide, .inl rfl⟩
  | int n =>
    obtain ⟨c, t, ht, hc⟩ := Numeral.decimal_cons n
    refine ⟨c, t, ht, fun hm => ?_, .inl (congrArg some (leadKind_of_number hc).symm)⟩
    simp only [closers, List.mem_cons, List.not_mem_nil, or_false] at hm
    rcases hm with rfl | rfl | rfl <;> exact absurd hc (by decide)
  | str s =>
    obtain ⟨c, t, ht, rfl | rfl⟩ := Literal.ofText_cons s
    · exact ⟨_, t, ht, by decide, .inl rfl⟩
    · exact ⟨_, t, ht, by decide, .inl rfl⟩
  | bytes bs => exact ⟨_, _, String.toList_ofList, by decide, .inl rfl⟩
  | list | tuple | dict | range => exact ⟨_, _, rfl, by decide, .inl rfl⟩
  | set t =>
    rw [spelled]
    split
    · exact ⟨_, _, rfl, by decide, .inl rfl⟩
    · exact ⟨_, _, rfl, by decide, .inr ⟨⟨t, rfl⟩, rfl⟩⟩
  | _ => exact ho.elim

theorem dict_of_kind (ho : o.IsData) (hk : o.kind? = some .dict) : ∃ t, o = .dict t := by
  cases o <;> first | exact ho.elim | exact ⟨_, rfl⟩ | cases hk

theorem reads_decimal : Reads (fun n => (Numeral.decimal n).toList) (fun _ => True) Eq := by
  refine ⟨fun n _ => ?_, fun n m x y _ _ => Numeral.decimal_unique⟩
  obtain ⟨c, t, ht, hc, -⟩ := spelled_cons (o := .int n) (fun _ => []) trivial
  exact ⟨c, t, ht, hc⟩

/-- Objects of one type with the same text form are alike, if the text forms of their parts can be
read. -/
theorem spelled_unique (h : Reads text P R) (ho : o.IsData) (ho' : o'.IsData) (ht : o.Trim)
    (ht' : o'.Trim) (hk : o.kind? = o'.kind?) (hp : ∀ p ∈ o.parts, P p)
    (hp' : ∀ p ∈ o'.parts, P p) (hx : Ends x) (hy : Ends y)
    (he : o.spelled text ++ x = o'.spelled text ++ y) : Alike R o o' ∧ x = y := by
  cases o <;> try exact ho.elim
  all_goals cases o' <;> try first | exact ho'.elim | cases hk
  case nothing.nothing => exact ⟨.nothing, List.append_cancel_left he⟩
  case bool.bool b c =>
    cases b <;> cases c
    · exact ⟨.bool false, List.append_cancel_left he⟩
    · exact absurd (List.cons.inj he).1 (by decide)
    · exact absurd (List.cons.inj he).1 (by decide)
    · exact ⟨.bool true, List.append_cancel_left he⟩
  case int.int n m =>
    obtain ⟨rfl, hxy⟩ := Numeral.decimal_unique hx hy he
    exact ⟨.int n, hxy⟩
  case str.str s _ t _ =>
    obtain ⟨rfl, hxy⟩ := Literal.ofText_unique he
    exact ⟨.str s _ _, hxy⟩
  case bytes.bytes bs cs =>
    obtain ⟨rfl, hxy⟩ := Literal.ofBytes_unique he
    exact ⟨.bytes bs, hxy⟩
  case list.list xs ys =>
    simp only [spelled, List.cons_append, List.append_assoc, List.nil_append, List.cons.injEq,
      true_and] at he
    obtain ⟨hall, hxy⟩ := h.row_unique hp hp' (by decide) he
    exact ⟨.list hall, hxy⟩
  case tuple.tuple xs ys =>
    simp only [spelled, List.cons_append, List.append_assoc, List.cons.injEq, true_and] at he
    obtain ⟨hall, hxy⟩ := h.tuple_unique hp hp' he
    exact ⟨.tuple hall, hxy⟩
  case dict.dict d e =>
    simp only [spelled, List.cons_append, List.append_assoc, List.nil_append, List.cons.injEq,
      true_and] at he
    obtain ⟨hall, hxy⟩ := h.entry.row_unique (entries_of_parts hp) (entries_of_parts hp')
      (by decide) he
    exact ⟨.dict hall, hxy⟩
  case set.set d e =>
    simp only [spelled] at he
    split at he <;> split at he
    · rename_i hd hd'
      refine ⟨.set ?_, List.append_cancel_left he⟩
      rw [Table.Trim.isEmpty_iff (t := d) ht |>.1 hd, Table.Trim.isEmpty_iff (t := e) ht' |>.1 hd']
      exact .nil
    · exact absurd (List.cons.inj he).1 (by decide)
    · exact absurd (List.cons.inj he).1 (by decide)
    · simp only [List.cons_append, List.append_assoc, List.nil_append, List.cons.injEq,
        true_and] at he
      obtain ⟨hall, hxy⟩ := h.row_unique hp hp' (by decide) he
      exact ⟨.set hall, hxy⟩
  case range.range p q =>
    simp only [spelled, List.append_assoc] at he
    obtain ⟨hall, hxy⟩ := reads_decimal.row_unique (fun _ _ => trivial) (fun _ _ => trivial)
      (by decide) (List.append_cancel_left he)
    rw [List.forall₂_eq_eq_eq] at hall
    obtain rfl := Progression.eq_of_bounds hall
    exact ⟨.range p, hxy⟩

theorem dict_ne_set (h : Reads text P R) {d : Table (Handle × Handle)} {t : Table Handle}
    (trim : t.Trim) (hd : ∀ p ∈ (dict d).parts, P p) (ht : ∀ p ∈ (set t).parts, P p) :
    (dict d).spelled text ++ x ≠ (set t).spelled text ++ y := by
  intro he
  simp only [spelled] at he
  split at he
  · exact absurd (List.cons.inj he).1 (by decide)
  · rename_i hne
    have hmembers : t.toList ≠ [] := fun hnil => hne (trim.isEmpty_iff.2 hnil)
    simp only [List.cons_append, List.append_assoc, List.nil_append, List.cons.injEq,
      true_and] at he
    exact h.entries_ne_members (entries_of_parts hd) ht hmembers (by decide) he

/-- **One object.** Its text form can be read if those of its parts can. -/
theorem reads_spelled (h : Reads text P R) :
    Reads (spelled text) (fun o => o.IsData ∧ o.Trim ∧ ∀ p ∈ o.parts, P p) (Alike R) := by
  constructor
  · rintro o ⟨ho, -⟩
    obtain ⟨c, t, ht, hc, -⟩ := spelled_cons text ho
    exact ⟨c, t, ht, hc⟩
  · rintro o o' x y ⟨ho, trim, hp⟩ ⟨ho', trim', hp'⟩ hx hy he
    obtain ⟨c, t, ht, -, hc⟩ := spelled_cons text ho
    obtain ⟨c', t', ht', -, hc'⟩ := spelled_cons text ho'
    have hlead := he
    rw [ht, ht'] at hlead
    obtain ⟨rfl, -⟩ := List.cons.inj hlead
    rcases hc with hc | ⟨⟨d, rfl⟩, rfl⟩ <;> rcases hc' with hc' | ⟨⟨e, rfl⟩, hbrace⟩
    · exact spelled_unique h ho ho' trim trim' (hc.trans hc'.symm) hp hp' hx hy he
    · subst hbrace
      obtain ⟨d, rfl⟩ := dict_of_kind ho hc
      exact absurd he (dict_ne_set h trim' hp hp')
    · obtain ⟨e, rfl⟩ := dict_of_kind ho' hc'
      exact absurd he.symm (dict_ne_set h trim hp' hp)
    · exact spelled_unique h ho ho' trim trim' rfl hp hp' hx hy he

end Spelled

end Object

/-! ## All parts -/

/-- The text form of a value to the given depth, with the text forms of all parts. -/
def spelling (see : Handle → Option Object) : Nat → Handle → List Char
  | 0, _ => []
  | n + 1, v => ((see v).map (Object.spelled (spelling see n))).getD []

/-- Values that are alike part by part, to the given depth. -/
def Match (see : Handle → Option Object) : Nat → Handle → Handle → Prop
  | 0, _, _ => False
  | n + 1, u, v => ∃ x y, see u = some x ∧ see v = some y ∧ Object.Alike (Match see n) x y

/-- Data: what is built from the variants of data, to any depth and without cycles. -/
inductive Data (see : Handle → Option Object) : Handle → Prop
  | intro {v : Handle} {o : Object} : see v = some o → o.IsData → (∀ p ∈ o.parts, Data see p) →
      Data see v

namespace Data

variable {see : Handle → Option Object} {v : Handle}

theorem grounded (d : Data see v) : Grounded see v := by
  induction d with
  | intro ho _ _ ih => exact .intro ho ih

end Data

/-- **Text forms.** Data of bounded depth can be read back, if tables are trim. -/
theorem reads_spelling {see : Handle → Option Object} (htrim : ∀ v o, see v = some o → o.Trim)
    (n : Nat) :
    Reads (spelling see n) (fun v => Data see v ∧ Within see n v) (Match see n) := by
  induction n with
  | zero => exact ⟨fun _ h => h.2.elim, fun _ _ _ _ h => h.2.elim⟩
  | succ n ih =>
    have hobject : ∀ v, Data see v ∧ Within see (n + 1) v → ∃ o, see v = some o ∧
        spelling see (n + 1) v = o.spelled (spelling see n) ∧ o.IsData ∧ o.Trim ∧
        ∀ p ∈ o.parts, Data see p ∧ Within see n p := by
      rintro v ⟨⟨ho, hd, hp⟩, o', ho', hw⟩
      rw [ho, Option.some.injEq] at ho'
      subst ho'
      exact ⟨_, ho, by rw [spelling, ho]; rfl, hd, htrim v _ ho, fun p hm => ⟨hp p hm, hw p hm⟩⟩
    have h := Object.reads_spelled ih
    constructor
    · intro v hv
      obtain ⟨o, -, hs, ho⟩ := hobject v hv
      rw [hs]
      exact h.opens o ho
    · intro u v x y hu hv hx hy he
      obtain ⟨o, ho, hs, hd⟩ := hobject u hu
      obtain ⟨o', ho', hs', hd'⟩ := hobject v hv
      rw [hs, hs'] at he
      obtain ⟨halike, hxy⟩ := h.unique o o' x y hd hd' hx hy he
      exact ⟨⟨o, o', ho, ho', halike⟩, hxy⟩

end ObjectSpace
