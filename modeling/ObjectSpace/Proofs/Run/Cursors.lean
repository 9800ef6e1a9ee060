import ObjectSpace.Iteration
import ObjectSpace.Proofs.Heap.Query
import ObjectSpace.Proofs.Table.Cursors
import Mathlib.Data.String.Basic

/-!
# Cursors

A cursor stays what it is: a step moves it on, and it draws on the same things as before (`Onward`).
`Advances` says what moves there are.

**Standing** (`Stands`). A cursor over entries stands on a dict, one over members on a set, one that
numbers or pairs draws on iterators, and a position in a text is between two characters. A new
cursor stands, and a move keeps that (`Advances.stands`).
-/

namespace ObjectSpace.Cursor

/-- Whether a cursor does not draw on another iterator. -/
def Plain : Cursor → Prop
  | enumerate .. | zip .. => False
  | _ => True

/-! ## Moving on -/

/-- A position of a table, or the end once it was reached, and what may come after it. -/
def PlaceOnward (hash : UInt64) (place : Nat) (done : Bool) (hash' : UInt64) (place' : Nat)
    (done' : Bool) : Prop :=
  done' = true ∨ done = false ∧ (hash < hash' ∨ hash' = hash ∧ place ≤ place')

/-- A cursor of the same type that draws on the same things and stands there or further on. -/
def Onward : Cursor → Cursor → Prop
  | forward u k p, forward u' k' p' => u' = u ∧ k' = k ∧ p ≤ p'
  | backward u p, backward u' p' => u' = u ∧ p' ≤ p
  | range _ _ m, range _ _ m' => m' ≤ m
  | entries d part hash place done, entries d' part' hash' place' done' =>
    d' = d ∧ part' = part ∧ PlaceOnward hash place done hash' place' done'
  | members u hash place done, members u' hash' place' done' =>
    u' = u ∧ PlaceOnward hash place done hash' place' done'
  | enumerate inner _, enumerate inner' _ => inner' = inner
  | zip l r, zip l' r' => l' = l ∧ r' = r
  | _, _ => False

theorem PlaceOnward.refl (hash : UInt64) (place : Nat) (done : Bool) :
    PlaceOnward hash place done hash place done := by
  cases done <;> simp [PlaceOnward]

theorem PlaceOnward.trans {h h' h'' : UInt64} {p p' p'' : Nat} {d d' d'' : Bool}
    (h₁ : PlaceOnward h p d h' p' d') (h₂ : PlaceOnward h' p' d' h'' p'' d'') :
    PlaceOnward h p d h'' p'' d'' := by
  rcases h₂ with rfl | ⟨hd, h₂⟩
  · exact .inl rfl
  rcases h₁ with rfl | ⟨rfl, h₁⟩
  · cases hd
  refine .inr ⟨rfl, ?_⟩
  rcases h₁ with h₁ | ⟨rfl, h₁⟩ <;> rcases h₂ with h₂ | ⟨rfl, h₂⟩
  · exact .inl (UInt64.lt_trans h₁ h₂)
  · exact .inl h₁
  · exact .inl h₂
  · exact .inr ⟨rfl, h₁.trans h₂⟩

theorem Onward.refl (c : Cursor) : c.Onward c := by
  cases c with
  | forward => exact ⟨rfl, rfl, Nat.le_refl _⟩
  | backward => exact ⟨rfl, Nat.le_refl _⟩
  | range => exact Nat.le_refl _
  | entries => exact ⟨rfl, rfl, .refl _ _ _⟩
  | members => exact ⟨rfl, .refl _ _ _⟩
  | enumerate inner => exact Eq.refl inner
  | zip => exact ⟨rfl, rfl⟩

/-- Cursors of the same type. -/
inductive Alike : Cursor → Cursor → Prop
  | forward (u u' : Handle) (k k' : Kind) (p p' : Nat) : Alike (forward u k p) (forward u' k' p')
  | backward (u u' : Handle) (p p' : Nat) : Alike (backward u p) (backward u' p')
  | range (n n' d d' : Int64) (m m' : Nat) : Alike (range n d m) (range n' d' m')
  | entries (d d' : Handle) (part part' : ViewPart) (hash hash' : UInt64) (place place' : Nat)
      (done done' : Bool) :
      Alike (entries d part hash place done) (entries d' part' hash' place' done')
  | members (u u' : Handle) (hash hash' : UInt64) (place place' : Nat) (done done' : Bool) :
      Alike (members u hash place done) (members u' hash' place' done')
  | enumerate (inner inner' : Handle) (n n' : Int64) :
      Alike (enumerate inner n) (enumerate inner' n')
  | zip (l l' r r' : Handle) : Alike (zip l r) (zip l' r')

theorem Onward.alike {c d : Cursor} (h : c.Onward d) : c.Alike d := by
  cases c <;> cases d <;> first | exact h.elim | constructor

theorem Onward.trans {c d e : Cursor} (h₁ : c.Onward d) (h₂ : d.Onward e) : c.Onward e := by
  cases h₁.alike with
  | forward =>
    cases h₂.alike with
    | forward => exact ⟨h₂.1.trans h₁.1, h₂.2.1.trans h₁.2.1, h₁.2.2.trans h₂.2.2⟩
  | backward =>
    cases h₂.alike with
    | backward => exact ⟨h₂.1.trans h₁.1, h₂.2.trans h₁.2⟩
  | range =>
    cases h₂.alike with
    | range => exact Nat.le_trans h₂ h₁
  | entries =>
    cases h₂.alike with
    | entries => exact ⟨h₂.1.trans h₁.1, h₂.2.1.trans h₁.2.1, h₁.2.2.trans h₂.2.2⟩
  | members =>
    cases h₂.alike with
    | members => exact ⟨h₂.1.trans h₁.1, h₁.2.trans h₂.2⟩
  | enumerate =>
    cases h₂.alike with
    | enumerate => exact Eq.trans h₂ h₁
  | zip =>
    cases h₂.alike with
    | zip => exact ⟨h₂.1.trans h₁.1, h₂.2.trans h₁.2⟩

theorem Onward.children_eq {c d : Cursor} (h : c.Onward d) : d.children = c.children := by
  cases h.alike with
  | forward | backward | entries | members =>
    obtain ⟨rfl, -⟩ := h
    rfl
  | range => rfl
  | enumerate =>
    cases h
    rfl
  | zip =>
    obtain ⟨rfl, rfl⟩ := h
    rfl

theorem Onward.plain {c d : Cursor} (h : c.Onward d) (hc : c.Plain) : d.Plain := by
  cases h.alike with
  | enumerate | zip => exact hc.elim
  | _ => trivial

/-! ## Moves -/

variable {heap : Heap} {c c' : Cursor} {y : Option Yield}

theorem elementAt?_onward {position p : Nat} {o : Object} {z : Yield}
    (h : elementAt? position o = some (z, p)) : position < p := by
  cases o <;> simp only [elementAt?, reduceCtorEq] at h
  case str =>
    obtain ⟨c, -, he⟩ := Option.map_eq_some_iff.1 h
    obtain ⟨-, rfl⟩ := Prod.mk.inj he
    exact Nat.lt_add_of_pos_right c.utf8Size_pos
  all_goals
    obtain ⟨e, -, he⟩ := Option.map_eq_some_iff.1 h
    obtain ⟨-, rfl⟩ := Prod.mk.inj he
    exact Nat.lt_succ_self position

theorem elementBefore?_onward {position p : Nat} {o : Object} {z : Yield}
    (h : elementBefore? position o = some (z, p)) : p < position := by
  cases o <;> simp only [elementBefore?, reduceCtorEq, Option.ite_none_left_eq_some] at h
  case str =>
    obtain ⟨hpos, h⟩ := h
    obtain ⟨c, -, he⟩ := Option.map_eq_some_iff.1 h
    obtain ⟨-, rfl⟩ := Prod.mk.inj he
    exact String.Pos.Raw.prev_lt_of_pos _ _ fun h0 => hpos (congrArg String.Pos.Raw.byteIdx h0)
  all_goals
    obtain ⟨hpos, h⟩ := h
    obtain ⟨e, -, he⟩ := Option.map_eq_some_iff.1 h
    obtain ⟨-, rfl⟩ := Prod.mk.inj he
    omega

theorem placeOnward_nextFrom? {α : Type} {t : Table α} {hash hash' : UInt64} {place i : Nat}
    {x : α} (h : t.nextFrom? hash place = some (hash', i, x)) :
    PlaceOnward hash place false hash' (i + 1) false := by
  rcases Table.nextFrom?_onward h with ⟨rfl, rfl⟩ | hlt
  · exact .inr ⟨rfl, .inr ⟨rfl, Nat.le_succ i⟩⟩
  · exact .inr ⟨rfl, .inl hlt⟩

/-- A step moves a cursor on. -/
theorem onward_step (h : c.step heap = .ok (y, c')) : c.Onward c' := by
  cases c with
  | forward u k position =>
    obtain ⟨o, -, h⟩ := Heap.bind_eq_ok.1 h
    obtain ⟨-, h⟩ := Heap.unless_eq_ok.1 h
    rcases he : elementAt? position o with _ | ⟨z, p⟩ <;> rw [he] at h <;>
      obtain ⟨-, rfl⟩ := Prod.mk.inj (Heap.pure_eq_ok.1 h)
    · exact .refl _
    · exact ⟨rfl, rfl, Nat.le_of_lt (elementAt?_onward he)⟩
  | backward u position =>
    obtain ⟨o, -, h⟩ := Heap.bind_eq_ok.1 h
    obtain ⟨-, h⟩ := Heap.unless_eq_ok.1 h
    rcases he : elementBefore? position o with _ | ⟨z, p⟩ <;> rw [he] at h <;>
      obtain ⟨-, rfl⟩ := Prod.mk.inj (Heap.pure_eq_ok.1 h)
    · exact ⟨rfl, Nat.zero_le position⟩
    · exact ⟨rfl, Nat.le_of_lt (elementBefore?_onward he)⟩
  | range n d remaining =>
    by_cases hr : remaining = 0 <;> simp only [step, hr, if_true, if_false] at h <;>
      obtain ⟨-, rfl⟩ := Prod.mk.inj (Heap.pure_eq_ok.1 h)
    · exact Nat.zero_le _
    · exact Nat.sub_le remaining 1
  | entries d part hash place done =>
    cases done with
    | true =>
      obtain ⟨-, rfl⟩ := Prod.mk.inj (Heap.pure_eq_ok.1 h)
      exact .refl _
    | false =>
      obtain ⟨t, -, h⟩ := Heap.bind_eq_ok.1 h
      rcases he : t.nextFrom? hash place with _ | ⟨g, p, e⟩ <;> rw [he] at h <;>
        obtain ⟨-, rfl⟩ := Prod.mk.inj (Heap.pure_eq_ok.1 h)
      · exact ⟨rfl, rfl, .inl rfl⟩
      · exact ⟨rfl, rfl, placeOnward_nextFrom? he⟩
  | members u hash place done =>
    cases done with
    | true =>
      obtain ⟨-, rfl⟩ := Prod.mk.inj (Heap.pure_eq_ok.1 h)
      exact .refl _
    | false =>
      obtain ⟨t, -, h⟩ := Heap.bind_eq_ok.1 h
      rcases he : t.nextFrom? hash place with _ | ⟨g, p, e⟩ <;> rw [he] at h <;>
        obtain ⟨-, rfl⟩ := Prod.mk.inj (Heap.pure_eq_ok.1 h)
      · exact ⟨rfl, .inl rfl⟩
      · exact ⟨rfl, placeOnward_nextFrom? he⟩
  | enumerate | zip =>
    obtain ⟨-, rfl⟩ := Prod.mk.inj (Heap.pure_eq_ok.1 h)
    exact .refl _

/-- The moves of a cursor: its own steps, and counting what the iterator it numbers gave. -/
inductive Advances (heap : Heap) : Cursor → Cursor → Prop
  | step {c c' : Cursor} {y : Option Yield} : c.step heap = .ok (y, c') → Advances heap c c'
  | count (inner : Handle) (n n' : Int64) :
      Advances heap (.enumerate inner n) (.enumerate inner n')

theorem Advances.onward (h : c.Advances heap c') : c.Onward c' := by
  cases h with
  | step h => exact onward_step h
  | count inner => exact Eq.refl inner

/-! ## Positions -/

section Positions

variable {position p : Nat} {t : String} {hash? : Option UInt64} {o : Object} {z : Yield}

/-- The positions of a text are where it can be cut in two. -/
theorem admits_str : admits position (.str t hash?) = true ↔
    ∃ cs cs', t = String.ofList (cs ++ cs') ∧ position = String.utf8Len cs := by
  rw [admits, String.Pos.Raw.isValid_eq_true_iff, String.Pos.Raw.isValid_iff_exists_append]
  constructor
  · rintro ⟨u, v, rfl, hp⟩
    refine ⟨u.toList, v.toList, ?_, ?_⟩
    · rw [← String.toList_append, String.ofList_toList]
    · rw [String.utf8Len_toList]
      exact congrArg String.Pos.Raw.byteIdx hp
  · rintro ⟨cs, cs', rfl, rfl⟩
    refine ⟨String.ofList cs, String.ofList cs', String.ofList_append, ?_⟩
    rw [String.Pos.Raw.ext_iff, String.byteIdx_rawEndPos, String.utf8ByteSize_ofList]

theorem elementAt?_str (cs cs' : List Char) :
    elementAt? (String.utf8Len cs) (.str (String.ofList (cs ++ cs')) hash?) =
      cs'.head?.map fun c => (.str c.toString, String.utf8Len cs + c.utf8Size) := by
  rw [elementAt?, String.get?_of_valid]

theorem elementBefore?_str (cs : List Char) (c : Char) (cs' : List Char) :
    elementBefore? (String.utf8Len cs + c.utf8Size)
        (.str (String.ofList (cs ++ c :: cs')) hash?) =
      some (.str c.toString, String.utf8Len cs) := by
  have hpos : String.utf8Len cs + c.utf8Size ≠ 0 := by
    have := c.utf8Size_pos
    omega
  simp only [elementBefore?, hpos, if_false, String.prev_of_valid, String.get?_of_valid,
    List.head?_cons, Option.map_some]

theorem admits_zero (o : Object) : admits 0 o = true := by
  cases o with
  | str t => exact admits_str.2 ⟨[], t.toList, String.ofList_toList.symm, rfl⟩
  | _ => rfl

/-- The end of a text is one of its positions. -/
theorem admits_end (t : String) (hash? : Option UInt64) :
    admits t.utf8ByteSize (.str t hash?) = true := by
  refine admits_str.2 ⟨t.toList, [], ?_, (String.utf8Len_toList t).symm⟩
  rw [List.append_nil, String.ofList_toList]

theorem admits_elementAt? (ha : admits position o = true)
    (h : elementAt? position o = some (z, p)) : admits p o = true := by
  cases o with
  | str t =>
    obtain ⟨cs, cs', rfl, rfl⟩ := admits_str.1 ha
    rw [elementAt?_str] at h
    cases cs' with
    | nil => cases h
    | cons c cs' =>
      obtain ⟨-, rfl⟩ := Prod.mk.inj (Option.some.inj h)
      exact admits_str.2 ⟨cs ++ [c], cs', by simp, by simp⟩
  | _ => rfl

theorem admits_elementBefore? (ha : admits position o = true)
    (h : elementBefore? position o = some (z, p)) : admits p o = true := by
  cases o with
  | str t =>
    obtain ⟨cs, cs', rfl, rfl⟩ := admits_str.1 ha
    rcases List.eq_nil_or_concat cs with rfl | ⟨cs, c, rfl⟩
    · cases h
    · rw [List.concat_eq_append, String.utf8Len_append, List.append_assoc, String.utf8Len_cons,
        String.utf8Len_nil, Nat.zero_add, List.singleton_append, elementBefore?_str] at h
      obtain ⟨-, rfl⟩ := Prod.mk.inj (Option.some.inj h)
      exact admits_str.2 ⟨cs, c :: cs', by simp, rfl⟩
  | _ => rfl

end Positions

/-! ## Standing -/

/-- What a cursor may draw on. -/
def Suits : Cursor → Object → Prop
  | forward _ _ position, o => admits position o = true
  | backward _ position, o => admits position o = true
  | range .., _ => True
  | entries .., o => ∃ t, o = .dict t
  | members .., o => ∃ t, o = .set t
  | enumerate .., o => ∃ c, o = .iter c
  | zip .., o => ∃ c, o = .iter c

/-- Whatever can be read of what a cursor draws on suits it. -/
def Stands (heap : Heap) (c : Cursor) : Prop :=
  ∀ g ∈ c.children, ∀ o, heap.get? g = some o → c.Suits o

theorem Stands.step (hc : c.Stands heap) (h : c.step heap = .ok (y, c')) : c'.Stands heap := by
  cases c with
  | forward u k position =>
    obtain ⟨o, ho, h⟩ := Heap.bind_eq_ok.1 h
    obtain ⟨ha, h⟩ := Heap.unless_eq_ok.1 h
    rw [Heap.get_eq_ok] at ho
    rcases he : elementAt? position o with _ | ⟨z, p⟩ <;> rw [he] at h <;>
      obtain ⟨-, rfl⟩ := Prod.mk.inj (Heap.pure_eq_ok.1 h)
    · exact hc
    · intro g hg w hw
      obtain rfl := List.mem_singleton.1 hg
      obtain rfl := Option.some.inj (ho.symm.trans hw)
      exact admits_elementAt? ha he
  | backward u position =>
    obtain ⟨o, ho, h⟩ := Heap.bind_eq_ok.1 h
    obtain ⟨ha, h⟩ := Heap.unless_eq_ok.1 h
    rw [Heap.get_eq_ok] at ho
    rcases he : elementBefore? position o with _ | ⟨z, p⟩ <;> rw [he] at h <;>
      obtain ⟨-, rfl⟩ := Prod.mk.inj (Heap.pure_eq_ok.1 h) <;> intro g hg w hw <;>
      obtain rfl := List.mem_singleton.1 hg
    · exact admits_zero w
    · obtain rfl := Option.some.inj (ho.symm.trans hw)
      exact admits_elementBefore? ha he
  | range =>
    cases (onward_step h).alike
    exact List.forall_mem_nil _
  | entries | members =>
    have hon := onward_step h
    cases hon.alike
    obtain ⟨rfl, -⟩ := hon
    exact hc
  | enumerate | zip =>
    obtain ⟨-, rfl⟩ := Prod.mk.inj (Heap.pure_eq_ok.1 h)
    exact hc

/-- A move keeps a cursor standing. -/
theorem Advances.stands (h : c.Advances heap c') (hc : c.Stands heap) : c'.Stands heap := by
  cases h with
  | step h => exact hc.step h
  | count => exact hc

/-! ## Starting -/

section Starting

variable {v : Handle} {o : Object}

/-- The cursors of new iterators: before the first element of a sequence, at the first term of a
range, and before the first entry of a dict, of the dict of a view, or of a set. -/
inductive Starts (v : Handle) : Object → Cursor → Prop
  | sequence (o : Object) (kind : Kind) : Starts v o (.forward v kind 0)
  | range (p : Progression) : Starts v (.range p) (.range p.start p.step p.length)
  | dict (t : Table (Handle × Handle)) : Starts v (.dict t) (.entries v .keys 0 0 false)
  | view (d : Handle) (part : ViewPart) : Starts v (.view d part) (.entries d part 0 0 false)
  | set (t : Table Handle) : Starts v (.set t) (.members v 0 0 false)

theorem starts_of_ofObject? (h : ofObject? v o = some c) : Starts v o c := by
  cases o with
  | list | tuple | str | bytes =>
    obtain rfl := Option.some.inj h
    exact .sequence _ _
  | range p =>
    obtain rfl := Option.some.inj h
    exact .range p
  | dict t =>
    obtain rfl := Option.some.inj h
    exact .dict t
  | view d part =>
    obtain rfl := Option.some.inj h
    exact .view d part
  | set t =>
    obtain rfl := Option.some.inj h
    exact .set t
  | _ => cases h

theorem Starts.plain (h : Starts v o c) : c.Plain := by
  cases h <;> trivial

/-- A cursor that runs backwards starts at the end of a sequence, or it is one over a range. -/
theorem reversed?_cases (h : reversed? v o = some c) :
    (∃ position, c = .backward v position ∧ admits position o = true) ∨
      ∃ n d m, c = .range n d m := by
  cases o with
  | list | tuple | bytes =>
    obtain rfl := Option.some.inj h
    exact .inl ⟨_, rfl, rfl⟩
  | str t hash? =>
    obtain rfl := Option.some.inj h
    exact .inl ⟨_, rfl, admits_end t hash?⟩
  | range =>
    obtain rfl := Option.some.inj h
    exact .inr ⟨_, _, _, rfl⟩
  | _ => cases h

end Starting

end ObjectSpace.Cursor
