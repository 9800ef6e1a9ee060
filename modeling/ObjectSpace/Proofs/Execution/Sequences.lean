import ObjectSpace.Proofs.Execution.Enumerating
import ObjectSpace.Proofs.Execution.Ranges
import ObjectSpace.Proofs.Execution.Slices
import ObjectSpace.Proofs.Iteration.Standing

/-!
# Sequences

A list, a tuple, a text and bytes are indexed by elements, and so is their length. An iterator
keeps a position instead, and in a text that one counts bytes.

**Theorem (`sequences_agree`).** In every space of a run on live handles, a sequence is the list of
its elements (`Object.elements?`): that list has its length, the items under its indices, what
iterating forwards and backwards gives, and what `list` and `tuple` make of it. Every position that
an iterator keeps in a text is between two characters, so it can go on, to the end of the text or to
the start of it.

The position behind some first elements is the sum of their widths (`extent`), where a character is
as wide as its UTF-8 form. A step forwards reads the element behind a position and adds its width,
a step backwards takes the width of the element before away. So a position that splits the list of
elements in two leads to another one that does, and what is left on its side is what comes.
-/

namespace ObjectSpace

namespace Element

/-- What a step of an iterator yields for an element. -/
def yielded : Element → Yield
  | value h => .handle h
  | char c => .str c.toString
  | byte b => .int (Int64.ofNat b.toNat)

/-- How far an element takes an iterator. -/
def width : Element → Nat
  | char c => c.utf8Size
  | value _ | byte _ => 1

/-- A value for an element: the item itself, a text of the character, or the integer of the byte. -/
def Shows (heap : Heap) (v : Handle) : Element → Prop
  | value h => v = h
  | char c => heap.Has v (.str c.toString none)
  | byte b => heap.Has v (.int (Int64.ofNat b.toNat))

theorem width_pos (e : Element) : 0 < e.width := by
  cases e with
  | char c => exact c.utf8Size_pos
  | value | byte => exact Nat.one_pos

end Element

/-- The position behind the first elements of a sequence. -/
def extent (es : List Element) : Nat := (es.map Element.width).sum

/-- What a type of sequences is called where an index is refused. -/
def Object.indexed : Object → String
  | list _ => "list"
  | tuple _ => "tuple"
  | str .. => "string"
  | bytes _ => "bytes"
  | _ => ""

variable {o : Object} {as bs es : List Element} {e : Element}

/-! ## Positions -/

@[simp] theorem extent_nil : extent [] = 0 := rfl

@[simp] theorem extent_append (as bs : List Element) :
    extent (as ++ bs) = extent as + extent bs := by
  simp [extent]

@[simp] theorem extent_singleton (e : Element) : extent [e] = e.width := by
  simp [extent]

/-- A position is at least as great as the index that it stands for. -/
theorem length_le_extent (es : List Element) : es.length ≤ extent es := by
  induction es with
  | nil => exact Nat.le_refl 0
  | cons e es ih =>
    have := e.width_pos
    simp only [extent, List.map_cons, List.sum_cons, List.length_cons] at ih ⊢
    omega

theorem extent_chars (cs : List Char) : extent (cs.map .char) = String.utf8Len cs := by
  induction cs with
  | nil => rfl
  | cons c cs ih =>
    rw [List.map_cons, ← List.singleton_append, extent_append, ih, String.utf8Len_cons,
      extent_singleton, Nat.add_comm]
    rfl

theorem extent_map {α : Type} {f : α → Element} (hf : ∀ x, (f x).width = 1) (xs : List α) :
    extent (xs.map f) = xs.length := by
  simp [extent, Function.comp_def, hf]

theorem getElem?_length {α : Type} {xs : Array α} {before after : List α}
    (h : xs.toList = before ++ after) : xs[before.length]? = after.head? := by
  rw [← Array.getElem?_toList, h, List.getElem?_append_right (Nat.le_refl _), Nat.sub_self,
    List.head?_eq_getElem?]

namespace Cursor

/-- The element behind a position. -/
theorem elementAt?_extent (ho : o.elements? = some (as ++ bs)) :
    elementAt? (extent as) o =
      bs.head?.map fun e => (e.yielded, extent as + e.width) := by
  cases o with
  | list items | tuple items =>
    obtain ⟨xs, ys, hxs, rfl, rfl⟩ := List.map_eq_append_iff.1 (Option.some.inj ho)
    rw [extent_map (fun _ => rfl), elementAt?, getElem?_length hxs, List.head?_map, Option.map_map]
    rfl
  | bytes items =>
    obtain ⟨xs, ys, hxs, rfl, rfl⟩ := List.map_eq_append_iff.1 (Option.some.inj ho)
    rw [extent_map (fun _ => rfl), elementAt?, getElem?_length hxs, List.head?_map, Option.map_map]
    rfl
  | str text =>
    obtain ⟨cs, ds, hcs, rfl, rfl⟩ := List.map_eq_append_iff.1 (Option.some.inj ho)
    rw [extent_chars, ← String.ofList_toList (s := text), hcs, elementAt?_str, List.head?_map,
      Option.map_map]
    rfl
  | _ => cases ho

/-- The element before a position. -/
theorem elementBefore?_extent (ho : o.elements? = some (as ++ e :: bs)) :
    elementBefore? (extent (as ++ [e])) o = some (e.yielded, extent as) := by
  have hpos : extent as + e.width ≠ 0 := by
    have := e.width_pos
    omega
  rw [extent_append, extent_singleton]
  cases o with
  | list items | tuple items | bytes items =>
    obtain ⟨xs, zs, hxs, rfl, hzs⟩ := List.map_eq_append_iff.1 (Option.some.inj ho)
    obtain ⟨x, ys, rfl, rfl, -⟩ := List.map_eq_cons_iff.1 hzs
    have hsize : items.size = xs.length + (ys.length + 1) := by
      rw [← Array.length_toList, hxs, List.length_append, List.length_cons]
    have hplace : min (xs.length + 1) items.size - 1 = xs.length := by omega
    rw [extent_map (fun _ => rfl)] at hpos ⊢
    rw [elementBefore?, if_neg hpos]
    simp only [Element.width, hplace, getElem?_length hxs]
    rfl
  | str text =>
    obtain ⟨cs, zs, hcs, rfl, hzs⟩ := List.map_eq_append_iff.1 (Option.some.inj ho)
    obtain ⟨c, ds, rfl, rfl, -⟩ := List.map_eq_cons_iff.1 hzs
    rw [extent_chars, ← String.ofList_toList (s := text), hcs]
    exact elementBefore?_str cs c ds
  | _ => cases ho

theorem elementBefore?_zero (o : Object) : elementBefore? 0 o = none := by
  cases o <;> rfl

/-- A position of the elements is one of the object. -/
theorem admits_extent (ho : o.elements? = some (as ++ bs)) : admits (extent as) o = true := by
  cases o with
  | str text =>
    obtain ⟨cs, ds, hcs, rfl, rfl⟩ := List.map_eq_append_iff.1 (Option.some.inj ho)
    rw [extent_chars]
    exact admits_str.2 ⟨cs, ds, hcs ▸ String.ofList_toList.symm, rfl⟩
  | _ => rfl

end Cursor

theorem sequenceLength_eq (ho : o.elements? = some es) : Heap.sequenceLength o = extent es := by
  cases o with
  | list items | tuple items | bytes items =>
    obtain rfl := Option.some.inj ho
    rw [extent_map (fun _ => rfl), Array.length_toList, Heap.sequenceLength]
  | str text =>
    obtain rfl := Option.some.inj ho
    rw [extent_chars, String.utf8Len_toList, Heap.sequenceLength]
  | _ => cases ho

theorem ofObject?_eq (ho : o.elements? = some es) (v : Handle) :
    ∃ kind, Cursor.ofObject? v o = some (.forward v kind (extent [])) := by
  cases o with
  | list | tuple | str | bytes => exact ⟨_, rfl⟩
  | _ => cases ho

theorem reversed?_eq (ho : o.elements? = some es) (v : Handle) :
    Cursor.reversed? v o = some (.backward v (extent es)) := by
  rw [← sequenceLength_eq ho]
  cases o with
  | list | tuple | str | bytes => rfl
  | _ => cases ho

namespace Space

variable {s s' : Space} {it v key : Handle} {kind : Kind} {c : Cursor} {p : Nat} {k : Object}
  {i : Int64} {j : Nat} {items : Array Handle}

/-! ## Iterating -/

theorem Frame.element {touched : List Handle} (f : Frame touched s s') (h : e.Shows s.heap v) :
    e.Shows s'.heap v := by
  cases e with
  | value => exact h
  | char | byte => exact f.fixed h fun _ h => h

/-- An action gives a value for an element. -/
def Reads (s : Space) (act : Action Handle) (e : Element) : Prop :=
  ∃ v s', act s = .ok v s' ∧ Frame [] s s' ∧ e.Shows s'.heap v

/-- An action makes an iterator that gives values for elements, also when all of it is collected. -/
def Unrolls (s : Space) (act : Action Handle) (es : List Element) : Prop :=
  ∃ it s₁, act s = .ok it s₁ ∧ s.heap.get? it = none ∧ Frame [] s s₁ ∧
    Gives Element.Shows it es s₁ ∧
    ∃ items s₂, collect it s₁ = .ok items s₂ ∧ Frame [it] s₁ s₂ ∧
      List.Forall₂ (Element.Shows s₂.heap) items.toList es

/-- An action makes a sequence of values for elements. -/
def Gathers (s : Space) (act : Action Handle) (sequence : Array Handle → Object)
    (es : List Element) : Prop :=
  ∃ v items s', act s = .ok v s' ∧ s.heap.isLive v = false ∧ Frame [] s s' ∧
    s'.heap.Has v (sequence items) ∧ List.Forall₂ (Element.Shows s'.heap) items.toList es

theorem reads_emit (i : s.Steady) (e : Element) : s.Reads (emit e.yielded) e := by
  cases e with
  | value h => exact ⟨h, s, rfl, .refl i, rfl⟩
  | char c =>
    obtain ⟨v, s', hs', -, f, hv⟩ := makes_newStr i c.toString
    exact ⟨v, s', hs', f, hv⟩
  | byte b =>
    obtain ⟨v, s', hs', -, f, hv⟩ := makes_newInt i (Int64.ofNat b.toNat)
    exact ⟨v, s', hs', f, hv⟩

/-- A step of a cursor that yields an element gives a value for it. -/
theorem next_yielded (i : s.Steady) (hit : s.heap.Has it (.iter c)) (hc : c.Plain) {c' : Cursor}
    (h : c.step s.heap = .ok (some e.yielded, c')) :
    ∃ v s', next it s = .ok (some v) s' ∧ Frame [it] s s' ∧ e.Shows s'.heap v ∧
      s'.heap.Has it (.iter c') := by
  refine next_emit (R := fun heap v => e.Shows heap v) i hit hc h ?_
  intro s' f
  exact reads_emit f.steady e

section

variable (hv : s.heap.Has v o)

include hv

theorem step_forward (ho : o.elements? = some (as ++ bs)) :
    (Cursor.forward v kind (extent as)).step s.heap = .ok (bs.head?.map Element.yielded,
      .forward v kind (extent (as ++ bs.take 1))) := by
  rw [Cursor.step, Heap.bind_of_ok (Heap.get_eq_ok.2 hv.2), Cursor.admits_extent ho,
    Cursor.elementAt?_extent ho]
  cases bs with
  | nil =>
    rw [List.take_nil, List.append_nil]
    rfl
  | cons e bs =>
    rw [extent_append, List.take_one, List.head?_cons, Option.toList_some, extent_singleton]
    rfl

theorem step_backward (ho : o.elements? = some (as ++ e :: bs)) :
    (Cursor.backward v (extent (as ++ [e]))).step s.heap =
      .ok (some e.yielded, .backward v (extent as)) := by
  have hsplit : o.elements? = some ((as ++ [e]) ++ bs) := by
    rw [ho, List.append_assoc, List.singleton_append]
  rw [Cursor.step, Heap.bind_of_ok (Heap.get_eq_ok.2 hv.2), Cursor.admits_extent hsplit,
    Cursor.elementBefore?_extent ho]
  rfl

theorem step_backward_start :
    (Cursor.backward v 0).step s.heap = .ok (none, .backward v 0) := by
  rw [Cursor.step, Heap.bind_of_ok (Heap.get_eq_ok.2 hv.2), Cursor.admits_zero,
    Cursor.elementBefore?_zero]
  rfl

end

/-- An iterator behind the first elements of a sequence gives the others. -/
theorem gives_forward (i : s.Steady) (hv : s.heap.Has v o) (ho : o.elements? = some (as ++ bs))
    (hit : s.heap.Has it (.iter (.forward v kind (extent as)))) :
    Gives Element.Shows it bs s := by
  have hfixed : ∀ {c}, o ≠ .iter c := by
    rintro c rfl
    cases ho
  induction bs generalizing as s with
  | nil =>
    obtain ⟨s', hs', f, -⟩ := next_frame i hit trivial (step_forward hv ho)
    exact ⟨s', hs', f⟩
  | cons e bs ih =>
    have hsplit : o.elements? = some ((as ++ [e]) ++ bs) := by
      rw [ho, List.append_assoc, List.singleton_append]
    obtain ⟨w, s', hs', f, hw, hit'⟩ := next_yielded i hit trivial (step_forward hv ho)
    refine ⟨w, s', hs', f, hw, fun s'' g => ?_⟩
    exact ih g.steady (g.keep (f.other hit hv hfixed)) hsplit (g.keep hit')

/-- An iterator that runs backwards gives the elements before it. -/
theorem gives_backward (i : s.Steady) (hv : s.heap.Has v o) (ho : o.elements? = some (as ++ bs))
    (hit : s.heap.Has it (.iter (.backward v (extent as)))) :
    Gives Element.Shows it as.reverse s := by
  have hfixed : ∀ {c}, o ≠ .iter c := by
    rintro c rfl
    cases ho
  induction as using List.reverseRecOn generalizing bs s with
  | nil =>
    obtain ⟨s', hs', f, -⟩ := next_frame i hit trivial (step_backward_start hv)
    exact ⟨s', hs', f⟩
  | append_singleton as e ih =>
    have hsplit : o.elements? = some (as ++ e :: bs) := by
      rw [ho, List.append_assoc, List.singleton_append]
    obtain ⟨w, s', hs', f, hw, hit'⟩ := next_yielded i hit trivial (step_backward hv hsplit)
    rw [List.reverse_append]
    refine ⟨w, s', hs', f, hw, fun s'' g => ?_⟩
    exact ih g.steady (g.keep (f.other hit hv hfixed)) hsplit (g.keep hit')

theorem collect_of_gives (hv : s.heap.Has v o) (ho : o.elements? = some es)
    (hit : s.heap.Has it (.iter c))
    (hc : (∃ kind p, c = .forward v kind p) ∨ ∃ p, c = .backward v p)
    (hle : as.length ≤ es.length) (h : Gives Element.Shows it as s) :
    ∃ items s', collect it s = .ok items s' ∧ Frame [it] s s' ∧
      List.Forall₂ (Element.Shows s'.heap) items.toList as := by
  obtain ⟨items, s', hs', f, hitems⟩ := drain_of_gives (fun f => f.element) h
  have hsteps : ∀ n, Heap.stepsWithin (n + 1) it s.heap = .ok (extent es) := by
    intro n
    rw [Heap.stepsWithin, Heap.bind_of_ok (cursor_eq hit), ← sequenceLength_eq ho]
    obtain ⟨kind, p, rfl⟩ | ⟨p, rfl⟩ := hc
    all_goals exact Heap.bind_of_ok (Heap.get_eq_ok.2 hv.2)
  refine ⟨items, s', ?_, f, hitems⟩
  rw [collect_iterator hit.2, ask_bind_of_ok (Heap.depth_eq_ok.2 rfl), ask_bind_of_ok (hsteps _)]
  exact hs' _ (Nat.lt_succ_of_le (hle.trans (length_le_extent es)))

theorem unrolls_iter (i : s.Steady) (hv : s.heap.Has v o) (ho : o.elements? = some es) :
    s.Unrolls (iter v) es := by
  obtain ⟨kind, hc⟩ := ofObject?_eq ho v
  obtain ⟨it, s₁, hs₁, hnew, f, hit⟩ := iter_frame i hv hc
  have hsplit : o.elements? = some ([] ++ es) := ho
  have hgives := gives_forward f.steady (f.keep hv) hsplit hit
  exact ⟨it, s₁, hs₁, hnew, f, hgives,
    collect_of_gives (f.keep hv) ho hit (.inl ⟨kind, _, rfl⟩) (Nat.le_refl _) hgives⟩

theorem unrolls_reversed (i : s.Steady) (hv : s.heap.Has v o) (ho : o.elements? = some es) :
    s.Unrolls (reversed v) es.reverse := by
  have hc := reversed?_eq ho v
  have hsplit : o.elements? = some (es ++ []) := by rw [ho, List.append_nil]
  have hm : s.Makes (reversed v) (.iter (.backward v (extent es))) := by
    refine Makes.of_eq (makes_alloc i (.inl (Trust.stands_reversed? hv.2 hc))
      (List.forall_mem_singleton.2 hv.1) (by rintro ⟨_, _, ⟨⟩, -⟩)) ?_
    rw [reversed, get_bind_of_has hv, hc]
  obtain ⟨it, s₁, hs₁, hnew, f, hit⟩ := hm
  have hgives := gives_backward f.steady (f.keep hv) hsplit hit
  exact ⟨it, s₁, hs₁, hnew, f, hgives, collect_of_gives (f.keep hv) ho hit (.inr ⟨_, rfl⟩)
    (Nat.le_of_eq List.length_reverse) hgives⟩

/-! ## Collecting -/

/-- A value that is listed by an iterator gives what a new one gives. -/
theorem collect_eq_of_iter (hv : s.heap.Has v o) (ho : o.elements? = some es)
    (hnone : o.asSequence? = none) (h : iter v s = .ok it s') (i : s.Steady) :
    collect v s = collect it s' := by
  obtain ⟨c, hit⟩ := Trust.iter_gives i.roomy h
  rw [collect_iterator hit, collect, get_bind_of_has hv]
  cases o with
  | str | bytes =>
    dsimp only
    rw [bind_of_ok h]
  | list | tuple => cases hnone
  | _ => cases ho

theorem collect_elements (i : s.Steady) (hv : s.heap.Has v o) (ho : o.elements? = some es) :
    ∃ items s', collect v s = .ok items s' ∧ Frame [] s s' ∧
      List.Forall₂ (Element.Shows s'.heap) items.toList es := by
  cases hseq : o.asSequence? with
  | some items =>
    obtain rfl : es = items.toList.map .value := by
      cases o with
      | list | tuple =>
        obtain rfl := Option.some.inj hseq
        exact (Option.some.inj ho).symm
      | _ => cases hseq
    refine ⟨items, s, collect_sequence hv hseq, .refl i, ?_⟩
    rw [List.forall₂_map_right_iff, List.forall₂_same]
    exact fun _ _ => rfl
  | none =>
    obtain ⟨it, s₁, hs₁, hnew, f₁, -, items, s₂, hs₂, f₂, hitems⟩ := unrolls_iter i hv ho
    have f : Frame [it] s s₂ := (f₁.trans f₂).mono (by simp)
    exact ⟨items, s₂, (collect_eq_of_iter hv ho hseq hs₁ i).trans hs₂,
      f.of_new (List.forall_mem_singleton.2 hnew), hitems⟩

theorem live_of_shows (i : s.Steady) (hv : s.heap.Has v o) (ho : o.elements? = some es)
    (f : Frame [] s s') (h : List.Forall₂ (Element.Shows s'.heap) items.toList es) :
    ∀ g ∈ items.toList, s'.heap.isLive g = true := by
  intro g hg
  obtain ⟨e, he, hshows⟩ := exists_of_forall₂ h hg
  cases e with
  | value w =>
    obtain rfl : g = w := hshows
    refine f.live (i.children hv g ?_)
    cases o with
    | list | tuple =>
      obtain rfl := Option.some.inj ho
      simpa [Object.children] using he
    | str | bytes =>
      obtain rfl := Option.some.inj ho
      simp at he
    | _ => cases ho
  | char | byte => exact hshows.1

theorem gathers_collect (i : s.Steady) (hv : s.heap.Has v o) (ho : o.elements? = some es)
    {act : Array Handle → Action Handle} {sequence : Array Handle → Object}
    (hact : ∀ {s : Space} {items : Array Handle}, s.Steady →
      (∀ g ∈ items.toList, s.heap.isLive g = true) → s.Makes (act items) (sequence items)) :
    s.Gathers (collect v >>= act) sequence es := by
  obtain ⟨items, s₁, hs₁, f₁, hitems⟩ := collect_elements i hv ho
  obtain ⟨w, s₂, hs₂, hnew, f₂, hw⟩ := hact f₁.steady (live_of_shows i hv ho f₁ hitems)
  have hdead : s.heap.isLive w = false := by
    by_contra h
    obtain ⟨p, hp, -⟩ := f₁.steady.ordered.sound.get? (f₁.live (Bool.not_eq_false _ ▸ h))
    rw [hnew] at hp
    cases hp
  exact ⟨w, items, s₂, (bind_of_ok hs₁).trans hs₂, hdead, f₁.again f₂, hw,
    hitems.imp fun _ _ h => f₂.element h⟩

/-! ## Items and length -/

theorem normalizeIndex_of_no_place {length : Nat} (h : i.toInt < -length ∨ length ≤ i.toInt)
    (type : String) : normalizeIndex i length type = .error (.indexOutOfRange type) := by
  rw [normalizeIndex]
  simp only [← Integer.toInt_neg_iff]
  rw [if_neg]
  split <;> omega

/-- The item of a sequence at a place. -/
def item (v : Handle) (o : Object) (place : Nat) : Action Handle :=
  match o with
  | .list items | .tuple items => pure (items.getD place v)
  | .str text _ => newStr (String.ofList text.toList[place]?.toList)
  | .bytes bs => newInt (Int64.ofNat (bs.getD place 0).toNat)
  | _ => pure v

theorem getItem_eq (hv : s.heap.Has v o) (ho : o.elements? = some es) (hk : s.heap.Has key k)
    (hi : k.asInt? = some i) :
    getItem v key s =
      ((liftM (normalizeIndex i es.length o.indexed) : Action Nat) >>= item v o) s := by
  rw [getItem, get_bind_of_has hv]
  cases o <;> cases ho <;> dsimp only <;> simp only [bind_assoc] <;>
    rw [ask_bind_of_ok (indexArgument_eq hk hi v "getitem")]
  case list.refl | tuple.refl | bytes.refl =>
    rw [List.length_map, Array.length_toList]
    rfl
  case str.refl =>
    rw [List.length_map]
    rfl

/-- The item at the place of an element. -/
theorem reads_item (h : s.Steady) (ho : o.elements? = some es) (he : es[j]? = some e) :
    s.Reads (item v o j) e := by
  cases o <;> cases ho <;> rw [List.getElem?_map, Option.map_eq_some_iff] at he <;>
    obtain ⟨x, hx, rfl⟩ := he
  case list.refl items | tuple.refl items =>
    have hget : items.getD j v = x := by
      rw [Array.getD_eq_getD_getElem?, ← Array.getElem?_toList, hx, Option.getD_some]
    exact ⟨x, s, congrArg (EStateM.Result.ok · s) hget, .refl h, rfl⟩
  case str.refl =>
    have hone : String.ofList [x] = x.toString := String.singleton_eq_ofList.symm
    rw [item, hx, Option.toList_some, hone]
    exact reads_emit h (.char x)
  case bytes.refl bs =>
    have hget : bs.getD j 0 = x := by
      rw [Array.getD_eq_getD_getElem?, ← Array.getElem?_toList, hx, Option.getD_some]
    rw [item, hget]
    exact reads_emit h (.byte x)

theorem reads_getItem (h : s.Steady) (hv : s.heap.Has v o) (ho : o.elements? = some es)
    (hk : s.heap.Has key k) (hi : k.asInt? = some i) (he : es[j]? = some e)
    (hj : i.toInt = j ∨ i.toInt = j - es.length) : s.Reads (getItem v key) e := by
  have hlt : j < es.length := (List.getElem?_eq_some_iff.1 he).1
  rw [Reads, getItem_eq hv ho hk hi, check_bind_of_ok (normalizeIndex_of_place hlt hj _)]
  exact reads_item h ho he

theorem getItem_error (hv : s.heap.Has v o) (ho : o.elements? = some es)
    (hk : s.heap.Has key k) (hi : k.asInt? = some i)
    (hj : i.toInt < -es.length ∨ es.length ≤ i.toInt) :
    getItem v key s = .error (.fatal (.indexOutOfRange o.indexed)) s := by
  rw [getItem_eq hv ho hk hi, check_bind_of_error (normalizeIndex_of_no_place hj _)]

theorem length_elements (hv : s.heap.Has v o) (ho : o.elements? = some es) :
    Heap.length v s.heap = .ok es.length := by
  rw [Heap.length, Heap.bind_of_ok (Heap.get_eq_ok.2 hv.2)]
  cases o with
  | list items | tuple items | bytes items =>
    obtain rfl := Option.some.inj ho
    rw [List.length_map, Array.length_toList]
    rfl
  | str text =>
    obtain rfl := Option.some.inj ho
    rw [List.length_map, String.length_toList]
    rfl
  | _ => cases ho

theorem runBuiltin_length (i : s.Steady) (hv : s.heap.Has v o) (ho : o.elements? = some es) :
    (es.length < 2 ^ 63 → s.Makes (runBuiltin .len [v] none) (.int (Int64.ofNat es.length))) ∧
    (2 ^ 63 ≤ es.length →
      runBuiltin .len [v] none s = .error (.fatal (.integerOverflow "len")) s) := by
  have hlen : runBuiltin .len [v] none s = newCount "len" es.length s := by
    show ((liftM (Heap.length v) : Action Nat) >>= newCount "len") s = _
    rw [ask_bind_of_ok (length_elements hv ho)]
  refine ⟨fun h => (makes_newInt i _).of_eq ?_, fun h => ?_⟩
  · rw [hlen, newCount, check_bind_of_ok (Integer.checked_natCast "len" h)]
  · have hword : ¬ Integer.IsWord es.length := by
      unfold Integer.IsWord
      omega
    rw [hlen, newCount, check_bind_of_error (Integer.checked_of_not_isWord "len" hword)]

/-! ## Cursors in texts -/

/-- A position in a text splits its characters in two. -/
theorem exists_extent_of_admits {t : String} {hash? : Option UInt64}
    (h : Cursor.admits p (.str t hash?) = true) :
    ∃ as bs, t.toList.map Element.char = as ++ bs ∧ p = extent as := by
  obtain ⟨cs, ds, rfl, rfl⟩ := Cursor.admits_str.1 h
  refine ⟨cs.map .char, ds.map .char, ?_, (extent_chars cs).symm⟩
  rw [String.toList_ofList, List.map_append]

end Space

open Space

variable {settings : Settings} {disk : Disk} {s : Space} {v : Handle}

/-- **Sequences.** One list of elements describes a list, a tuple, a text and bytes: its length, the
items under its indices from the start and from the end, and only under those, what iterating
forwards and backwards gives, and what `list` and `tuple` make of it. An iterator over a text is
between two characters wherever it stands, and it gives the characters on its side. -/
theorem sequences_agree (r : LiveRun settings disk s) (hv : s.heap.Has v o)
    (ho : o.elements? = some es) :
    ((es.length < 2 ^ 63 → s.Makes (runBuiltin .len [v] none) (.int (Int64.ofNat es.length))) ∧
      (2 ^ 63 ≤ es.length →
        runBuiltin .len [v] none s = .error (.fatal (.integerOverflow "len")) s)) ∧
    (∀ key k i, s.heap.Has key k → k.asInt? = some i →
      (∀ (j : ℕ) e, es[j]? = some e → i.toInt = j ∨ i.toInt = j - es.length →
        s.Reads (getItem v key) e) ∧
      (i.toInt < -es.length ∨ es.length ≤ i.toInt →
        getItem v key s = .error (.fatal (.indexOutOfRange o.indexed)) s)) ∧
    (s.Unrolls (iter v) es ∧ s.Unrolls (reversed v) es.reverse) ∧
    (s.Gathers (construct .list [v] none) .list es ∧
      s.Gathers (construct .tuple [v] none) .tuple es) ∧
    ∀ text hash?, o = .str text hash? → ∀ it p,
      (∀ kind, s.heap.Has it (.iter (.forward v kind p)) →
        String.Pos.Raw.isValid text ⟨p⟩ = true ∧
        ∃ as bs, es = as ++ bs ∧ p = extent as ∧ Gives Element.Shows it bs s) ∧
      (s.heap.Has it (.iter (.backward v p)) → String.Pos.Raw.isValid text ⟨p⟩ = true ∧
        ∃ as bs, es = as ++ bs ∧ p = extent as ∧ Gives Element.Shows it as.reverse s) := by
  have i := steady_of_liveRun r
  refine ⟨runBuiltin_length i hv ho, fun key k n hk hn =>
    ⟨fun j e he hj => reads_getItem i hv ho hk hn he hj, getItem_error hv ho hk hn⟩,
    ⟨unrolls_iter i hv ho, unrolls_reversed i hv ho⟩,
    ⟨gathers_collect i hv ho fun i h => makes_newList i h,
      gathers_collect i hv ho fun i h => makes_newTuple i h⟩, ?_⟩
  rintro text hash? rfl it p
  refine ⟨fun kind hit => ?_, fun hit => ?_⟩
  all_goals
    have ha : Cursor.admits p (.str text hash?) = true :=
      r.firm.standing.cursors it _ hit v (List.mem_singleton_self v) _ hv.2
    obtain ⟨as, bs, hsplit, rfl⟩ := exists_extent_of_admits ha
    rw [Object.elements?, hsplit] at ho
    refine ⟨ha, as, bs, (Option.some.inj ho).symm, rfl, ?_⟩
  · exact gives_forward i hv (congrArg some hsplit) hit
  · exact gives_backward i hv (congrArg some hsplit) hit

/-- A text of characters of one, two, three and four bytes, with its last character at index minus
one and none at index four. -/
theorem sequences_agree_widths :
    ∃ s v last beyond, LiveRun {} {} s ∧ IsText s.heap v "aé€😀" ∧
      s.heap.Has last (.int (-1)) ∧ s.Reads (getItem v last) (.char '😀') ∧
      s.heap.Has beyond (.int 4) ∧
      getItem v beyond s = .error (.fatal (.indexOutOfRange "string")) s ∧
      s.Unrolls (iter v) [.char 'a', .char 'é', .char '€', .char '😀'] ∧
      s.Unrolls (reversed v) [.char '😀', .char '€', .char 'é', .char 'a'] := by
  obtain ⟨s₀, h₀⟩ := create_ok {} rfl {}
  obtain ⟨v, s₁, r₁, f₁, hv⟩ := (LiveRun.start h₀).newStr "aé€😀"
  obtain ⟨last, s₂, r₂, f₂, hlast⟩ := r₁.newInt (-1)
  obtain ⟨beyond, s, r, f, hbeyond⟩ := r₂.newInt 4
  obtain ⟨hash?, hv⟩ := f.isText (f₂.isText hv)
  have hlast : s.heap.Has last (.int (-1)) := f.keep hlast
  have hes : (Object.str "aé€😀" hash?).elements? =
      some [.char 'a', .char 'é', .char '€', .char '😀'] := by
    rw [Object.elements?, show "aé€😀".toList = ['a', 'é', '€', '😀'] by decide]
    rfl
  obtain ⟨-, hitems, ⟨hiter, hreversed⟩, -⟩ := sequences_agree r hv hes
  exact ⟨s, v, last, beyond, r, ⟨hash?, hv⟩, hlast,
    (hitems last _ (-1) hlast rfl).1 3 _ rfl (.inr rfl), hbeyond,
    (hitems beyond _ 4 hbeyond rfl).2 (.inr (Int.le_refl 4)), hiter, hreversed⟩

end ObjectSpace
