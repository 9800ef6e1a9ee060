import ObjectSpace.Proofs.Value.Always
import ObjectSpace.Proofs.Value.Runs
import ObjectSpace.Proofs.Value.Spelling

/-!
# Text forms of data

**Theorem (`repr_unambiguous`).** In every state that a run reaches, data have a text form, and data
with the same text form are of the same type and equal. The literals of texts and of bytes determine
their content and where they end, whatever follows.

Data contain no cycle, so no container is active when it is met again, and the text form is what
`spelling` says (`reprWithin_data`). It can be read back down to the last part (`reads_spelling`).
What is read back is enough for equality (`equalWithin_of_match`): entries and members come in table
order, so they correspond one by one, and there is one None.
-/

namespace ObjectSpace

open Relation

variable {heap : Heap} {see : Handle → Option Object}

/-! ## The text form of data -/

namespace Heap

theorem mapM_of_ok {α β : Type} {f : α → Query β} {g : α → β} {l : List α}
    (h : ∀ a ∈ l, f a heap = .ok (g a)) : l.mapM f heap = .ok (l.map g) := by
  induction l with
  | nil => rfl
  | cons a l ih =>
    rw [List.forall_mem_cons] at h
    rw [List.mapM_cons, bind_of_ok h.1, bind_of_ok (ih h.2)]
    rfl

theorem bracketed_eq {α : Type} (opening closing : String) (text : α → List Char) (l : List α) :
    bracketed opening closing (l.map fun a => String.ofList (text a)) =
      String.ofList (opening.toList ++ (row text l ++ closing.toList)) := by
  apply String.toList_inj.1
  simp [bracketed, row, Function.comp_def]

theorem reprWithin_data (hs : ObjectSpace.Shows heap see) {n : Nat} {v : Handle}
    {active : List Handle} (d : Data see v) (w : Within see n v)
    (hactive : ∀ a ∈ active, TransGen (Grounded.Part see) a v) :
    reprWithin n active v heap = .ok (String.ofList (spelling see n v)) := by
  induction n generalizing v active with
  | zero => exact w.elim
  | succ n ih =>
    have hfresh : active.contains v = false := by
      rw [List.contains_eq_mem, decide_eq_false_iff_not]
      intro hm
      exact d.grounded.irrefl (hactive v hm)
    obtain ⟨ho, hdata, hparts⟩ := d
    rename_i o
    obtain ⟨o', ho', hwithin⟩ := w
    rw [ho, Option.some.injEq] at ho'
    subst ho'
    have hpart : ∀ p ∈ o.parts,
        reprWithin n (v :: active) p heap = .ok (String.ofList (spelling see n p)) := by
      intro p hp
      have hvp : Grounded.Part see v p := ⟨o, ho, hp⟩
      apply ih (hparts p hp) (hwithin p hp)
      intro a ha
      rcases List.mem_cons.1 ha with rfl | ha
      · exact .single hvp
      · exact (hactive a ha).tail hvp
    rw [reprWithin, bind_of_ok (get_eq_ok.2 (hs v o ho)), spelling, ho, Option.map_some,
      Option.getD_some, hfresh, Bool.and_false, if_neg Bool.false_ne_true]
    cases o with
    | nothing | int => exact congrArg Except.ok String.ofList_toList.symm
    | bool b => cases b <;> exact congrArg Except.ok String.ofList_toList.symm
    | str | bytes => exact congrArg Except.ok String.ofList_toList.symm
    | list items =>
      refine (bind_of_ok (mapM_of_ok (l := items.toList) hpart)).trans ?_
      rw [bracketed_eq]
      rfl
    | tuple items =>
      refine (bind_of_ok (mapM_of_ok (l := items.toList) hpart)).trans ?_
      rw [bracketed_eq]
      simp only [Object.spelled, Reads.tupleEnd]
      split <;> rfl
    | dict t =>
      have hentry : ∀ e ∈ t.toList, (do
          let key ← reprWithin n (v :: active) e.1
          return key ++ ": " ++ (← reprWithin n (v :: active) e.2) : Query String) heap =
            .ok (String.ofList (Reads.entryText (spelling see n) e)) := by
        intro e he
        rw [bind_of_ok (hpart e.1 (List.mem_flatMap.2 ⟨e, he, by simp⟩)),
          bind_of_ok (hpart e.2 (List.mem_flatMap.2 ⟨e, he, by simp⟩))]
        apply congrArg Except.ok
        apply String.toList_inj.1
        simp [Reads.entryText]
      refine (bind_of_ok (mapM_of_ok hentry)).trans ?_
      rw [bracketed_eq]
      rfl
    | set t =>
      simp only [Object.spelled]
      split
      · rfl
      · refine (bind_of_ok (mapM_of_ok (l := t.toList) hpart)).trans ?_
        rw [bracketed_eq]
        rfl
    | range p =>
      have hbounds := bracketed_eq "(" ")" (fun n => (Numeral.decimal n).toList) p.bounds
      simp only [String.ofList_toList] at hbounds
      apply congrArg Except.ok
      refine (congrArg ("range" ++ ·) hbounds).trans ?_
      apply String.toList_inj.1
      simp [Object.spelled]
    | _ => exact hdata.elim

theorem repr_data (hs : ObjectSpace.Shows heap see) {v : Handle} (d : Data see v) :
    repr v heap = .ok (String.ofList (spelling see (heap.capacity + 1) v)) := by
  refine bind_eq_ok.2 ⟨_, depth_eq_ok.2 rfl, ?_⟩
  apply reprWithin_data hs d ((d.grounded.within hs).mono (Nat.le_succ _))
  exact List.forall_mem_nil _

end Heap

/-! ## Equality of what was read back -/

/-- Lists that correspond one by one cover each other, if keys and what is related do. -/
theorem Covers.of_forall₂ {α κ : Type} {key : α → κ} {rel R : α → α → Prop} {xs ys : List α}
    (h : List.Forall₂ R xs ys)
    (hR : ∀ x ∈ xs, ∀ y ∈ ys, R x y → key y = key x ∧ rel x y) : Covers key rel xs ys := by
  induction h with
  | nil => exact List.forall_mem_nil _
  | @cons x y xs ys hxy _ ih =>
    refine List.forall_mem_cons.2 ⟨⟨y, List.mem_cons_self, ?_⟩, fun z hz => ?_⟩
    · exact hR x List.mem_cons_self y List.mem_cons_self hxy
    · obtain ⟨w, hw, hzw⟩ := ih (fun x hx y hy =>
        hR x (List.mem_cons_of_mem _ hx) y (List.mem_cons_of_mem _ hy)) z hz
      exact ⟨w, List.mem_cons_of_mem _ hw, hzw⟩

section Same

open Heap (Yes Same)

variable (L : Legible heap see) {n : Nat} {P : Handle → Prop}
  (E : Compares heap P P (Heap.equalWithin n))

include L E

/-- Objects that are alike up to equality of their parts have the same content, if they are not
None. -/
theorem same_of_alike {x y : Object} (hx : Entered see P x) (hy : Entered see P y)
    (hne : x ≠ .nothing) (h : Object.Alike (Yes heap (Heap.equalWithin n)) x y) :
    Same heap (Heap.equalWithin n) x y := by
  cases h with
  | nothing => exact absurd rfl hne
  | bool b => exact .number rfl rfl
  | int i => exact .number rfl rfl
  | str s a b => exact .str s a b
  | bytes bs => exact .bytes bs
  | range p => exact .range (by simp [Progression.sameTerms])
  | list h => exact .list h
  | tuple h => exact .tuple h
  | @dict d e h =>
    have hsize := (Table.Trim.size_eq_iff (t := d) (u := e) hx.trim hy.trim).2 h.length_eq
    apply (same_iff_resembles L E hx hy).2
    refine .dict hsize (.of_forall₂ h ?_)
    rintro p hp q hq ⟨hkey, hvalue⟩
    exact ⟨L.keyAt_eq hx.filed hy.filed hp hq (hx.key_of_dict p hp) (hy.key_of_dict q hq) hkey,
      hvalue⟩
  | @set d e h =>
    have hsize := (Table.Trim.size_eq_iff (t := d) (u := e) hx.trim hy.trim).2 h.length_eq
    apply (same_iff_resembles L E hx hy).2
    refine .set hsize (.of_forall₂ h ?_)
    intro p hp q hq hpq
    exact ⟨L.keyAt_eq (hx.filed : Filed see (d.filings id)) hy.filed hp hq (hx.key_of_set p hp)
      (hy.key_of_set q hq) hpq, trivial⟩

end Same

theorem equalWithin_of_match (L : Legible heap see) (hone : heap.OneNothing) {n : Nat}
    {u v : Handle} (gu : Grounded see u) (gv : Grounded see v) (wu : Within see n u)
    (wv : Within see n v) (h : Match see n u v) : Heap.equalWithin n u v heap = .ok true := by
  induction n generalizing u v with
  | zero => exact h.elim
  | succ n ih =>
    obtain ⟨x, y, hx, hy, halike⟩ := h
    obtain ⟨x', hx', hxw⟩ := wu
    obtain ⟨y', hy', hyw⟩ := wv
    rw [hx, Option.some.injEq] at hx'
    rw [hy, Option.some.injEq] at hy'
    subst hx' hy'
    rw [Heap.equalWithin_succ (L.shows u x hx) (L.shows v y hy)]
    by_cases huv : u = v
    · rw [if_pos huv]
    · rw [if_neg huv]
      apply Heap.sameContent_eq_true.2
      have hpart : ∀ p ∈ x.parts, ∀ q ∈ y.parts, Match see n p q →
          Heap.Yes heap (Heap.equalWithin n) p q := fun p hp q hq hm =>
        ih (gu.part ⟨x, hx, hp⟩) (gv.part ⟨y, hy, hq⟩) (hxw p hp) (hyw q hq) hm
      refine same_of_alike L (L.equalWithin_ok n) (L.entered gu hx hxw) (L.entered gv hy hyw) ?_
        (halike.mono hpart)
      rintro rfl
      cases halike
      exact huv (hone u v (L.shows u _ hx) (L.shows v _ hy))

/-! ## In runs -/

/-- Data have text forms, and their text forms tell them apart. -/
structure Unambiguous (heap : Heap) (see : Handle → Option Object) : Prop where
  answers : ∀ v, Data see v → ∃ t, Heap.repr v heap = .ok t
  unique : ∀ u v t, Data see u → Data see v → Heap.repr u heap = .ok t →
    Heap.repr v heap = .ok t →
    (∃ x y k, see u = some x ∧ see v = some y ∧ x.kind? = some k ∧ y.kind? = some k) ∧
      Heap.equal u v heap = .ok true

theorem Object.Alike.kind {R : Handle → Handle → Prop} {x y : Object} (h : Alike R x y) :
    ∃ k, x.kind? = some k ∧ y.kind? = some k := by
  cases h <;> exact ⟨_, rfl, rfl⟩

theorem Legible.unambiguous (L : Legible heap see) (hone : heap.OneNothing) :
    Unambiguous heap see := by
  refine ⟨fun v d => ⟨_, Heap.repr_data L.shows d⟩, ?_⟩
  intro u v t du dv hu hv
  have hw : ∀ w, Data see w → Within see (heap.capacity + 1) w := fun w d =>
    (d.grounded.within L.shows).mono (Nat.le_succ _)
  rw [Heap.repr_data L.shows du, Except.ok.injEq] at hu
  rw [Heap.repr_data L.shows dv, Except.ok.injEq, ← hu, String.ofList_inj] at hv
  have htrim : ∀ w o, see w = some o → o.Trim := fun w o ho => L.trim w o (L.shows w o ho)
  have hread := (reads_spelling htrim (heap.capacity + 1)).unique u v [] [] ⟨du, hw u du⟩
    ⟨dv, hw v dv⟩ nofun nofun (by rw [hv])
  obtain ⟨x, y, hx, hy, halike⟩ := hread.1
  obtain ⟨k, hxk, hyk⟩ := halike.kind
  refine ⟨⟨x, y, k, hx, hy, hxk, hyk⟩, Heap.bind_eq_ok.2 ⟨_, Heap.depth_eq_ok.2 rfl, ?_⟩⟩
  exact equalWithin_of_match L hone du.grounded dv.grounded (hw u du) (hw v dv) hread.1

/-- **Text forms of data.** In every state that a run reaches, data have text forms, and data with
the same text form are of one type and equal. The literals of texts and bytes determine their
content and their end. -/
theorem repr_unambiguous {settings : Settings} {disk : Disk} {s : Space} :
    (∀ lost, Ran settings disk s lost → Unambiguous s.heap (seeKept lost s.heap)) ∧
      (LiveRun settings disk s → Unambiguous s.heap (seeLive s.heap)) ∧
      (∀ (a b : String) (x y : List Char),
        (Literal.ofText a).toList ++ x = (Literal.ofText b).toList ++ y → a = b ∧ x = y) ∧
      ∀ (a b : Array UInt8) (x y : List Char),
        (Literal.ofBytes a).toList ++ x = (Literal.ofBytes b).toList ++ y → a = b ∧ x = y :=
  ⟨fun _ r => r.legible.unambiguous r.oneNothing, fun r => r.legible.unambiguous r.oneNothing,
    fun _ _ _ _ => Literal.ofText_unique, fun _ _ _ _ => Literal.ofBytes_unique⟩

/-! ## Two lists -/

/-- Two lists of None, made one after the other: they have the same text form, so they are equal. -/
theorem repr_unambiguous_lists :
    ∃ s lost a b items t, a ≠ b ∧ Ran {} {} s lost ∧ LiveRun {} {} s ∧
      s.heap.get? a = some (.list items) ∧ s.heap.get? b = some (.list items) ∧ items.size = 1 ∧
      (∀ v, v = a ∨ v = b → Data (seeKept lost s.heap) v ∧ Data (seeLive s.heap) v) ∧
      Heap.repr a s.heap = .ok t ∧ Heap.repr b s.heap = .ok t ∧
      Heap.equal a b s.heap = .ok true ∧ Heap.equal b a s.heap = .ok true := by
  obtain ⟨s₀, h₀⟩ := Space.create_ok {} rfl {}
  have hn := (Space.create_new h₀).1.nothing
  let n := s₀.noneValue
  let t : Turn := .operation (.newList #[n])
  have hr := (Space.create_sound h₀).roomy
  obtain ⟨a, x, pa⟩ := leave_alloc hr (.newList #[n]) rfl
  obtain ⟨b, y, pb⟩ := leave_alloc (pa.roomy hr) (.newList #[n]) rfl
  have hlive : ∀ s : Space, s.heap.isLive n = true → ∀ v ∈ t.handles, s.heap.isLive v = true :=
    fun s hs => by simpa [t, Turn.handles, Operation.handles] using hs
  have l₁ := LiveRun.turn t (.start h₀) (hlive _ hn.1)
  have l₂ := LiveRun.turn t l₁ (hlive _ (pa.has hn).1)
  have r₁ := Ran.turn t (.start h₀) fun v hv =>
    .inl ((Space.create_sound h₀).current (hlive _ hn.1 v hv))
  have r₂ := Ran.turn t r₁ fun v hv =>
    .inl ((Space.sound_of_liveRun l₁).current (hlive _ (pa.has hn).1 v hv))
  -- what the three handles name at the end
  have hn₂ := pb.has (pa.has hn)
  have ha₂ := pb.has pa.has_self
  have hb₂ := pb.has_self
  have hab : a ≠ b := by
    rintro rfl
    have hnew := pb.get?_new
    rw [pa.get?_self] at hnew
    cases hnew
  have hdata : ∀ see : Handle → Option Object, see n = some .nothing →
      see a = some (.list #[n]) → see b = some (.list #[n]) → ∀ v, v = a ∨ v = b → Data see v := by
    intro see hsn hsa hsb v hv
    have hpart : ∀ w ∈ (Object.list #[n]).parts, Data see w := by
      intro w hw
      obtain rfl := List.mem_singleton.1 hw
      exact .intro hsn trivial (List.forall_mem_nil _)
    rcases hv with rfl | rfl
    · exact .intro hsa trivial hpart
    · exact .intro hsb trivial hpart
  have hlost : ∀ v o, Arena.Has (t.leave (t.leave s₀)).heap v o →
      v ∉ (∅ : Set Handle) ∪
        {v | s₀.heap.isCurrent v = true ∧ ¬ (t.leave s₀).heap.isCurrent v = true} →
      seeKept _ (t.leave (t.leave s₀)).heap v = some o := fun v o hv hl =>
    seeKept_eq_some.2 ⟨not_lost t hl (.inr hv.current), hv.2⟩
  have hkept := hdata _
    (hlost n _ hn₂ (not_lost t (Set.notMem_empty n) (.inr (pa.has hn).current)))
    (hlost a _ ha₂ (not_lost t (Set.notMem_empty a) (.inl pa.get?_new)))
    (hlost b _ hb₂ (not_lost t (Set.notMem_empty b) (.inl (pa.get?_new_before pb))))
  have hseen := hdata _ (seeLive_eq_some.2 hn₂) (seeLive_eq_some.2 ha₂) (seeLive_eq_some.2 hb₂)
  obtain ⟨text, htext⟩ := (repr_unambiguous.2.1 l₂).answers a (hseen a (.inl rfl))
  have hsame : Heap.repr b (t.leave (t.leave s₀)).heap = .ok text := by
    rw [← htext, Heap.repr_data l₂.legible.shows (hseen a (.inl rfl)),
      Heap.repr_data l₂.legible.shows (hseen b (.inr rfl)), spelling, spelling,
      seeLive_eq_some.2 ha₂, seeLive_eq_some.2 hb₂]
  have heq := ((repr_unambiguous.1 _ r₂).unique a b text (hkept a (.inl rfl)) (hkept b (.inr rfl))
    htext hsame).2
  have hback := ((repr_unambiguous.2.1 l₂).unique b a text (hseen b (.inr rfl))
    (hseen a (.inl rfl)) hsame htext).2
  exact ⟨_, _, a, b, #[n], text, hab, r₂, l₂, ha₂.2, hb₂.2, rfl,
    fun v hv => ⟨hkept v hv, hseen v hv⟩, htext, hsame, heq, hback⟩

end ObjectSpace
