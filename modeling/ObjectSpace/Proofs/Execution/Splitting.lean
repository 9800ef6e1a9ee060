import ObjectSpace.Proofs.Execution.Enumerating
import ObjectSpace.Proofs.Execution.Printing
import ObjectSpace.Proofs.Execution.Reading
import ObjectSpace.Proofs.Text.Splitting

/-!
# Splitting and joining texts

**Theorem (`split_join_inverse`).** In every space of a run on live handles, splitting a text at a
separator that is not empty gives a list of the pieces between the occurrences that are found from
left to right without overlap: no piece contains the separator, there is one more of them than there
are occurrences, and joining them by the separator gives an equal text. Conversely, a list of texts
without the characters of the separator is joined to a text that is split into an equal list.
-/

namespace ObjectSpace

namespace Space

variable {s s' : Space} {v w l ctx : Handle} {text sep : String} {items : Array Handle}
  {parts : List String} {o : Object} {code : Code}

/-! ## The two methods -/

theorem runMethod_split (i : s.Steady) (hv : IsText s.heap v text) (hw : IsText s.heap w sep)
    (hsep : sep ≠ "") : runMethod (.str .split) v [w] s =
      ((Text.split text sep).mapM newStr >>= fun l => newList l.toArray) s := by
  obtain ⟨hash?, hv⟩ := hv
  have hnone : w ≠ s.noneValue := by
    obtain ⟨hash?, hw⟩ := hw
    exact hw.ne i.nothing nofun
  rw [runMethod, get_bind_of_has hv]
  show ((Method.str .split).presentArgument [w] >>= _) s = _
  rw [bind_of_ok (presentArgument_one _ w s), if_neg hnone]
  show ((liftM (Heap.expectStr w (Method.str .split).qualifiedName) : Action String) >>= _) s = _
  rw [ask_bind_of_ok (Heap.expectStr_text hw _), if_neg hsep]
  rfl

theorem expectStrs_eq {l : List Handle} (h : AreTexts s.heap l parts) (m : Method) :
    (l.mapM fun v => (liftM (m.expectStr v) : Action String)) s = .ok parts s := by
  induction h with
  | nil => rfl
  | cons hv _ ih =>
    rw [List.mapM_cons]
    show ((liftM (Heap.expectStr _ m.qualifiedName) : Action String) >>= _) s = _
    rw [ask_bind_of_ok (Heap.expectStr_text hv _), bind_of_ok ih]
    rfl

theorem runMethod_join (hw : IsText s.heap w sep) (hl : s.heap.Has l (.list items))
    (h : AreTexts s.heap items.toList parts) :
    runMethod (.str .join) w [l] s = newStr (Text.join sep parts) s := by
  obtain ⟨hash?, hw⟩ := hw
  rw [runMethod, get_bind_of_has hw]
  show (collect l >>= _) s = _
  rw [bind_of_ok (collect_sequence hl rfl), bind_of_ok (expectStrs_eq h _)]

theorem callMethod_split (code : Code) (ctx : Handle) (i : s.Steady) (hv : IsText s.heap v text)
    (hw : IsText s.heap w sep) (hsep : sep ≠ "") :
    ∃ l items s', Program.callMethod code ctx v "split" [w] s = .ok l s' ∧ Frame [] s s' ∧
      s'.heap.Has l (.list items) ∧ AreTexts s'.heap items.toList (Text.split text sep) := by
  obtain ⟨hash?, ho⟩ := hv
  obtain ⟨s₁, f₁, h₁⟩ := callMethod_frame code ctx i ho (.str .split) rfl
    (List.forall_mem_singleton.2 hw.live)
  rw [runMethod_split f₁.steady (f₁.isText ⟨hash?, ho⟩) (f₁.isText hw) hsep] at h₁
  obtain ⟨l, s₂, h₂, f₂, hl⟩ := newTexts_frame f₁.steady (Text.split text sep)
  have hlive : ∀ v ∈ l.toArray.toList, s₂.heap.isLive v = true := hl.live
  obtain ⟨r, s₃, h₃, f₃, hr⟩ := newList_frame f₂.steady hlive
  exact ⟨r, l.toArray, s₃, h₁.trans ((bind_of_ok h₂).trans h₃), (f₁.again f₂).again f₃, hr,
    f₃.areTexts hl⟩

theorem callMethod_join (code : Code) (ctx : Handle) (i : s.Steady) (hw : IsText s.heap w sep)
    (hl : s.heap.Has l (.list items)) (h : AreTexts s.heap items.toList parts) :
    ∃ j s', Program.callMethod code ctx w "join" [l] s = .ok j s' ∧ Frame [] s s' ∧
      IsText s'.heap j (Text.join sep parts) := by
  obtain ⟨hash?, ho⟩ := hw
  obtain ⟨s₁, f₁, h₁⟩ := callMethod_frame code ctx i ho (.str .join) rfl
    (List.forall_mem_singleton.2 hl.1)
  rw [runMethod_join (f₁.isText ⟨hash?, ho⟩) (f₁.keep hl) (f₁.areTexts h)] at h₁
  obtain ⟨j, s₂, h₂, f₂, hj⟩ := newStr_frame f₁.steady (Text.join sep parts)
  exact ⟨j, s₂, h₁.trans h₂, f₁.again f₂, none, hj⟩

/-! ## Equal texts -/

/-- Texts with the same characters are equal, at any depth. -/
theorem equalWithin_texts {heap : Heap} (hv : IsText heap v text) (hw : IsText heap w text)
    (n : ℕ) : Heap.equalWithin (n + 1) v w heap = .ok true := by
  obtain ⟨hash?, hv⟩ := hv
  obtain ⟨hash?', hw⟩ := hw
  rw [Heap.equalWithin_succ hv.2 hw.2]
  split
  · rfl
  · exact Heap.sameContent_eq_true.2 (.str text _ _)

theorem equal_texts {heap : Heap} (hv : IsText heap v text) (hw : IsText heap w text) :
    Heap.equal v w heap = .ok true := by
  rw [Heap.equal, Heap.bind_of_ok (Heap.depth_eq_ok.2 rfl)]
  exact equalWithin_texts hv hw _

theorem yes_texts {heap : Heap} {xs ys : List Handle} (h : AreTexts heap xs parts)
    (h' : AreTexts heap ys parts) (n : ℕ) :
    List.Forall₂ (Heap.Yes heap (Heap.equalWithin (n + 1))) xs ys := by
  induction h generalizing ys with
  | nil =>
    cases h'
    exact .nil
  | cons hv _ ih =>
    cases h' with
    | cons hw h' => exact .cons (equalWithin_texts hv hw n) (ih h')

theorem equal_lists {heap : Heap} {items' : Array Handle} (hv : heap.Has v (.list items))
    (hw : heap.Has w (.list items')) (h : AreTexts heap items.toList parts)
    (h' : AreTexts heap items'.toList parts) : Heap.equal v w heap = .ok true := by
  obtain ⟨n, hn⟩ := Heap.capacity_pos hv
  rw [Heap.equal, Heap.bind_of_ok (Heap.depth_eq_ok.2 rfl), Heap.equalWithin_succ hv.2 hw.2, hn]
  split
  · rfl
  · exact Heap.sameContent_eq_true.2 (.list (yes_texts h h' n))

end Space

open Space

variable {settings : Settings} {disk : Disk} {s : Space} {w : Handle} {sep : String}

/-- **Splitting and joining.** A text that is split at a separator is the pieces between the
occurrences that are found from left to right without overlap, of which no one contains the
separator, and joining the pieces gives an equal text. A list of texts without the characters of the
separator is joined to a text that is split into an equal list. -/
theorem split_join_inverse (r : LiveRun settings disk s) (code : Code) (ctx : Handle)
    (hw : IsText s.heap w sep) (hsep : sep ≠ "") :
    (∀ v text, IsText s.heap v text → ∃ l items parts s',
      Program.callMethod code ctx v "split" [w] s = .ok l s' ∧ s'.heap.Has l (.list items) ∧
      AreTexts s'.heap items.toList parts ∧ (∀ p ∈ parts, ¬ sep.toList <:+: p.toList) ∧
      (∃! places, Text.Occurrences sep.toList text.toList 0 places) ∧
      (∀ places, Text.Occurrences sep.toList text.toList 0 places →
        parts.length = places.length + 1) ∧
      ∃ j s'', Program.callMethod code ctx w "join" [l] s' = .ok j s'' ∧ IsText s''.heap j text ∧
        Heap.equal j v s''.heap = .ok true) ∧
    ∀ l items parts, s.heap.Has l (.list items) → AreTexts s.heap items.toList parts →
      parts ≠ [] → (∀ p ∈ parts, ∀ c ∈ sep.toList, c ∉ p.toList) →
      ∃ j s' l' items' s'', Program.callMethod code ctx w "join" [l] s = .ok j s' ∧
        Program.callMethod code ctx j "split" [w] s' = .ok l' s'' ∧
        s''.heap.Has l' (.list items') ∧ AreTexts s''.heap items'.toList parts ∧
        Heap.equal l' l s''.heap = .ok true := by
  have i := steady_of_liveRun r
  refine ⟨fun v text hv => ?_, fun l items parts hl hparts hne hapart => ?_⟩
  · obtain ⟨l, items, s₁, h₁, f₁, hl, hitems⟩ := callMethod_split code ctx i hv hw hsep
    obtain ⟨j, s₂, h₂, f₂, hj⟩ := callMethod_join code ctx f₁.steady (f₁.isText hw) hl hitems
    rw [Text.join_split hsep] at hj
    have hpieces := Text.pieces_split (s := text) hsep
    have hne : sep.toList ≠ [] := fun h => hsep (String.toList_eq_nil_iff.1 h)
    have hstart : Text.Pieces sep.toList (text.toList.drop 0) _ := hpieces
    obtain ⟨places, hplaces, hlength⟩ := hstart.occurrences
    rw [List.length_map] at hlength
    refine ⟨l, items, _, s₁, h₁, hl, hitems, fun p hp => ?_, ⟨places, hplaces, fun _ h =>
      h.unique hplaces⟩, fun places' h => ?_, j, s₂, h₂, hj, equal_texts hj (f₂.isText
      (f₁.isText hv))⟩
    · exact hpieces.not_infix hne _ (List.mem_map_of_mem hp)
    · rw [hlength, h.unique hplaces]
  · obtain ⟨j, s₁, h₁, f₁, hj⟩ := callMethod_join code ctx i hw hl hparts
    obtain ⟨l', items', s₂, h₂, f₂, hl', hitems'⟩ :=
      callMethod_split code ctx f₁.steady hj (f₁.isText hw) hsep
    rw [Text.split_join hsep hne hapart] at hitems'
    exact ⟨j, s₁, l', items', s₂, h₁, h₂, hl', hitems',
      equal_lists hl' (f₂.keep (f₁.keep hl)) hitems' (f₂.areTexts (f₁.areTexts hparts))⟩

/-- A separator that overlaps itself is found once in a text with three of its characters. -/
theorem split_join_inverse_overlap :
    ∃ s v w l items, LiveRun {} {} s ∧ IsText s.heap v "aaab" ∧ IsText s.heap w "aa" ∧
      s.heap.Has l (.list items) ∧ AreTexts s.heap items.toList ["b", ""] ∧
      (∃ l' items' parts s', Program.callMethod noCode s.noneValue v "split" [w] s = .ok l' s' ∧
        s'.heap.Has l' (.list items') ∧ AreTexts s'.heap items'.toList parts ∧
        parts.length = 2) ∧
      ∃ j s' l' items' s'', Program.callMethod noCode s.noneValue w "join" [l] s = .ok j s' ∧
        Program.callMethod noCode s.noneValue j "split" [w] s' = .ok l' s'' ∧
        s''.heap.Has l' (.list items') ∧ AreTexts s''.heap items'.toList ["b", ""] := by
  obtain ⟨s₀, h₀⟩ := create_ok {} rfl {}
  obtain ⟨v, s₁, r₁, f₁, hv⟩ := (LiveRun.start h₀).newStr "aaab"
  obtain ⟨w, s₂, r₂, f₂, hw⟩ := r₁.newStr "aa"
  obtain ⟨p, s₃, r₃, f₃, hp⟩ := r₂.newStr "b"
  obtain ⟨q, s₄, r₄, f₄, hq⟩ := r₃.newStr ""
  have hitems : AreTexts s₄.heap [p, q] ["b", ""] := .cons (f₄.isText hp) (.cons hq .nil)
  have hlive : ∀ v ∈ #[p, q].toList, s₄.heap.isLive v = true := hitems.live
  obtain ⟨l, s, r, f, hl⟩ := r₄.newList hlive
  have hv := f.isText (f₄.isText (f₃.isText (f₂.isText hv)))
  have hw := f.isText (f₄.isText (f₃.isText hw))
  have hitems := f.areTexts hitems
  obtain ⟨hsplit, hjoin⟩ := split_join_inverse r noCode s.noneValue hw (by decide)
  obtain ⟨l', items', parts, s', hrun, hl', hitems', -, -, hcount, -⟩ := hsplit v _ hv
  have hplaces : Text.Occurrences "aa".toList "aaab".toList 0 [0] := by
    rw [show "aa".toList = ['a', 'a'] by decide,
      show "aaab".toList = ['a', 'a', 'a', 'b'] by decide]
    refine .next (Nat.le_refl _) (by decide) (fun _ _ h => absurd h (Nat.not_lt_zero _))
      (.none fun p hp hstands => ?_)
    -- only at the last two characters could it stand once more
    have hlength : 2 ≤ 4 - p := by simpa using hstands.length_le
    obtain rfl : p = 2 := Nat.le_antisymm (by omega) hp
    exact absurd hstands (by decide)
  obtain ⟨j, s₅, l'', items'', s₆, h₅, h₆, hl'', hitems'', -⟩ :=
    hjoin l _ _ hl hitems (List.cons_ne_nil _ _) (by simp)
  exact ⟨s, v, w, l, _, r, hv, hw, hl, hitems,
    ⟨l', items', parts, s', hrun, hl', hitems', hcount _ hplaces⟩,
    j, s₅, l'', items'', s₆, h₅, h₆, hl'', hitems''⟩

end ObjectSpace
