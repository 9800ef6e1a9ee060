import ObjectSpace.Arena.Basic

/-!
# Unmarked cells

How many cells of an arena are dead. Marking a dead cell makes it one less
(`unmarked_setMark_lt`), which is why a collection ends.
-/

namespace ObjectSpace

variable {α : Type}

/-- Changing one element so that it no longer satisfies `p` lowers the count by one. -/
theorem countP_modify_lt {β : Type} (p : β → Bool) (f : β → β) (hf : ∀ b, p (f b) = false)
    {l : List β} {i : Nat} {x : β} (hx : l[i]? = some x) (hp : p x = true) :
    (l.modify i f).countP p < l.countP p := by
  induction l generalizing i with
  | nil => simp at hx
  | cons y ys ih =>
    cases i with
    | zero =>
      simp only [List.getElem?_cons_zero, Option.some.injEq] at hx
      subst hx
      simp [hf, hp]
    | succ i =>
      simp only [List.getElem?_cons_succ] at hx
      have := ih hx
      simp only [List.modify_succ_cons, List.countP_cons]
      omega

namespace SizeClass

variable {f g : SizeClass → Nat}

theorem foldr_add_le {l : List SizeClass} (hle : ∀ c, f c ≤ g c) :
    l.foldr (fun c n => f c + n) 0 ≤ l.foldr (fun c n => g c + n) 0 := by
  induction l with
  | nil => exact Nat.le_refl 0
  | cons c l ih => exact Nat.add_le_add (hle c) ih

theorem foldr_add_lt {l : List SizeClass} {c : SizeClass} (hc : c ∈ l)
    (hle : ∀ c, f c ≤ g c) (hlt : f c < g c) :
    l.foldr (fun c n => f c + n) 0 < l.foldr (fun c n => g c + n) 0 := by
  induction l with
  | nil => cases hc
  | cons d l ih =>
    rcases List.mem_cons.1 hc with rfl | hc
    · exact Nat.add_lt_add_of_lt_of_le hlt (foldr_add_le hle)
    · exact Nat.add_lt_add_of_le_of_lt (hle d) (ih hc)

/-- A total falls when one term falls and no term rises. -/
theorem total_lt {c : SizeClass} (hle : ∀ c, f c ≤ g c) (hlt : f c < g c) :
    total f < total g :=
  foldr_add_lt (List.mem_finRange c) hle hlt

end SizeClass

namespace Pool

theorem deadCount_mark_lt {p : Pool α} {i : Nat} {c : Cell α} (hc : p.cells[i]? = some c)
    (hl : c.live = false) : (p.mark i).deadCount < p.deadCount := by
  rcases p with ⟨slots, ⟨cells⟩, cursor⟩
  simp only [deadCount, mark, List.modify_toArray, List.countP_toArray]
  exact countP_modify_lt _ _ (by simp) (by simpa using hc) (by simp [hl])

end Pool

namespace Arena

@[simp] theorem pool_modifyPool (a : Arena α) (c d : SizeClass) (f : Pool α → Pool α) :
    (a.modifyPool c f).pool d = if c = d then f (a.pool d) else a.pool d := by
  refine (Array.getElem_modify _).trans ?_
  change (if c.val = d.val then f (a.pool d) else a.pool d) = _
  simp only [Fin.val_inj]

/-- How many cells of all pools are dead. -/
def unmarked (a : Arena α) : Nat := SizeClass.total fun c => (a.pool c).deadCount

/-- Marking a dead cell leaves one dead cell less. -/
theorem unmarked_setMark_lt {a : Arena α} {h : Handle} {c : Cell α} (hc : a.cell? h = some c)
    (hl : c.live = false) : (a.setMark h).unmarked < a.unmarked := by
  have hcell : (a.pool h.sizeClass).cells[a.position h]? = some c := by
    rw [cell?, Option.ite_none_right_eq_some] at hc
    exact (Option.filter_eq_some_iff.1 hc.2).1
  have hlt := Pool.deadCount_mark_lt hcell hl
  refine SizeClass.total_lt (fun d => ?_) (?_ : _ < (a.pool h.sizeClass).deadCount)
  · by_cases hd : h.sizeClass = d
    · subst hd
      simpa [setMark] using Nat.le_of_lt hlt
    · simp [setMark, hd]
  · simpa [setMark] using hlt

end Arena

end ObjectSpace
