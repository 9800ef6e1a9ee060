import ObjectSpace.Text.Search
import Mathlib.Data.List.Basic

/-!
# Splitting and joining

A text is cut at the occurrences of a separator that are found from left to right without overlap.
The relation `Pieces` says so: the first part ends where the separator stands for the first time,
and the others are the pieces of what comes behind it. It determines the parts (`Pieces.unique`),
and the parts that `splitFrom` collects satisfy it (`pieces_splitFrom`), since no occurrence begins
in what was already read of the current part.

What is known of splitting follows from the relation alone: joining the pieces gives the text back
(`Pieces.join`), no piece contains the separator (`Pieces.not_infix`), there is one piece more than
there are occurrences (`Pieces.occurrences`), and texts without the characters of the separator are
the pieces of what they are joined to (`pieces_intercalate`).
-/

namespace ObjectSpace.Text

variable {sep cs : List Char} {ps qs : List (List Char)}

/-! ## Pieces -/

/-- A text and its parts between the occurrences of a separator. -/
inductive Pieces (sep : List Char) : List Char → List (List Char) → Prop
  | last {cs : List Char} : ¬ sep <:+: cs → Pieces sep cs [cs]
  | cut {before after : List Char} {ps : List (List Char)} :
      (∀ k < before.length, ¬ sep <+: (before ++ (sep ++ after)).drop k) → Pieces sep after ps →
      Pieces sep (before ++ (sep ++ after)) (before :: ps)

/-- An occurrence within the first part of a text begins before the end of that part. -/
theorem exists_prefix_of_infix {part : List Char} (rest : List Char) (hsep : sep ≠ [])
    (h : sep <:+: part) :
    ∃ k < part.length, sep <+: (part ++ rest).drop k := by
  obtain ⟨a, b, rfl⟩ := h
  refine ⟨a.length, ?_, ?_⟩
  · have := List.length_pos_iff.2 hsep
    simp only [List.length_append]
    omega
  · simp only [List.append_assoc, List.drop_left]
    exact List.prefix_append _ _

theorem pieces_splitFrom {part : List Char} (hsep : sep ≠ [])
    (h : ∀ k < part.length, ¬ sep <+: (part.reverse ++ cs).drop k) :
    Pieces sep (part.reverse ++ cs) (splitFrom sep part cs) := by
  fun_induction splitFrom sep part cs with
  | case1 part =>
    rw [List.append_nil]
    refine .last fun hin => ?_
    obtain ⟨k, hk, hp⟩ := exists_prefix_of_infix [] hsep hin
    exact h k (List.length_reverse ▸ hk) hp
  | case2 part c rest hstands ih =>
    -- the separator stands here: the part ends
    obtain ⟨after, hafter⟩ := List.isPrefixOf_iff_prefix.1 hstands.1
    have hrest : rest.drop (sep.length - 1) = after := by
      have hdrop := congrArg (List.drop sep.length) hafter
      obtain ⟨d, sep, rfl⟩ := List.exists_cons_of_ne_nil hsep
      simpa using hdrop.symm
    rw [hrest] at ih ⊢
    rw [← hafter] at h ⊢
    exact .cut (fun k hk => h k (List.length_reverse ▸ hk))
      (ih fun k hk => absurd hk (Nat.not_lt_zero k))
  | case3 part c rest hstands ih =>
    have hnot : ¬ sep <+: c :: rest := fun hp =>
      hstands ⟨List.isPrefixOf_iff_prefix.2 hp, hsep⟩
    have hcons : (c :: part).reverse ++ rest = part.reverse ++ c :: rest := by simp
    rw [hcons] at ih
    refine ih fun k hk => ?_
    rcases Nat.lt_succ_iff_lt_or_eq.1 hk with hk | rfl
    · exact h k hk
    · rwa [← List.length_reverse, List.drop_left]

/-! ## What the pieces are -/

theorem Pieces.ne_nil (h : Pieces sep cs ps) : ps ≠ [] := by
  cases h <;> exact List.cons_ne_nil _ _

theorem intercalate_cons {p : List Char} (h : ps ≠ []) :
    sep.intercalate (p :: ps) = p ++ (sep ++ sep.intercalate ps) := by
  obtain ⟨q, ps, rfl⟩ := List.exists_cons_of_ne_nil h
  simp [List.intercalate]

theorem Pieces.join (h : Pieces sep cs ps) : sep.intercalate ps = cs := by
  induction h with
  | last => simp [List.intercalate]
  | cut _ hps ih => rw [intercalate_cons hps.ne_nil, ih]

theorem Pieces.not_infix (hsep : sep ≠ []) (h : Pieces sep cs ps) : ∀ p ∈ ps, ¬ sep <:+: p := by
  induction h with
  | last h => exact List.forall_mem_singleton.2 h
  | cut hfirst _ ih =>
    refine List.forall_mem_cons.2 ⟨fun hin => ?_, ih⟩
    obtain ⟨k, hk, hp⟩ := exists_prefix_of_infix _ hsep hin
    exact hfirst k hk hp

theorem Pieces.unique (h : Pieces sep cs ps) (h' : Pieces sep cs qs) : ps = qs := by
  induction h generalizing qs with
  | last hnot =>
    cases h' with
    | last => rfl
    | cut => exact absurd ⟨_, _, List.append_assoc ..⟩ hnot
  | @cut before after ps hfirst _ ih =>
    generalize hcs : before ++ (sep ++ after) = cs at h' hfirst
    cases h' with
    | last hnot => exact absurd ⟨_, _, (List.append_assoc ..).trans hcs⟩ hnot
    | @cut before' after' qs hfirst' hqs =>
      -- the first occurrence is at one place
      have hstands : ∀ a b : List Char, sep <+: (a ++ (sep ++ b)).drop a.length := fun a b => by
        rw [List.drop_left]
        exact List.prefix_append _ _
      have hlength : before.length = before'.length := by
        refine Nat.le_antisymm (Nat.not_lt.1 fun hlt => ?_) (Nat.not_lt.1 fun hlt => ?_)
        · exact hfirst _ hlt (hstands _ _)
        · exact hfirst' _ hlt (hcs ▸ hstands _ _)
      obtain ⟨rfl, hrest⟩ := List.append_inj hcs hlength
      obtain rfl := List.append_cancel_left hrest
      rw [ih hqs]

/-! ## Occurrences -/

/-- The separator stands at a position of a text. -/
def StandsAt (sep cs : List Char) (p : ℕ) : Prop := sep <+: cs.drop p

instance (sep cs : List Char) (p : ℕ) : Decidable (StandsAt sep cs p) :=
  inferInstanceAs (Decidable (sep <+: cs.drop p))

/-- The positions, from `start` on, where the separator is found from left to right without
overlap. -/
inductive Occurrences (sep cs : List Char) : ℕ → List ℕ → Prop
  | none {start : ℕ} : (∀ p, start ≤ p → ¬ StandsAt sep cs p) → Occurrences sep cs start []
  | next {start p : ℕ} {l : List ℕ} : start ≤ p → StandsAt sep cs p →
      (∀ q, start ≤ q → q < p → ¬ StandsAt sep cs q) → Occurrences sep cs (p + sep.length) l →
      Occurrences sep cs start (p :: l)

/-- Going from left to right finds the same occurrences every time. -/
theorem Occurrences.unique {start : ℕ} {l l' : List ℕ} (h : Occurrences sep cs start l)
    (h' : Occurrences sep cs start l') : l = l' := by
  induction h generalizing l' with
  | none hnone =>
    cases h' with
    | none => rfl
    | next hle hp => exact absurd hp (hnone _ hle)
  | next hle hp hfirst _ ih =>
    cases h' with
    | none hnone => exact absurd hp (hnone _ hle)
    | next hle' hp' hfirst' h' =>
      have heq := Nat.le_antisymm (Nat.not_lt.1 fun hlt => hfirst _ hle' hlt hp')
        (Nat.not_lt.1 fun hlt => hfirst' _ hle hlt hp)
      subst heq
      rw [ih h']

/-- There is one piece more than there are occurrences. -/
theorem Pieces.occurrences {start : ℕ} (h : Pieces sep (cs.drop start) ps) :
    ∃ l, Occurrences sep cs start l ∧ ps.length = l.length + 1 := by
  have hstands : ∀ p, start ≤ p → (StandsAt sep cs p ↔ sep <+: (cs.drop start).drop (p - start)) :=
    fun p hp => by rw [StandsAt, List.drop_drop, Nat.add_sub_of_le hp]
  generalize hds : cs.drop start = ds at h hstands
  induction h generalizing start with
  | last hnot =>
    refine ⟨[], .none fun p hp hin => hnot ?_, rfl⟩
    exact ((hstands p hp).1 hin).isInfix.trans (List.drop_suffix _ _).isInfix
  | @cut before after ps hfirst _ ih =>
    have hafter : cs.drop (start + before.length + sep.length) = after := by
      rw [← List.drop_drop, ← List.drop_drop, hds, List.drop_left, List.drop_left]
    obtain ⟨l, hl, hlength⟩ := ih hafter fun p hp => by
      rw [← hafter, StandsAt, List.drop_drop, Nat.add_sub_of_le hp]
    refine ⟨(start + before.length) :: l, .next (Nat.le_add_right _ _) ?_ ?_ hl, by simp [hlength]⟩
    · rw [hstands _ (Nat.le_add_right _ _), Nat.add_sub_cancel_left, List.drop_left]
      exact List.prefix_append _ _
    · intro q hq hlt
      rw [hstands q hq]
      exact hfirst _ (by omega)

/-! ## Joining what has no character of the separator -/

theorem not_infix_of_apart {p : List Char} (hsep : sep ≠ []) (h : ∀ c ∈ sep, c ∉ p) :
    ¬ sep <:+: p := by
  obtain ⟨c, rest, rfl⟩ := List.exists_cons_of_ne_nil hsep
  exact fun hin => h c List.mem_cons_self (hin.subset List.mem_cons_self)

/-- Texts without the characters of the separator are the pieces of what they are joined to. -/
theorem pieces_intercalate (hsep : sep ≠ []) (hps : ps ≠ []) (h : ∀ p ∈ ps, ∀ c ∈ sep, c ∉ p) :
    Pieces sep (sep.intercalate ps) ps := by
  induction ps with
  | nil => exact absurd rfl hps
  | cons p ps ih =>
    rw [List.forall_mem_cons] at h
    rcases eq_or_ne ps [] with rfl | hne
    · have hone : sep.intercalate [p] = p := by simp [List.intercalate]
      rw [hone]
      exact .last (not_infix_of_apart hsep h.1)
    · rw [intercalate_cons hne]
      refine .cut (fun k hk hp => ?_) (ih hne h.2)
      -- the first character of the separator would be one of the part
      obtain ⟨c, rest, rfl⟩ := List.exists_cons_of_ne_nil hsep
      rw [List.drop_append_of_le_length (Nat.le_of_lt hk), List.drop_eq_getElem_cons hk,
        List.cons_append, List.cons_prefix_cons] at hp
      exact h.1 c List.mem_cons_self (hp.1 ▸ List.getElem_mem hk)

/-! ## Texts -/

theorem pieces_split {s sep : String} (hsep : sep ≠ "") :
    Pieces sep.toList s.toList ((split s sep).map String.toList) := by
  have hne : sep.toList ≠ [] := fun h => hsep (String.toList_eq_nil_iff.1 h)
  have hparts : (split s sep).map String.toList = splitFrom sep.toList [] s.toList := by
    simp [split, Function.comp_def]
  have hstart : ∀ k < ([] : List Char).length,
      ¬ sep.toList <+: (([] : List Char).reverse ++ s.toList).drop k :=
    fun k hk => absurd hk (Nat.not_lt_zero k)
  rw [hparts]
  exact pieces_splitFrom hne hstart

theorem join_split {s sep : String} (hsep : sep ≠ "") : join sep (split s sep) = s := by
  rw [join, ← String.toList_inj, String.toList_intercalate]
  exact (pieces_split hsep).join

theorem split_join {sep : String} {parts : List String} (hsep : sep ≠ "") (hparts : parts ≠ [])
    (h : ∀ p ∈ parts, ∀ c ∈ sep.toList, c ∉ p.toList) : split (join sep parts) sep = parts := by
  have hne : sep.toList ≠ [] := fun h => hsep (String.toList_eq_nil_iff.1 h)
  have hpieces : Pieces sep.toList (join sep parts).toList (parts.map String.toList) := by
    rw [join, String.toList_intercalate]
    exact pieces_intercalate hne (by simpa using hparts) (by simpa using h)
  have hinj : Function.Injective String.toList := fun _ _ => String.toList_inj.1
  exact hinj.list_map ((pieces_split hsep).unique hpieces)

end ObjectSpace.Text
