import ObjectSpace.Proofs.Effects.Operations
import ObjectSpace.Proofs.Execution.Iterating

/-!
# What stays as it is

`Shelters P s₀ s`: the live objects of `s₀` with the property `P` are in `s` what they were. This is
a stable invariant, so placing objects and changing new ones keeps it, and it bears all effects on
objects without the property.

**Theorem (`keeps_collect`).** Listing what a sheltered value gives that is no iterator keeps the
invariant, whatever it shelters: the iterator that is made for it is new and draws on no other.
-/

namespace ObjectSpace

namespace Space

/-- Live objects with a property are what they were. -/
structure Shelters (P : Handle → Object → Prop) (s₀ s : Space) : Prop where
  roomy : s.heap.Roomy
  has : ∀ v o, P v o → s₀.heap.Has v o → s.heap.Has v o

variable {P : Handle → Object → Prop} {R : Object → Object → Prop} {s₀ s : Space}
  {v w it : Handle} {o : Object} {c : Cursor}

theorem Shelters.refl (hr : s.heap.Roomy) : Shelters P s s := ⟨hr, fun _ _ _ h => h⟩

/-- Changes that leave sheltered objects as they are. -/
theorem alters_shelters (h : ∀ o o', P w o → s₀.heap.Has w o → R o o' → o' = o) :
    Alters (Shelters P s₀) w R := by
  intro s p f hs hget hR
  refine ⟨hs.roomy.modify w f, ?_⟩
  intro v o hP ho
  have hv := hs.has v o hP ho
  refine ⟨(Arena.isLive_modify hget f v).trans hv.1, (Arena.get?_modify hget f v).trans ?_⟩
  by_cases hvw : v = w
  · subst hvw
    obtain rfl : o = p := Option.some.inj (hv.2.symm.trans hget)
    rw [if_pos rfl, h o (f o) hP ho hR]
  · rw [if_neg hvw]
    exact hv.2

/-- What is sheltered is not new. -/
theorem not_has_of_fresh (h : Fresh (Shelters P s₀) w) (hP : P w o) : ¬ s₀.heap.Has w o := by
  intro hw
  obtain ⟨s, hs, hnone⟩ := h
  have hget := (hs.has w o hP hw).2
  rw [hnone] at hget
  cases hget

theorem stable_shelters (P : Handle → Object → Prop) (s₀ : Space) : Stable (Shelters P s₀) where
  roomy h := h.roomy
  other h hheap _ _ _ := ⟨hheap ▸ h.roomy, hheap ▸ h.has⟩
  place s o h old heap hs _ p :=
    ⟨p.roomy hs.roomy, fun v w hP hw => p.has (hs.has v w hP hw)⟩
  fill h := alters_shelters fun _ _ hP hw _ => absurd hw (not_has_of_fresh h hP)
  assign h name x := by
    show Alters (Shelters P s₀) _ fun o o' => o' = o.withAttribute name x ∨ o' = o
    exact alters_shelters fun _ _ hP hw _ => absurd hw (not_has_of_fresh h hP)

/-! ## Effects -/

theorem shelters_advance (h : ∀ v c, ¬ P v (.iter c)) : Bears (Shelters P s₀) .advance := by
  intro it
  refine alters_shelters fun o o' hP _ hc => ?_
  obtain ⟨c, rfl⟩ := hc
  cases o with
  | iter d => exact absurd hP (h it d)
  | _ => rfl

theorem shelters_fill (h : ∀ o, ¬ P w o) : Bears (Shelters P s₀) (.fill w) :=
  alters_shelters fun o _ hP _ _ => absurd hP (h o)

theorem shelters_assign (h : ∀ o, ¬ P w o) (name : String) (x : Handle) :
    Bears (Shelters P s₀) (.assign w name x) := by
  show Alters (Shelters P s₀) w fun o o' => o' = o.withAttribute name x ∨ o' = o
  exact alters_shelters fun o _ hP _ _ => absurd hP (h o)

/-! ## Listing what a value gives -/

/-- The invariant together with an iterator that draws on no other. -/
def Beside (P : Handle → Object → Prop) (s₀ : Space) (it : Handle) (s : Space) : Prop :=
  Shelters P s₀ s ∧ ∃ c, c.Plain ∧ s.heap.Has it (.iter c)

theorem places_beside (P : Handle → Object → Prop) (s₀ : Space) (it : Handle) :
    Places (Beside P s₀ it) Object.Yielded where
  roomy h := h.1.roomy
  other h hheap hdisk hglobals hinterns := by
    obtain ⟨hs, c, hc, hit⟩ := h
    exact ⟨(stable_shelters P s₀).other hs hheap hdisk hglobals hinterns, c, hc, hheap ▸ hit⟩
  place s o h old heap hs ho p := by
    obtain ⟨hs, c, hc, hit⟩ := hs
    exact ⟨(stable_shelters P s₀).place s o h old heap hs ho.made p, c, hc, p.has hit⟩

section Own

variable (hnew : ∀ o, P it o → ¬ s₀.heap.Has it o)

include hnew

theorem alters_beside (hc : c.Plain) :
    Alters (Beside P s₀ it) it fun o o' => o' = o.moveTo c := by
  intro s o f hs hget hf
  obtain ⟨hs, d, -, hit⟩ := hs
  have ha : Alters (Shelters P s₀) it fun o o' => o' = o.moveTo c :=
    alters_shelters fun o _ hP ho _ => absurd ho (hnew o hP)
  refine ⟨ha s o f hs hget hf, c, hc, (Arena.isLive_modify hget f it).trans hit.1, ?_⟩
  obtain rfl : o = .iter d := Option.some.inj (hget.symm.trans hit.2)
  rw [Arena.get?_modify hget, if_pos rfl, hf]
  rfl

/-- Advancing a new iterator that draws on no other. -/
theorem keeps_next_beside : Keeps (Beside P s₀ it) (next it) := by
  intro s hs
  obtain ⟨-, c, hc, hit⟩ := id hs
  rcases hstep : c.step s.heap with e | ⟨y, c'⟩
  · have herror : next it s = .error e s := by
      rw [next, ask_bind_of_ok (Heap.depth_eq_ok.2 rfl), nextWithin,
        ask_bind_of_ok (cursor_eq hit)]
      dsimp only
      split
      · exact hc.elim
      · exact hc.elim
      · exact bind_of_error (ask_of_error hstep)
    rw [herror]
    exact hs
  · rw [next_eq hit hc hstep]
    have hc' := (Cursor.onward_step hstep).plain hc
    have hmove : Keeps (Beside P s₀ it) (update it (Object.moveTo c')) :=
      keeps_update (alters_beside hnew hc') fun _ => rfl
    exact keeps_bind hmove (fun _ => keeps_optionMapM (places_beside P s₀ it).emit y) s hs

theorem keeps_drain_beside (done : Array Handle) (n : Nat) :
    Keeps (Beside P s₀ it) (drain it done n) := by
  induction n generalizing done with
  | zero => exact keeps_violate _
  | succ n ih =>
    refine keeps_bind (keeps_next_beside hnew) fun r => ?_
    cases r with
    | some v => exact ih _
    | none => exact keeps_pure done

end Own

/-- The iterator that is made for a sheltered value is new, or there is none. -/
theorem iter_beside (hs : Shelters P s₀ s) (hP : P v o) (hv : s₀.heap.Has v o)
    (ho : ∀ c, o ≠ .iter c) :
    (∃ it s₁, iter v s = .ok it s₁ ∧ (∀ p, P it p → ¬ s₀.heap.Has it p) ∧ Beside P s₀ it s₁) ∨
      ∃ e, iter v s = .error e s := by
  rw [iter, get_bind_of_has (hs.has v o hP hv)]
  split
  · exact absurd rfl (ho _)
  cases hof : Cursor.ofObject? v o with
  | some c =>
    obtain ⟨it, old, heap, p, heq⟩ := Trust.alloc_placed hs.roomy (.iter c)
    have k := stable_shelters P s₀
    refine .inl ⟨it, _, heq, ?_, ?_, c, (Cursor.starts_of_ofObject? hof).plain, p.has_self⟩
    · intro q hq hold
      have hget := (hs.has it q hq hold).2
      rw [p.get?_new] at hget
      cases hget
    · exact k.other (k.place s (.iter c) it old heap hs trivial p) rfl rfl rfl (.of_eq rfl rfl)
  | none =>
    refine .inr ?_
    rcases hname : Heap.typeName v s.heap with e | name
    · exact ⟨e, bind_of_error (ask_of_error hname)⟩
    · exact ⟨_, ask_bind_of_ok hname⟩

/-- **Listing.** A sheltered value that is no iterator is listed without changing what is
sheltered. -/
theorem keeps_collect (hP : P v o) (hv : s₀.heap.Has v o) (ho : ∀ c, o ≠ .iter c) :
    Keeps (Shelters P s₀) (collect v) := by
  intro s hs
  have hdrain : Shelters P s₀ (leftBy ((do
      let it ← iter v
      let steps ← Heap.stepsWithin (← Heap.depth) it
      drain it #[] (steps + 1) : Action (Array Handle)) s)) := by
    rcases iter_beside hs hP hv ho with ⟨it, s₁, hit, hnew, hb⟩ | ⟨e, hit⟩
    · rw [bind_of_ok hit]
      have hkeeps : Keeps (Beside P s₀ it) (do
          let steps ← Heap.stepsWithin (← Heap.depth) it
          drain it #[] (steps + 1) : Action (Array Handle)) :=
        keeps_ask_bind fun _ => keeps_ask_bind fun _ => keeps_drain_beside hnew _ _
      exact (hkeeps s₁ hb).1
    · rw [bind_of_error hit]
      exact hs
  rw [collect, get_bind_of_has (hs.has v o hP hv)]
  cases o with
  | list items | tuple items | set items => exact hs
  | _ => exact hdrain

end Space

end ObjectSpace
