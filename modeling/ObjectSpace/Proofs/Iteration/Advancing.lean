import ObjectSpace.Proofs.Effects.Values
import ObjectSpace.Proofs.Iteration.Standing

/-!
# Advancing an iterator

`NextCases` takes a completed advance apart (`Firm.nextWithin_cases`): an iterator with a cursor of
its own made a step of it, and one that numbers or pairs advanced what it draws on first. Either way
it is then moved on and what it gives is made (`Space.advance`), and nothing else changes but the
iterators drawn on (`Heap.Moved`).

**Theorem (`Space.Firm.next_total`).** Where all stand, `next` on a live iterator completes.
-/

namespace ObjectSpace

/-! ## Cursors -/

namespace Cursor

variable {heap : Heap} {c : Cursor}

/-- A cursor that stands on what can be read makes a step. -/
theorem Stands.step_total (h : c.Stands heap)
    (hc : ∀ g ∈ c.children, heap.isCurrent g = true) : ∃ y c', c.step heap = .ok (y, c') := by
  cases c with
  | forward u k position =>
    obtain ⟨o, ho⟩ := Arena.isCurrent_iff.1 (hc u (List.mem_singleton_self u))
    have ha : admits position o = true := h u (List.mem_singleton_self u) o ho
    rw [Cursor.step, Heap.bind_of_ok (Heap.get_eq_ok.2 ho), if_pos ha]
    split <;> exact ⟨_, _, rfl⟩
  | backward u position =>
    obtain ⟨o, ho⟩ := Arena.isCurrent_iff.1 (hc u (List.mem_singleton_self u))
    have ha : admits position o = true := h u (List.mem_singleton_self u) o ho
    rw [Cursor.step, Heap.bind_of_ok (Heap.get_eq_ok.2 ho), if_pos ha]
    split <;> exact ⟨_, _, rfl⟩
  | range n d remaining =>
    rw [Cursor.step]
    split <;> exact ⟨_, _, rfl⟩
  | entries d part hash place done =>
    cases done with
    | true => exact ⟨_, _, rfl⟩
    | false =>
      obtain ⟨o, ho⟩ := Arena.isCurrent_iff.1 (hc d (List.mem_singleton_self d))
      obtain ⟨t, rfl⟩ : ∃ t, o = .dict t := h d (List.mem_singleton_self d) o ho
      rw [Cursor.step, if_neg Bool.false_ne_true, Heap.bind_of_ok (Heap.dict_eq_ok.2 ho)]
      cases t.nextFrom? hash place <;> exact ⟨_, _, rfl⟩
  | members u hash place done =>
    cases done with
    | true => exact ⟨_, _, rfl⟩
    | false =>
      obtain ⟨o, ho⟩ := Arena.isCurrent_iff.1 (hc u (List.mem_singleton_self u))
      obtain ⟨t, rfl⟩ : ∃ t, o = .set t := h u (List.mem_singleton_self u) o ho
      rw [Cursor.step, if_neg Bool.false_ne_true, Heap.bind_of_ok (Heap.set_eq_ok.2 ho)]
      cases t.nextFrom? hash place <;> exact ⟨_, _, rfl⟩
  | enumerate | zip => exact ⟨_, _, rfl⟩

end Cursor

/-! ## What iteration leaves -/

namespace Heap

/-- Live iterators may have moved on; everything else that was live is as it was. -/
def Moved (a b : Heap) : Prop :=
  ∀ v o, a.Has v o → ∃ o', b.Has v o' ∧ o.Evolves o' ∧ ((∀ c, o ≠ .iter c) → o' = o)

variable {a b d : Heap} {v : Handle} {c : Cursor}

theorem Moved.trans (h₁ : Moved a b) (h₂ : Moved b d) : Moved a d := by
  intro v o h
  obtain ⟨p, hp, hop, hsame⟩ := h₁ v o h
  obtain ⟨q, hq, hpq, hsame'⟩ := h₂ v p hp
  refine ⟨q, hq, hop.trans hpq, fun ho => ?_⟩
  obtain rfl := hsame ho
  exact hsame' ho

theorem Kept.iter (k : Kept a b) (hv : a.Has v (.iter c)) :
    ∃ c', b.Has v (.iter c') ∧ c.Onward c' := by
  obtain ⟨o', ho', he⟩ := k.has hv
  obtain ⟨c', rfl, hc⟩ := he.of_iter
  exact ⟨c', ho', hc⟩

theorem Moved.iter (h : Moved a b) (hv : a.Has v (.iter c)) :
    ∃ c', b.Has v (.iter c') ∧ c.Onward c' := by
  obtain ⟨o', ho', he, -⟩ := h v _ hv
  obtain ⟨c', rfl, hc⟩ := he.of_iter
  exact ⟨c', ho', hc⟩

theorem Moved.has (h : Moved a b) {o : Object} (hv : a.Has v o) (ho : ∀ c, o ≠ .iter c) :
    b.Has v o := by
  obtain ⟨o', ho', -, hsame⟩ := h v o hv
  exact hsame ho ▸ ho'

end Heap

namespace Space

variable {s s' s₁ s₂ : Space} {it : Handle} {c c' : Cursor} {y : Option Yield} {n : Nat}
  {r : Option Handle}

/-- A later state where only iterators were changed. -/
theorem moved_of_spares (l : firmTrust.Later s s') (sp : Spares s s') : s.heap.Moved s'.heap := by
  intro v o ho
  obtain ⟨o', ho', he⟩ := l.kept.has ho
  refine ⟨o', ho', he, fun hne => ?_⟩
  exact Option.some.inj (ho'.2.symm.trans (sp.has v o hne ho).2)

/-- The end of a step: the iterator is moved, and what it gives is made. -/
def advance (it : Handle) (c : Cursor) (y : Option Yield) : Action (Option Handle) := do
  update it (Object.moveTo c)
  y.mapM emit

theorem emit_total (hr : s.heap.Roomy) (z : Yield) : ∃ h s', emit z s = .ok h s' := by
  cases z with
  | numbered n v =>
    obtain ⟨h, old, heap, p, heq⟩ := Trust.alloc_placed hr (.int n)
    exact ⟨_, _, bind_of_ok heq⟩
  | _ => exact ⟨_, _, rfl⟩

theorem emit_has (hr : s.heap.Roomy) {z : Yield} {h : Handle} (he : emit z s = .ok h s')
    {v : Handle} {o : Object} (hv : s.heap.Has v o) : s'.heap.Has v o := by
  have halloc : ∀ {o' : Object} {s s' : Space} {h : Handle}, s.heap.Roomy →
      alloc o' s = .ok h s' → s.heap.Has v o → s'.heap.Has v o := by
    intro o' s s' h hr he hv
    obtain ⟨g, old, heap, p, heq⟩ := Trust.alloc_placed hr o'
    obtain ⟨-, rfl⟩ := EStateM.Result.ok.inj (heq.symm.trans he)
    exact p.has hv
  cases z with
  | handle =>
    obtain ⟨-, rfl⟩ := EStateM.Result.ok.inj he
    exact hv
  | int | str | pair => exact halloc hr he hv
  | numbered n w =>
    obtain ⟨i, s₁, hi, he⟩ := bind_eq_ok.1 he
    obtain ⟨g, old, heap, p, heq⟩ := Trust.alloc_placed hr (.int n)
    obtain ⟨-, rfl⟩ := EStateM.Result.ok.inj (heq.symm.trans hi)
    exact halloc (p.roomy hr) he (p.has hv)

theorem advance_total (hr : s.heap.Roomy) (hit : s.heap.get? it = some (.iter c)) (c' : Cursor)
    (y : Option Yield) : ∃ r s', advance it c' y s = .ok r s' := by
  rw [advance, bind_of_ok (Trust.update_eq hit _)]
  cases y with
  | none => exact ⟨_, _, rfl⟩
  | some z =>
    obtain ⟨h, s', he⟩ := emit_total (s := { s with heap := s.heap.modify it (Object.moveTo c') })
      (hr.modify _ _) z
    exact ⟨_, _, bind_of_ok he⟩

theorem advance_isSome (h : advance it c y s = .ok r s') : r.isSome = y.isSome := by
  obtain ⟨_, s₁, -, h⟩ := bind_eq_ok.1 h
  cases y with
  | none =>
    obtain ⟨rfl, -⟩ := EStateM.Result.ok.inj h
    rfl
  | some z =>
    obtain ⟨v, s₂, -, h⟩ := bind_eq_ok.1 h
    obtain ⟨rfl, -⟩ := EStateM.Result.ok.inj h
    rfl

/-- Moving an iterator on changes nothing else that is live. -/
theorem advance_has (hr : s.heap.Roomy) (hit : s.heap.Has it (.iter c))
    (h : advance it c' y s = .ok r s') :
    s'.heap.Has it (.iter c') ∧ ∀ v o, v ≠ it → s.heap.Has v o → s'.heap.Has v o := by
  obtain ⟨_, s₁, hu, h⟩ := bind_eq_ok.1 h
  obtain ⟨-, rfl⟩ := EStateM.Result.ok.inj ((Trust.update_eq hit.2 _).symm.trans hu)
  have hread := Arena.get?_modify hit.2 (Object.moveTo c')
  have hlive := Arena.isLive_modify hit.2 (Object.moveTo c')
  have hself : (s.heap.modify it (Object.moveTo c')).Has it (.iter c') :=
    ⟨(hlive it).trans hit.1, (hread it).trans (if_pos rfl)⟩
  have hother : ∀ v o, v ≠ it → s.heap.Has v o →
      (s.heap.modify it (Object.moveTo c')).Has v o := fun v o hv ho =>
    ⟨(hlive v).trans ho.1, (hread v).trans ((if_neg hv).trans ho.2)⟩
  cases y with
  | none =>
    obtain ⟨-, rfl⟩ := EStateM.Result.ok.inj h
    exact ⟨hself, hother⟩
  | some z =>
    obtain ⟨v, s₂, he, h⟩ := bind_eq_ok.1 h
    obtain ⟨-, rfl⟩ := EStateM.Result.ok.inj h
    have hr' : (s.heap.modify it (Object.moveTo c')).Roomy := hr.modify _ _
    exact ⟨emit_has hr' he hself, fun v o hv ho => emit_has hr' he (hother v o hv ho)⟩

theorem advance_moved (hr : s.heap.Roomy) (hit : s.heap.Has it (.iter c)) (hc : c.Onward c')
    (h : advance it c' y s = .ok r s') : s.heap.Moved s'.heap := by
  obtain ⟨hself, hother⟩ := advance_has hr hit h
  intro v o ho
  by_cases hv : v = it
  · subst hv
    obtain rfl := Option.some.inj (hit.2.symm.trans ho.2)
    exact ⟨_, hself, hc, fun hne => absurd rfl (hne c)⟩
  · exact ⟨o, hother v o hv ho, .refl o, fun _ => rfl⟩

/-! ## Cases -/

/-- A step has ended: the iterator has moved, other objects are as they were, and something was
given if there was something to make. -/
structure Finishes (it : Handle) (c' : Cursor) (y : Option Yield) (s : Space) (r : Option Handle)
    (s' : Space) : Prop where
  run : advance it c' y s = .ok r s'
  self : s'.heap.Has it (.iter c')
  moved : s.heap.Moved s'.heap
  isSome : r.isSome = y.isSome

theorem finishes (hr : s.heap.Roomy) (hit : s.heap.Has it (.iter c)) (hc : c.Onward c')
    (h : advance it c' y s = .ok r s') : Finishes it c' y s r s' :=
  ⟨h, (advance_has hr hit h).1, advance_moved hr hit hc h, advance_isSome h⟩

/-- How a live iterator that draws on others to a depth of at most `n` was advanced. -/
inductive NextCases (n : Nat) (it : Handle) (s : Space) (r : Option Handle) (s' : Space) : Prop
  | own {c c' : Cursor} {y : Option Yield} : s.heap.get? it = some (.iter c) → c.Plain →
      c.step s.heap = .ok (y, c') → Finishes it c' y s r s' → NextCases n it s r s'
  | counted {inner : Handle} {k k' : Int64} {q : Option Handle} {s₁ : Space} :
      s.heap.get? it = some (.iter (.enumerate inner k)) → s.heap.isLive inner = true →
      nextWithin n inner s = .ok q s₁ → firmTrust.Later s s₁ →
      Finishes it (.enumerate inner k') (q.map (.numbered k)) s₁ r s' → NextCases n it s r s'
  | ended {left right : Handle} {s₁ : Space} :
      s.heap.get? it = some (.iter (.zip left right)) → s.heap.isLive left = true →
      nextWithin n left s = .ok none s₁ → firmTrust.Later s s₁ →
      Finishes it (.zip left right) none s₁ r s' → NextCases n it s r s'
  | paired {left right a : Handle} {q : Option Handle} {s₁ s₂ : Space} :
      s.heap.get? it = some (.iter (.zip left right)) → s.heap.isLive left = true →
      s.heap.isLive right = true → nextWithin n left s = .ok (some a) s₁ →
      firmTrust.Later s s₁ → nextWithin n right s₁ = .ok q s₂ → firmTrust.Later s₁ s₂ →
      Finishes it (.zip left right) (q.map (.pair a)) s₂ r s' → NextCases n it s r s'

/-- An iterator that is advanced within a depth is advanced in the same way within the next one. -/
theorem nextWithin_succ (h : nextWithin n it s = .ok r s') :
    nextWithin (n + 1) it s = .ok r s' := by
  induction n generalizing s it r s' with
  | zero => cases h
  | succ n ih =>
    rw [nextWithin] at h ⊢
    obtain ⟨c, s₀, hc, h⟩ := bind_eq_ok.1 h
    rw [bind_of_ok hc]
    cases c with
    | enumerate inner count =>
      obtain ⟨q, s₁, hq, h⟩ := bind_eq_ok.1 h
      show (nextWithin (n + 1) inner >>= _) s₀ = _
      rw [bind_of_ok (ih hq)]
      exact h
    | zip left right =>
      obtain ⟨q, s₁, hq, h⟩ := bind_eq_ok.1 h
      show (nextWithin (n + 1) left >>= _) s₀ = _
      rw [bind_of_ok (ih hq)]
      cases q with
      | none => exact h
      | some a =>
        obtain ⟨q, s₂, hq, h⟩ := bind_eq_ok.1 h
        show (nextWithin (n + 1) right >>= _) s₁ = _
        rw [bind_of_ok (ih hq)]
        exact h
    | _ => exact h

theorem nextWithin_mono {m : Nat} (h : nextWithin n it s = .ok r s') (hnm : n ≤ m) :
    nextWithin m it s = .ok r s' := by
  induction hnm with
  | refl => exact h
  | step _ ih => exact nextWithin_succ ih

namespace Firm

/-- A completed advance leads to a later state, where iterators moved on. -/
theorem nextWithin_later (i : s.Firm) (hit : s.heap.isLive it = true)
    (h : nextWithin n it s = .ok r s') :
    firmTrust.Later s s' ∧ firmTrust.Ok s' r ∧ s.heap.Moved s'.heap := by
  have hr := (Trust.runs_nextWithin (T := firmTrust) n hit).result i
  have hsp := sparing_nextWithin n it s i.sound.roomy
  rw [h] at hr hsp
  exact ⟨hr.1, hr.2, moved_of_spares hr.1 hsp⟩

theorem drawn (i : s.Firm) (hit : s.heap.isLive it = true)
    (hget : s.heap.get? it = some (.iter c)) {p : Handle} (hp : p ∈ c.children) :
    s.heap.isLive p = true :=
  i.sound.live_child hit hget hp

theorem nextWithin_cases (i : s.Firm) (hit : s.heap.isLive it = true)
    (h : nextWithin (n + 1) it s = .ok r s') : NextCases n it s r s' := by
  unfold nextWithin at h
  obtain ⟨c, s₀, hask, h⟩ := bind_eq_ok.1 h
  obtain ⟨hc, rfl⟩ := ask_eq_ok.1 hask
  have hget := Trust.get?_of_cursor hc
  -- what was drawn on may have moved this iterator too
  have hend : ∀ {s₁ c' y}, firmTrust.Later s s₁ → (∀ d, c.Onward d → d.Onward c') →
      advance it c' y s₁ = .ok r s' → Finishes it c' y s₁ r s' := by
    intro s₁ c' y l hc h
    obtain ⟨d, hd, hon⟩ := l.kept.iter ⟨hit, hget⟩
    exact finishes (firmTrust.roomy l.holds) hd (hc d hon) h
  cases c with
  | enumerate inner k =>
    obtain ⟨q, s₁, hq, h⟩ := bind_eq_ok.1 h
    have hinner := i.drawn hit hget (List.mem_singleton_self inner)
    have l := (i.nextWithin_later hinner hq).1
    have hc : ∀ k' d, (Cursor.enumerate inner k).Onward d → d.Onward (.enumerate inner k') := by
      intro k' d hd
      cases hd.alike
      exact Eq.symm hd
    cases q with
    | some v => exact .counted hget hinner hq l (hend l (hc _) h)
    | none => exact .counted hget hinner hq l (hend l (hc _) h)
  | zip left right =>
    obtain ⟨q, s₁, hq, h⟩ := bind_eq_ok.1 h
    have hleft := i.drawn hit hget List.mem_cons_self
    have hright := i.drawn hit hget (List.mem_cons_of_mem _ List.mem_cons_self)
    have l₁ := (i.nextWithin_later hleft hq).1
    have hc : ∀ d, (Cursor.zip left right).Onward d → d.Onward (.zip left right) := by
      intro d hd
      cases hd.alike
      exact ⟨hd.1.symm, hd.2.symm⟩
    cases q with
    | none => exact .ended hget hleft hq l₁ (hend l₁ hc h)
    | some a =>
      obtain ⟨q, s₂, hq', h⟩ := bind_eq_ok.1 h
      have l₂ := (l₁.holds.nextWithin_later (l₁.ok_mono _ hright) hq').1
      have l := l₁.trans l₂
      cases q with
      | some b => exact .paired hget hleft hright hq l₁ hq' l₂ (hend l hc h)
      | none => exact .paired hget hleft hright hq l₁ hq' l₂ (hend l hc h)
  | _ =>
    obtain ⟨⟨y, c'⟩, s₁, hask, h⟩ := bind_eq_ok.1 h
    obtain ⟨hstep, rfl⟩ := ask_eq_ok.1 hask
    exact .own hget trivial hstep
      (finishes i.sound.roomy ⟨hit, hget⟩ (Cursor.onward_step hstep) h)

theorem nested_later (i : s.Firm) (l : firmTrust.Later s s') {v : Handle}
    (hv : s.heap.isLive v = true) (h : Nested s.heap.RestsOn n v) : Nested s'.heap.RestsOn n v := by
  have hback : ∀ w, Relation.ReflTransGen s'.heap.RestsOn v w → s.heap.isLive w = true := by
    intro w hw
    induction hw with
    | refl => exact hv
    | tail _ hp ih => exact i.sound.live_restsOn ih (l.kept.restsOn_back (i.sound.current ih) hp)
  exact h.mono (Nat.le_refl n) fun w p hw hp =>
    l.kept.restsOn_back (i.sound.current (hback w hw)) hp

theorem iter_of_drawn (i : s.Firm) (hit : s.heap.isLive it = true)
    (hget : s.heap.get? it = some (.iter c)) (hc : ¬ c.Plain) {p : Handle} (hp : p ∈ c.children) :
    ∃ d, s.heap.get? p = some (.iter d) := by
  obtain ⟨o, ho, -⟩ := i.sound.get? (i.drawn hit hget hp)
  have hs := i.standing.cursors it c ⟨hit, hget⟩ p hp o ho
  cases c with
  | enumerate | zip =>
    obtain ⟨d, rfl⟩ := hs
    exact ⟨d, ho⟩
  | _ => exact absurd trivial hc

/-- Advancing a live iterator completes within the depth to which it draws on others. -/
theorem nextWithin_total (i : s.Firm) (hit : s.heap.isLive it = true)
    (hget : s.heap.get? it = some (.iter c)) (hn : Nested s.heap.RestsOn n it) :
    ∃ r s', nextWithin n it s = .ok r s' := by
  induction n generalizing s it c with
  | zero => exact hn.elim
  | succ n ih =>
    have hc : Heap.cursor it s.heap = .ok c :=
      Heap.bind_eq_ok.2 ⟨_, Heap.get_eq_ok.2 hget, rfl⟩
    -- what is drawn on is advanced first, and then the iterator is one still
    have hinner : ∀ p ∈ c.children, ¬ c.Plain → ∀ s₁, firmTrust.Later s s₁ →
        ∃ r s₂, nextWithin n p s₁ = .ok r s₂ ∧ firmTrust.Later s₁ s₂ := by
      intro p hp hown s₁ l
      have hlive := i.drawn hit hget hp
      have hnest : Nested s.heap.RestsOn n p := hn p ⟨_, hget, hp⟩
      obtain ⟨d, hd⟩ := i.iter_of_drawn hit hget hown hp
      obtain ⟨d', hd', -⟩ := l.kept.iter ⟨hlive, hd⟩
      have i₁ : s₁.Firm := l.holds
      obtain ⟨r, s₂, h⟩ := ih i₁ hd'.1 hd'.2 (i.nested_later l hlive hnest)
      exact ⟨r, s₂, h, (i₁.nextWithin_later hd'.1 h).1⟩
    have hend : ∀ s₁, firmTrust.Later s s₁ → ∀ c' y, ∃ r s', advance it c' y s₁ = .ok r s' := by
      intro s₁ l c' y
      obtain ⟨d, hd, -⟩ := l.kept.iter ⟨hit, hget⟩
      exact advance_total (firmTrust.roomy l.holds) hd.2 c' y
    unfold nextWithin
    rw [ask_bind_of_ok hc]
    cases c with
    | enumerate inner k =>
      obtain ⟨q, s₁, hq, l⟩ := hinner inner (List.mem_singleton_self inner) id s (.refl i)
      show ∃ r s', (nextWithin n inner >>= _) s = .ok r s'
      rw [bind_of_ok hq]
      cases q with
      | some v => exact hend s₁ l _ (some (.numbered k v))
      | none => exact hend s₁ l _ none
    | zip left right =>
      obtain ⟨q, s₁, hq, l₁⟩ := hinner left List.mem_cons_self id s (.refl i)
      show ∃ r s', (nextWithin n left >>= _) s = .ok r s'
      rw [bind_of_ok hq]
      cases q with
      | none => exact hend s₁ l₁ _ none
      | some a =>
        obtain ⟨q, s₂, hq, l₂⟩ := hinner right (List.mem_cons_of_mem _ List.mem_cons_self) id s₁ l₁
        show ∃ r s', (nextWithin n right >>= _) s₁ = .ok r s'
        rw [bind_of_ok hq]
        cases q with
        | some b => exact hend s₂ (l₁.trans l₂) _ (some (.pair a b))
        | none => exact hend s₂ (l₁.trans l₂) _ none
    | _ =>
      obtain ⟨y, c', hstep⟩ := (i.standing.cursors it _ ⟨hit, hget⟩).step_total fun g hg =>
        i.sound.current (i.drawn hit hget hg)
      show ∃ r s', ((liftM (Cursor.step _) : Action (Option Yield × Cursor)) >>= _) s = .ok r s'
      rw [ask_bind_of_ok hstep]
      exact hend s (.refl i) c' y

/-- **Advancing.** A live iterator can be advanced. -/
theorem next_total (i : s.Firm) (hit : s.heap.isLive it = true)
    (hget : s.heap.get? it = some (.iter c)) : ∃ r s', next it s = .ok r s' := by
  rw [next, ask_bind_of_ok (Heap.depth_eq_ok.2 rfl)]
  exact i.nextWithin_total hit hget ((i.nested hit).le (Nat.le_succ _))

theorem next_later (i : s.Firm) (hit : s.heap.isLive it = true) (h : next it s = .ok r s') :
    firmTrust.Later s s' ∧ firmTrust.Ok s' r ∧ s.heap.Moved s'.heap := by
  rw [next, ask_bind_of_ok (Heap.depth_eq_ok.2 rfl)] at h
  exact i.nextWithin_later hit h

end Firm

end Space

end ObjectSpace
