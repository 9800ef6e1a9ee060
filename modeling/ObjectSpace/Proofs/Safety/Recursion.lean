import ObjectSpace.Proofs.Effects.Functions
import ObjectSpace.Proofs.Execution.Lists
import ObjectSpace.Proofs.Execution.Values
import ObjectSpace.Proofs.Safety.Calls
import ObjectSpace.Proofs.Value.Hashing

/-!
# Recursion that no cycle can trap

A hash follows the items of tuples, `isinstance` goes through tuples of classes, and an iterator
that numbers or pairs advances the iterators that it draws on. None of the three remembers where it
has been, so each relies on the heap to have no cycle along its way.

**Theorem (`recursion_ends`).** In every state that turns on live handles lead to, no tuple comes
back to itself through items of tuples alone, and no iterator through the iterators it draws on,
whatever cycles go through lists, dicts, sets, instances, classes or contexts. So all three end on
every value, with a result or a diagnostic (`Space.Ends`).

The items of a tuple and what an iterator draws on are settled when they are made
(`LiveRun.wellFounded`). A chain of them is no longer than the heap has cells, and a recursion that
has room for that many steps does the same with any more of it (`Heap.hashWithin_of_nested`,
`Space.instanceOfWithin_of_nested`, `Space.nextWithin_mono`).
-/

namespace ObjectSpace

open Relation (TransGen)

/-! ## What recursion follows -/

namespace Object

/-- The items of a tuple. -/
def items : Object → List Handle
  | tuple items => items.toList
  | _ => []

/-- The iterators that an iterator draws on. -/
def inner : Object → List Handle
  | iter (.enumerate it _) => [it]
  | iter (.zip left right) => [left, right]
  | _ => []

theorem settles_items : Settles items where
  evolves h := by cases h.evolution <;> rfl
  children {o v} h := by
    cases o with
    | tuple => exact h
    | _ => cases h

theorem settles_inner : Settles inner where
  evolves {o o'} h := by
    cases h.evolution with
    | @iter c c' hc =>
      have hdraws := hc.children_eq
      cases hc.alike with
      | enumerate | zip => exact hdraws
      | _ => rfl
    | _ => rfl
  children {o v} h := by
    cases o with
    | iter c =>
      cases c with
      | enumerate | zip => exact h
      | _ => cases h
    | _ => cases h

end Object

/-! ## Depth makes no difference -/

namespace Heap

variable {heap : Heap} {v : Handle} {n m : Nat}

/-- To hash a value takes the depth to which its items are nested, and no more. -/
theorem hashWithin_of_nested (h : Nested (heap.Via Object.items) n v) (hnm : n ≤ m) :
    hashWithin m v heap = hashWithin n v heap := by
  induction n generalizing m v with
  | zero => exact h.elim
  | succ n ih =>
    obtain ⟨m, rfl⟩ : ∃ k, m = k + 1 := ⟨m - 1, by omega⟩
    unfold hashWithin
    refine bind_congr_of_ok fun o ho => ?_
    rw [get_eq_ok] at ho
    -- a tuple is all that is gone into
    split
    case h_7 items =>
      refine bind_congr (hashItems_congr (List.forall₂_same.2 fun _ _ => rfl) ?_ _) fun _ => rfl
      rintro p hp _ - rfl
      exact ih (h p ⟨_, ho, hp⟩) (Nat.le_of_succ_le_succ hnm)
    all_goals rfl

end Heap

namespace Space

variable {α : Type} {s s' : Space} {v cls it : Handle} {n m : Nat}

/-- Tests that change nothing and agree on all elements agree on whether one passes. -/
theorem anyM_congr {f g : Handle → Action Bool} {l : List Handle}
    (hf : ∀ x ∈ l, f x s = g x s) (hkeep : ∀ x, ∀ b s', g x s = .ok b s' → s' = s) :
    l.anyM f s = l.anyM g s := by
  induction l with
  | nil => rfl
  | cons x l ih =>
    have hx := hf x List.mem_cons_self
    have hrest := ih fun y hy => hf y (List.mem_cons_of_mem x hy)
    rw [List.anyM, List.anyM]
    cases hg : g x s with
    | ok b s' =>
      obtain rfl := hkeep x b s' hg
      rw [bind_of_ok (hx.trans hg), bind_of_ok hg]
      cases b with
      | true => rfl
      | false => exact hrest
    | error e s' => rw [bind_of_error (hx.trans hg), bind_of_error hg]

theorem eq_of_instanceOfWithin {b : Bool} (h : instanceOfWithin n v cls s = .ok b s') : s' = s := by
  have hkeep := keeps_instanceOfWithin (I := (· = s)) n v cls s rfl
  rw [h] at hkeep
  exact hkeep

/-- To go through classes takes the depth to which tuples of them are nested, and no more. -/
theorem instanceOfWithin_of_nested (h : Nested (s.heap.Via Object.items) n cls) (hnm : n ≤ m) :
    instanceOfWithin m v cls s = instanceOfWithin n v cls s := by
  induction n generalizing m cls with
  | zero => exact h.elim
  | succ n ih =>
    obtain ⟨m, rfl⟩ : ∃ k, m = k + 1 := ⟨m - 1, by omega⟩
    unfold instanceOfWithin
    refine bind_congr_of_ok fun o s₁ ho => ?_
    obtain ⟨hget, rfl⟩ := ask_eq_ok.1 ho
    rw [Heap.get_eq_ok] at hget
    split
    -- a test leaves the space as it is, so the next class is tested in the same one
    case h_4 classes =>
      exact anyM_congr (fun c hc => ih (h c ⟨_, hget, hc⟩) (Nat.le_of_succ_le_succ hnm))
        fun c b s' => eq_of_instanceOfWithin
    all_goals rfl

/-! ## The ends -/

/-- A recursion ends: it comes to a result or a diagnostic, and it does so in the same way when it
may go to any other depth that is not less than the number of cells. -/
structure Ends (s : Space) (within : Nat → Action α) (act : Action α) : Prop where
  settles : s.Settles act
  bound : ∀ n, s.heap.capacity ≤ n → within n s = act s

/-- What is calm and may follow nothing without end settles. -/
theorem settles_of_calm {act : Action α} (h : Calm False s act) : s.Settles act :=
  h.outcome.resolve_right fun ⟨h, _⟩ => h

namespace Firm

variable (i : s.Firm)

include i

theorem ends_hash (hv : s.heap.isLive v = true)
    (hn : Nested (s.heap.Via Object.items) s.heap.capacity v) :
    s.Ends (fun n => Heap.hashWithin n v) (Heap.hash v) where
  settles := settles_of_calm (.ask (i.calm_hash hv))
  bound n hcap := by
    refine ask_congr ?_
    rw [Heap.hash, Heap.bind_of_ok (Heap.depth_eq_ok.2 rfl), Heap.hashWithin_of_nested hn hcap,
      Heap.hashWithin_of_nested hn (Nat.le_succ _)]

theorem ends_instanceOf (hv : s.heap.IsValue v) (hcls : s.heap.isLive cls = true)
    (hn : Nested (s.heap.Via Object.items) s.heap.capacity cls) :
    s.Ends (fun n => instanceOfWithin n v cls)
      (do instanceOfWithin (← Heap.depth) v cls) where
  settles := settles_of_calm (.ask_bind_of_ok (Heap.depth_eq_ok.2 rfl)
    (i.calm_instanceOfWithin hv.live hv.noContext hcls ((i.nested hcls).le (Nat.le_succ _))))
  bound n hcap := by
    rw [ask_bind_of_ok (Heap.depth_eq_ok.2 rfl), instanceOfWithin_of_nested hn hcap,
      instanceOfWithin_of_nested hn (Nat.le_succ _)]

theorem ends_next (hit : s.heap.isLive it = true) :
    s.Ends (fun n => nextWithin n it) (next it) where
  settles := settles_of_calm (i.calm_next hit)
  bound n hcap := by
    rw [next, ask_bind_of_ok (Heap.depth_eq_ok.2 rfl)]
    have hn := i.nested hit
    -- advancing changes the space, so depths are not compared step by step: an iterator completes
    -- within the number of cells already, and what completes does the same to any greater depth
    cases hc : Heap.cursor it s.heap with
    | ok c =>
      obtain ⟨q, s', hq⟩ := i.nextWithin_total hit (Trust.get?_of_cursor hc) hn
      rw [nextWithin_mono hq hcap, nextWithin_mono hq (Nat.le_succ _)]
    | error e =>
      -- what is no iterator is refused at the first step, for which there is room
      have hstop : ∀ k, nextWithin (k + 1) it s = .error e s := fun k =>
        bind_of_error (ask_of_error hc)
      obtain ⟨k, rfl⟩ : ∃ k, n = k + 1 := by
        cases n with
        | zero =>
          rw [Nat.le_zero.1 hcap] at hn
          exact hn.elim
        | succ k => exact ⟨k, rfl⟩
      rw [hstop, hstop]

end Firm

end Space

open Space

variable {settings : Settings} {disk : Disk} {s : Space}

/-- **Recursion.** No tuple comes back to itself through items of tuples, and no iterator through
those it draws on. Hashing a value, testing whether it is an instance of classes in nested tuples,
and advancing iterators that draw on others come to an end. -/
theorem recursion_ends (r : LiveRun settings disk s) :
    (∀ v, ¬ TransGen (s.heap.Via Object.items) v v) ∧
    (∀ it, ¬ TransGen (s.heap.Via Object.inner) it it) ∧
    (∀ v, s.heap.isLive v = true → s.Ends (fun n => Heap.hashWithin n v) (Heap.hash v)) ∧
    (∀ v cls, s.heap.IsValue v → s.heap.isLive cls = true →
      s.Ends (fun n => instanceOfWithin n v cls) (do instanceOfWithin (← Heap.depth) v cls)) ∧
    ∀ it, s.heap.isLive it = true → s.Ends (fun n => nextWithin n it) (next it) := by
  have hitems := Object.settles_items
  refine ⟨fun v => not_transGen_self ((r.wellFounded hitems).apply v),
    fun it => not_transGen_self ((r.wellFounded Object.settles_inner).apply it),
    fun v hv => r.firm.ends_hash hv (r.nested_via hitems hv),
    fun v cls hv hcls => r.firm.ends_instanceOf hv hcls (r.nested_via hitems hcls),
    fun it hit => r.firm.ends_next hit⟩

/-- A list that holds a tuple that holds the list: they are in a cycle, the tuple is not in one of
tuples. -/
theorem recursion_ends_knot :
    ∃ s t l, LiveRun {} {} s ∧ s.heap.Has t (.tuple #[l]) ∧ s.heap.Has l (.list #[t]) ∧
      ¬ TransGen (s.heap.Via Object.items) t t ∧
      s.Ends (fun n => Heap.hashWithin n t) (Heap.hash t) := by
  obtain ⟨s₀, h₀⟩ := Space.create_ok {} rfl {}
  obtain ⟨zero, s₁, r₁, -, hzero⟩ := (LiveRun.start h₀).newInt 0
  have hlone : ∀ g ∈ (#[zero] : Array Handle).toList, s₁.heap.isLive g = true := by
    simpa using hzero.1
  obtain ⟨l, s₂, r₂, f₂, hl⟩ := r₁.newList hlone
  have hpart : ∀ g ∈ (#[l] : Array Handle).toList, s₂.heap.isLive g = true := by
    simpa using hl.1
  obtain ⟨t, s₃, r₃, f₃, ht⟩ := r₂.making (.newTuple #[l]) rfl hpart
    (makes_newTuple (steady_of_liveRun r₂) hpart)
  replace hzero := f₃.keep (f₂.keep hzero)
  -- the tuple is put into the list
  have hlist : s₃.heap.Has l (.list [zero].toArray) := f₃.keep hl
  have hplace : place? 0 1 = some 0 := by decide
  have hset : (ListOp.setItem zero t).Effect s₃ [zero] [] ([zero].set 0 t) :=
    .setItem (n := 0) ⟨_, 0, hzero, rfl, rfl⟩ hplace
  obtain ⟨s, hs, hleaves⟩ := (refines_setItem (steady_of_liveRun r₃) hlist hzero.1
    ht.1).complete hset
  obtain ⟨_, hs, -⟩ := exists_of_returned hs
  have hgiven : ∀ h ∈ (Operation.setItem l zero t).handles, s₃.heap.isLive h = true := by
    simp [Operation.handles, hlist.1, hzero.1, ht.1]
  have r := r₃.after (.setItem l zero t) rfl hgiven hs
  have htl : t ≠ l := by
    rintro rfl
    cases ht.2.symm.trans hlist.2
  have ht' : s.heap.Has t (.tuple #[l]) := hleaves.others t _ htl (by rintro ⟨_, ⟨⟩⟩) ht
  obtain ⟨hcycle, -, hhash, -⟩ := recursion_ends r
  exact ⟨s, t, l, r, ht', hleaves.list, hcycle t, hhash t ht'.1⟩

end ObjectSpace
