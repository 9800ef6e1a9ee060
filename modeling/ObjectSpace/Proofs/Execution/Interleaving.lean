import ObjectSpace.Proofs.Execution.Enumerating
import ObjectSpace.Proofs.Execution.Sets
import ObjectSpace.Proofs.Execution.Values
import ObjectSpace.Proofs.Iteration.Standing
import ObjectSpace.Proofs.Value.History
import ObjectSpace.Proofs.Value.Tables
import ObjectSpace.Proofs.Value.Traversal

/-!
# Iterating over a table that changes

An iterator over a dict or a set is advanced, and in between anything is done to the table. A log
records what was filed from one primitive step to the next, and which entry the iterator gave just
then (`Interleaving`).

**Theorem (`interleaved_iteration`).** Until the iterator first gives nothing, the hashes of the
entries that it gives never descend, and it gives no entry twice that is in the table in between. An
entry that is in the table all the time is given exactly once, if nothing of its hash is removed.
Advancing always succeeds.

A log is a traversal of what is filed (`Interleaving.traverses`), since a step of the cursor is to
the first entry at its position or behind (`Cursor.step_position`), and a step of anything else
leaves what stands under a hash in its order (`Step.follows`).
-/

namespace ObjectSpace

variable {settings : Settings} {disk : Disk} {s s' : Space} {v w it u : Handle} {o p : Object}
  {c c' : Cursor} {y : Option Yield} {hash hash' : UInt64} {place place' n : Nat} {k : Handle}
  {e : UInt64 × Handle} {log past : List Moment}

/-! ## Cursors over tables -/

namespace Cursor

/-- The table that a cursor goes over, and its position there if it is not at the end. -/
def position? : Cursor → Option (Handle × UInt64 × Nat)
  | entries d _ hash place false => some (d, hash, place)
  | members u hash place false => some (u, hash, place)
  | _ => none

/-- What a cursor over a table yields for an entry. -/
def Yields (p : Object) (y : Yield) (e : UInt64 × Handle) : Cursor → Prop
  | entries _ part .. => ∃ t v, p = .dict t ∧ (e.1, e.2, v) ∈ t.entries.toList ∧
      y = showEntry part e.2 v
  | members .. => y = .handle e.2
  | _ => False

/-- A value shows an entry in the way of a cursor over a table. -/
def Displays (heap : Heap) (y : Handle) (e : UInt64 × Handle) : Cursor → Prop
  | entries d part .. => ∃ t v, heap.Has d (.dict t) ∧ (e.1, e.2, v) ∈ t.entries.toList ∧
      part.Shows heap y (e.2, v)
  | members .. => y = e.2
  | _ => False

theorem position_cases (h : c.position? = some (v, hash, place)) :
    (∃ part, c = .entries v part hash place false) ∨ c = .members v hash place false := by
  cases c with
  | entries d part g i done =>
    cases done with
    | true => cases h
    | false =>
      cases h
      exact .inl ⟨part, rfl⟩
  | members d g i done =>
    cases done with
    | true => cases h
    | false =>
      cases h
      exact .inr rfl
  | _ => cases h

theorem plain_of_position (h : c.position? = some (v, hash, place)) : c.Plain := by
  obtain ⟨part, rfl⟩ | rfl := position_cases h <;> exact trivial

theorem mem_children_of_position (h : c.position? = some (v, hash, place)) : v ∈ c.children := by
  obtain ⟨part, rfl⟩ | rfl := position_cases h <;> exact List.mem_singleton_self v

theorem Onward.position_back (h : c.Onward c') (hc' : c'.position? = some (v, hash', place')) :
    ∃ hash place, c.position? = some (v, hash, place) := by
  obtain ⟨part, rfl⟩ | rfl := position_cases hc'
  · cases c with
    | entries d part' hash place done =>
      obtain ⟨rfl, -, hplace⟩ := h
      obtain ⟨rfl, -⟩ := hplace.resolve_left Bool.false_ne_true
      exact ⟨hash, place, rfl⟩
    | _ => exact h.elim
  · cases c with
    | members d hash place done =>
      obtain ⟨rfl, hplace⟩ := h
      obtain ⟨rfl, -⟩ := hplace.resolve_left Bool.false_ne_true
      exact ⟨hash, place, rfl⟩
    | _ => exact h.elim

theorem Onward.suits_table (h : c.Onward c') (hc : c.position? = some (v, hash, place))
    (hp : c.Suits p) : c'.Suits p := by
  obtain ⟨part, rfl⟩ | rfl := position_cases hc
  · cases c' with
    | entries => exact hp
    | _ => exact h.elim
  · cases c' with
    | members => exact hp
    | _ => exact h.elim

/-- A cursor over a table steps to the first entry at its position or behind it. Where there is
none, it has passed all entries and comes to its end. -/
theorem step_position {heap : Heap} (hc : c.position? = some (v, hash, place))
    (hv : heap.Has v p) (hp : c.Suits p) :
    (∃ y c' hash' place' k, c.step heap = .ok (some y, c') ∧
      c'.position? = some (v, hash', place' + 1) ∧
      IsNext p.filings hash place hash' place' k ∧ c'.Yields p y (hash', k)) ∨
    ∃ c', c.step heap = .ok (none, c') ∧ c'.position? = none ∧
      ∀ e ∈ p.filings, Passed p.filings hash place e := by
  obtain ⟨part, rfl⟩ | rfl := position_cases hc
  · obtain ⟨t, rfl⟩ := hp
    rcases hnext : t.nextFrom? hash place with _ | ⟨hash', place', x⟩
    · exact .inr ⟨_, Space.step_entries_end hv hnext, rfl, fun e he =>
        Table.passed_of_nextFrom?_eq_none hnext he⟩
    · exact .inl ⟨_, _, hash', place', x.1, Space.step_entries hv hnext, rfl,
        Table.isNext_of_nextFrom? hnext, t, x.2, rfl, Table.mem_of_nextFrom? hnext, rfl⟩
  · obtain ⟨t, rfl⟩ := hp
    rcases hnext : t.nextFrom? hash place with _ | ⟨hash', place', x⟩
    · exact .inr ⟨_, Space.step_members_end hv hnext, rfl, fun e he =>
        Table.passed_of_nextFrom?_eq_none hnext he⟩
    · exact .inl ⟨_, _, hash', place', x, Space.step_members hv hnext, rfl,
        Table.isNext_of_nextFrom? hnext, rfl⟩

end Cursor

theorem IsNext.cursor_ne {l : List (UInt64 × Handle)} (h : IsNext l hash place hash' place' k)
    (hc : c.position? = some (v, hash, place)) (hc' : c'.position? = some (v, hash', place' + 1)) :
    c' ≠ c := by
  rintro rfl
  obtain ⟨rfl, rfl⟩ : hash' = hash ∧ place' + 1 = place := by simpa [hc] using hc'.symm
  rcases h.onward with ⟨-, hplace⟩ | hlt
  · omega
  · exact UInt64.lt_irrefl _ hlt

/-! ## Logs -/

/-- An iterator `it` over the table of `v`, from when it was made, and as long as it does not come
to its end. In between primitive steps are taken and collections run, whatever they do. Listed are
the moments in between, the latest first, with the entry that the iterator was moved behind just
then. -/
inductive Interleaving (settings : Settings) (disk : Disk) (v it : Handle) :
    Space → List Moment → Prop
  | start {s s' : Space} {w : Handle} {o : Object} {c : Cursor} : LiveRun settings disk s →
      s.heap.Has w o → Cursor.ofObject? w o = some c → c.position? = some (v, 0, 0) →
      Space.iter w s = .ok it s' → Interleaving settings disk v it s' [⟨s'.filed v, none⟩]
  /-- A step leaves the iterator where it is. -/
  | stay {s s' : Space} {log : List Moment} {c : Cursor} : Interleaving settings disk v it s log →
      Step (fun heap g => heap.isLive g = true) s s' → s.heap.Has it (.iter c) →
      s'.heap.Has it (.iter c) → Interleaving settings disk v it s' (⟨s'.filed v, none⟩ :: log)
  /-- A step moves the iterator behind an entry. -/
  | advance {s s' : Space} {log : List Moment} {c c' : Cursor} {hash : UInt64} {place : Nat}
      {k : Handle} : Interleaving settings disk v it s log →
      Step (fun heap g => heap.isLive g = true) s s' → s.heap.Has it (.iter c) →
      s'.heap.Has it (.iter c') → c' ≠ c → c'.position? = some (v, hash, place + 1) →
      (under (s'.filed v) hash)[place]? = some k →
      Interleaving settings disk v it s' (⟨s'.filed v, some (hash, k)⟩ :: log)
  /-- A collection leaves the iterator live. -/
  | collect {s : Space} {log : List Moment} (t : Turn) : Interleaving settings disk v it s log →
      t.Collects → (∀ h ∈ t.handles, s.heap.isLive h = true) →
      (t.leave s).heap.isLive it = true →
      Interleaving settings disk v it (t.leave s) (⟨(t.leave s).filed v, none⟩ :: log)

/-- An iterator goes over a table and is not at its end. -/
structure GoesOver (s : Space) (v it : Handle) (c : Cursor) (p : Object) (hash : UInt64)
    (place : Nat) : Prop where
  steady : s.Steady
  iterator : s.heap.Has it (.iter c)
  position : c.position? = some (v, hash, place)
  table : s.heap.Has v p
  suits : c.Suits p

namespace GoesOver

theorem filed_eq (g : GoesOver s v it c p hash place) : s.filed v = p.filings :=
  Space.filed_of_has g.table

theorem cursor_step (g : GoesOver s v it c p hash place) :
    (∃ y c' hash' place' k, c.step s.heap = .ok (some y, c') ∧
      c'.position? = some (v, hash', place' + 1) ∧
      IsNext p.filings hash place hash' place' k ∧ c'.Yields p y (hash', k)) ∨
    ∃ c', c.step s.heap = .ok (none, c') ∧ c'.position? = none ∧
      ∀ e ∈ p.filings, Passed p.filings hash place e :=
  Cursor.step_position g.position g.table g.suits

theorem ne (g : GoesOver s v it c p hash place) : v ≠ it := by
  rintro rfl
  obtain rfl := g.table.unique g.iterator
  have hsuits := g.suits
  obtain ⟨part, rfl⟩ | rfl := Cursor.position_cases g.position <;>
    · obtain ⟨t, ht⟩ := hsuits
      cases ht

theorem later (g : GoesOver s v it c p hash place) (i : s'.Steady)
    (hk : Heap.Kept s.heap s'.heap) (hit : s'.heap.Has it (.iter c)) :
    ∃ p', GoesOver s' v it c p' hash place := by
  obtain ⟨p', hp', he⟩ := hk.has g.table
  exact ⟨p', i, hit, g.position, hp', g.suits.evolves he⟩

/-- A step leaves the iterator where it is, or it is a step of the iterator and leaves the table. -/
theorem step (g : GoesOver s v it c p hash place)
    (st : Step (fun heap g => heap.isLive g = true) s s') :
    s'.heap.Has it (.iter c) ∨
      ∃ c' y, c.step s.heap = .ok (y, c') ∧ s'.heap.Has it (.iter c') ∧ s'.heap.Has v p := by
  cases st with
  | alloc q => exact .inl (q.has g.iterator)
  | @update h o f ho hlive hch hc =>
    have hread : ∀ u, (s.heap.modify h f).get? u = if u = h then some (f o) else s.heap.get? u :=
      Arena.get?_modify ho f
    have hlives := Arena.isLive_modify ho f
    have hother : ∀ {u q}, u ≠ h → s.heap.Has u q → (s.heap.modify h f).Has u q := fun hu hq =>
      ⟨(hlives _).trans hq.1, (hread _).trans ((if_neg hu).trans hq.2)⟩
    by_cases hit : it = h
    · subst hit
      obtain rfl : o = .iter c := Option.some.inj (ho.symm.trans g.iterator.2)
      have hself : (s.heap.modify it f).Has it (f (.iter c)) :=
        ⟨(hlives it).trans g.iterator.1, (hread it).trans (if_pos rfl)⟩
      generalize f (.iter c) = o' at hch hself
      cases hch with
      | same => exact .inl hself
      | @advance _ c' hadv =>
        cases hadv with
        | @step _ _ y hstep => exact .inr ⟨c', y, hstep, hself, hother g.ne g.table⟩
        | count => cases g.position
    · exact .inl (hother hit g.iterator)
  | output | disk | integer | text | globals => exact .inl g.iterator

theorem moved (g : GoesOver s v it c p hash place)
    (st : Step (fun heap g => heap.isLive g = true) s s') (hit : s'.heap.Has it (.iter c'))
    (hne : c' ≠ c) (hpos : c'.position? = some (u, hash', n)) :
    ∃ place' k, n = place' + 1 ∧ IsNext p.filings hash place hash' place' k ∧
      GoesOver s' v it c' p hash' n := by
  rcases g.step st with hsame | ⟨c₁, y, hstep, hit₁, hp⟩
  · exact absurd (Object.iter.inj (hit.unique hsame)) hne
  obtain rfl := Object.iter.inj (hit.unique hit₁)
  have hsuits := (Cursor.onward_step hstep).suits_table g.position g.suits
  rcases g.cursor_step with ⟨y', c₂, hash₂, place', k, hstep', hpos', hnext, -⟩ |
    ⟨c₂, hstep', hpos', -⟩
  · obtain ⟨-, rfl⟩ := Prod.mk.inj (Except.ok.inj (hstep.symm.trans hstep'))
    obtain ⟨rfl, rfl, rfl⟩ : u = v ∧ hash' = hash₂ ∧ n = place' + 1 := by simpa [hpos] using hpos'
    exact ⟨place', k, rfl, hnext, g.steady.step st, hit, hpos, hp, hsuits⟩
  · obtain ⟨-, rfl⟩ := Prod.mk.inj (Except.ok.inj (hstep.symm.trans hstep'))
    rw [hpos] at hpos'
    cases hpos'

end GoesOver

theorem table_of_ofObject? (r : LiveRun settings disk s) (hw : s.heap.Has w o)
    (hc : Cursor.ofObject? w o = some c) (hpos : c.position? = some (v, hash, place)) :
    ∃ p, s.heap.Has v p ∧ c.Suits p := by
  cases Cursor.starts_of_ofObject? hc with
  | sequence | range => cases hpos
  | dict t | set t =>
    cases hpos
    exact ⟨_, hw, t, rfl⟩
  | view d part =>
    cases hpos
    obtain ⟨t, ht⟩ := r.firm.standing.views w v part hw
    have hlive := (Space.steady_of_liveRun r).children hw v (List.mem_singleton_self v)
    exact ⟨_, ⟨hlive, ht⟩, t, rfl⟩

namespace Interleaving

/-- **Logs are traversals.** An iterator that is advanced while its table changes goes over the
table, and the log is a traversal of what is filed. -/
theorem traverses (h : Interleaving settings disk v it s log) :
    ∃ c p hash place m past, log = m :: past ∧ m.filed = s.filed v ∧
      GoesOver s v it c p hash place ∧ Traversal m past hash place := by
  induction h with
  | @start s s' w o c r hw hc hpos hiter =>
    obtain ⟨it', s₁, hs₁, -, f, hit⟩ := Space.iter_frame (Space.steady_of_liveRun r) hw hc
    obtain ⟨rfl, rfl⟩ := EStateM.Result.ok.inj (hiter.symm.trans hs₁)
    obtain ⟨p, hp, hsuits⟩ := table_of_ofObject? r hw hc hpos
    exact ⟨c, p, 0, 0, _, [], rfl, rfl, ⟨f.steady, hit, hpos, f.keep hp, hsuits⟩,
      .start (f.steady.ordered.nodup_filed v)⟩
  | @stay s s' log c _ st hit hit' ih =>
    obtain ⟨c₀, p, hash, place, m, past, rfl, hm, g, t⟩ := ih
    obtain rfl := Object.iter.inj (hit.unique g.iterator)
    have i := g.steady.step st
    obtain ⟨p', g'⟩ := g.later i st.kept hit'
    exact ⟨c, p', hash, place, _, _, rfl, rfl, g',
      .change t (i.ordered.nodup_filed v) (hm ▸ st.follows v)⟩
  | @advance s s' log c c' hash' place' k _ st hit hit' hne hpos hk ih =>
    obtain ⟨c₀, p, hash, place, m, past, rfl, hm, g, t⟩ := ih
    obtain rfl := Object.iter.inj (hit.unique g.iterator)
    obtain ⟨place₁, k₁, hplace, hnext, g'⟩ := g.moved st hit' hne hpos
    obtain rfl := Nat.succ.inj hplace
    have hfiled : s'.filed v = m.filed := by
      rw [g'.filed_eq, hm, g.filed_eq]
    rw [← g.filed_eq, ← hm] at hnext
    obtain rfl := Option.some.inj (hk.symm.trans (hfiled ▸ hnext.stands))
    refine ⟨c', p, hash', place' + 1, _, _, rfl, rfl, g', ?_⟩
    rw [hfiled]
    exact .give t hnext
  | @collect s log t _ hc ht hlive ih =>
    obtain ⟨c, p, hash, place, m, past, rfl, hm, g, tr⟩ := ih
    have i := g.steady.turn t ht
    have hget := (Turn.leave_collect hc s).1.get?_eq
    have hit : (t.leave s).heap.Has it (.iter c) := ⟨hlive, (hget it).trans g.iterator.2⟩
    have hv : (t.leave s).heap.Has v p :=
      ⟨i.children hit v (Cursor.mem_children_of_position g.position), (hget v).trans g.table.2⟩
    exact ⟨c, p, hash, place, _, _, rfl, rfl, ⟨i, hit, g.position, hv, g.suits⟩,
      .change tr (i.ordered.nodup_filed v)
        (hm ▸ g.steady.ordered.sound.follows_collect hc ht v)⟩

theorem extend (h : Interleaving settings disk v it s log)
    (st : Step (fun heap g => heap.isLive g = true) s s') (hit : s'.heap.Has it (.iter c'))
    (hpos : c'.position? = some (u, hash', n)) :
    ∃ given, Interleaving settings disk v it s' (⟨s'.filed v, given⟩ :: log) := by
  obtain ⟨c, p, hash, place, m, past, rfl, hm, g, t⟩ := h.traverses
  by_cases hne : c' = c
  · subst hne
    exact ⟨none, h.stay st g.iterator hit⟩
  · obtain ⟨place', k, rfl, hnext, g'⟩ := g.moved st hit hne hpos
    obtain rfl : u = v := by
      have hboth := hpos.symm.trans g'.position
      exact (Prod.mk.inj (Option.some.inj hboth)).1
    exact ⟨_, h.advance st g.iterator hit hne hpos (g'.filed_eq ▸ hnext.stands)⟩

/-- Whatever is done goes on with the log, if it does not bring the iterator to its end. -/
theorem steps (h : Interleaving settings disk v it s log)
    (hst : Relation.ReflTransGen (Step fun heap g => heap.isLive g = true) s s') :
    ∃ c, s'.heap.Has it (.iter c) ∧ ∀ u hash place, c.position? = some (u, hash, place) →
      ∃ more, Interleaving settings disk v it s' (more ++ log) := by
  induction hst with
  | refl =>
    obtain ⟨c, p, hash, place, m, past, rfl, -, g, -⟩ := h.traverses
    exact ⟨c, g.iterator, fun _ _ _ _ => ⟨[], h⟩⟩
  | @tail s₁ s₂ _ st ih =>
    obtain ⟨c₁, hit₁, hmore⟩ := ih
    obtain ⟨o, hit₂, he⟩ := st.kept.has hit₁
    obtain ⟨c₂, rfl, honward⟩ := he.of_iter
    refine ⟨c₂, hit₂, fun u hash place hpos => ?_⟩
    obtain ⟨hash₁, place₁, hpos₁⟩ := honward.position_back hpos
    obtain ⟨more, h₁⟩ := hmore u hash₁ place₁ hpos₁
    obtain ⟨given, h₂⟩ := h₁.extend st hit₂ hpos
    exact ⟨_ :: more, h₂⟩

/-! ## Advancing -/

theorem next_moves (g : GoesOver s v it c p hash place) (h : c.step s.heap = .ok (y, c')) :
    ∃ s', Step (fun heap g => heap.isLive g = true) s s' ∧ s'.heap.Has it (.iter c') ∧
      Space.next it s = (y.mapM Space.emit) s' := by
  have hit := g.iterator
  have hchildren := (Cursor.onward_step h).children_eq
  have hlive : ∀ u ∈ (Object.iter c').children, s.heap.isLive u = true := fun u hu => by
    rw [Object.children, hchildren] at hu
    exact g.steady.children hit u hu
  refine ⟨_, .update hit.2 hit.1 (f := Object.moveTo c') (.advance (.step h)) hlive,
    ⟨(Arena.isLive_modify hit.2 _ it).trans hit.1, ?_⟩, ?_⟩
  · exact (Arena.get?_modify hit.2 _ it).trans (if_pos rfl)
  · rw [Space.next_eq hit (Cursor.plain_of_position g.position) h,
      Space.bind_of_ok (Trust.update_eq hit.2 _)]

/-- Making what a cursor yields leaves the iterator, and it gives a value that shows the entry. -/
theorem emits (h : Interleaving settings disk v it s log) (g : GoesOver s v it c p hash place)
    {z : Yield} (hz : c.Yields p z e) :
    ∃ w s' quiet, Space.emit z s = .ok w s' ∧ (∀ m ∈ quiet, m.given = none) ∧
      Interleaving settings disk v it s' (quiet ++ log) ∧ s'.heap.Has it (.iter c) ∧
      c.Displays s'.heap w e := by
  have hit := g.iterator
  have hv := g.table
  obtain ⟨part, rfl⟩ | rfl := Cursor.position_cases g.position
  · obtain ⟨t, x, rfl, hx, rfl⟩ := hz
    cases part with
    | keys => exact ⟨_, s, [], rfl, List.forall_mem_nil _, h, hit, t, x, hv, hx, rfl⟩
    | values => exact ⟨_, s, [], rfl, List.forall_mem_nil _, h, hit, t, x, hv, hx, rfl⟩
    | items =>
      obtain ⟨hk, hlive⟩ := Space.live_entry g.steady hv (Table.mem_toList.2 ⟨_, hx⟩)
      have hchildren : ∀ u ∈ (Object.tuple #[e.2, x]).children, s.heap.isLive u = true :=
        List.forall_mem_cons.2 ⟨hk, List.forall_mem_singleton.2 hlive⟩
      obtain ⟨w, old, heap, q, hw⟩ := Trust.alloc_placed g.steady.roomy (.tuple #[e.2, x])
      have st : Step (fun heap g => heap.isLive g = true) s _ := .alloc q trivial hchildren
      exact ⟨w, _, [_], hw, List.forall_mem_singleton.2 rfl,
        h.stay st hit (q.has hit), q.has hit, t, x, q.has hv, hx, q.has_self⟩
  · exact ⟨_, s, [], hz ▸ rfl, List.forall_mem_nil _, h, hit, rfl⟩

/-- **Advancing.** It gives a value that shows an entry, which goes into the log, or it gives
nothing and every entry has been given that was there all the time and undisturbed. -/
theorem next_cases (h : Interleaving settings disk v it s log) :
    (∃ w s' e m quiet c, Space.next it s = .ok (some w) s' ∧ m.given = some e ∧
      m.filed = s.filed v ∧ (∀ m ∈ quiet, m.given = none) ∧
      Interleaving settings disk v it s' (quiet ++ m :: log) ∧ s'.heap.Has it (.iter c) ∧
      c.Displays s'.heap w e) ∨
    ∃ s', Space.next it s = .ok none s' ∧ ∀ e, (∀ m ∈ log, e ∈ m.filed) → Undisturbed e.1 log →
      (givenIn log).count e = 1 := by
  obtain ⟨c, p, hash, place, m, past, rfl, hm, g, t⟩ := h.traverses
  rcases g.cursor_step with ⟨z, c', hash', place', k, hstep, hpos, hnext, hz⟩ |
    ⟨c', hstep, -, hpassed⟩
  · obtain ⟨s₁, st, hit, hrun⟩ := next_moves g hstep
    have hne := hnext.cursor_ne g.position hpos
    obtain ⟨-, -, -, -, g₁⟩ := g.moved st hit hne hpos
    have h₁ := h.advance st g.iterator hit hne hpos (g₁.filed_eq ▸ hnext.stands)
    obtain ⟨w, s', quiet, hw, hquiet, h', hit', hshows⟩ := emits h₁ g₁ hz
    refine .inl ⟨w, s', (hash', k), _, quiet, c', ?_, rfl, ?_, hquiet, h', hit', hshows⟩
    · rw [hrun]
      exact (Space.bind_of_ok hw).trans rfl
    · exact g₁.filed_eq.trans g.filed_eq.symm
  · obtain ⟨s₁, -, -, hrun⟩ := next_moves g hstep
    refine .inr ⟨s₁, hrun, fun e he hund => t.count_eq_one (fun e he => ?_) he hund⟩
    rw [hm, g.filed_eq] at he ⊢
    exact hpassed e he

theorem after_operation (h : Interleaving settings disk v it s log) (op : Operation)
    (hop : ∀ g ∈ op.handles, s.heap.isLive g = true)
    (hit : ((Turn.operation op).leave s).heap.Has it (.iter c))
    (hpos : c.position? = some (u, hash, n)) :
    ∃ more, Interleaving settings disk v it ((Turn.operation op).leave s) (more ++ log) := by
  obtain ⟨c₀, p, hash₀, place, m, past, -, -, g, -⟩ := h.traverses
  have l := Trust.later_leave (T := steadyTrust) g.steady op hop
  obtain ⟨c', hit', hmore⟩ := h.steps l.steps
  obtain rfl := Object.iter.inj (hit.unique hit')
  exact hmore u hash n hpos

end Interleaving

/-! ## Iterating while the table changes -/

/-- What iterating over a table comes to while the table changes, until the iterator first gives
nothing. -/
structure WellBehaved (settings : Settings) (disk : Disk) (v it : Handle) (s : Space)
    (log : List Moment) : Prop where
  ascending : (givenIn log).Pairwise fun later earlier => earlier.1 ≤ later.1
  /-- An entry that is there for a stretch of the iteration is given at most once in it. -/
  atMostOnce : ∀ e stretch, stretch <:+: log → (∀ m ∈ stretch, e ∈ m.filed) →
    (givenIn stretch).count e ≤ 1
  /-- When the iterator gives nothing, an entry that was there all the time has been given once, if
  nothing of its hash was removed. -/
  exactlyOnce : ∀ s', Space.next it s = .ok none s' → ∀ e, (∀ m ∈ log, e ∈ m.filed) →
    Undisturbed e.1 log → (givenIn log).count e = 1
  /-- Advancing always succeeds. What it gives shows the entry that goes into the log. -/
  advancing : ∃ r s', Space.next it s = .ok r s' ∧ ∀ w, r = some w → ∃ e m quiet c,
    m.given = some e ∧ m.filed = s.filed v ∧ (∀ m ∈ quiet, m.given = none) ∧
    Interleaving settings disk v it s' (quiet ++ m :: log) ∧ s'.heap.Has it (.iter c) ∧
    c.Displays s'.heap w e
  /-- The log goes on with every operation on live handles after which the iterator is not at its
  end. -/
  operation : ∀ op : Operation, (∀ g ∈ op.handles, s.heap.isLive g = true) →
    ∀ c position, ((Turn.operation op).leave s).heap.Has it (.iter c) →
    c.position? = some position →
    ∃ more, Interleaving settings disk v it ((Turn.operation op).leave s) (more ++ log)

/-- **Iterating while the table changes.** Whatever is done to a dict or a set in between, and
whatever else is done, an iterator over it goes on in order of hash, gives nothing twice that stays,
and misses nothing that stays undisturbed. -/
theorem interleaved_iteration (h : Interleaving settings disk v it s log) :
    WellBehaved settings disk v it s log := by
  have hcases := h.next_cases
  refine
    { ascending := ?ascending
      atMostOnce := fun e stretch hstretch he => ?atMostOnce
      exactlyOnce := fun s' hs' => ?exactlyOnce
      advancing := ?advancing
      operation := fun op hop c ⟨u, hash, n⟩ hit hpos => h.after_operation op hop hit hpos }
  case ascending =>
    obtain ⟨c, p, hash, place, m, past, rfl, -, -, t⟩ := h.traverses
    exact t.ascends.1
  case atMostOnce =>
    obtain ⟨c, p, hash, place, m, past, rfl, -, -, t⟩ := h.traverses
    exact t.count_le_one hstretch he
  case exactlyOnce =>
    rcases hcases with ⟨w, s₁, e, m, quiet, c, hs₁, -⟩ | ⟨s₁, -, honce⟩
    · obtain ⟨hnone, -⟩ := EStateM.Result.ok.inj (hs'.symm.trans hs₁)
      cases hnone
    · exact honce
  case advancing =>
    rcases hcases with ⟨w, s₁, e, m, quiet, c, hs₁, hrest⟩ | ⟨s₁, hs₁, -⟩
    · refine ⟨some w, s₁, hs₁, fun w' hw => ?_⟩
      obtain rfl := Option.some.inj hw
      exact ⟨e, m, quiet, c, hrest⟩
    · exact ⟨none, s₁, hs₁, fun w hw => by cases hw⟩

/-! ## A set that changes -/

section Sets

variable {t : Table Handle} {m : Handle} {κ : Key} {later : List (UInt64 × Handle)}

theorem Space.filed_of_set (hu : s.heap.Has u (.set t)) : s.filed u = t.entries.toList := by
  rw [Space.filed_of_has hu, Object.filings, Table.filings]
  exact List.map_id _

namespace Interleaving

/-- Behind a bucket an iterator over a set gives the first member of a greater hash. -/
theorem next_bucket (h : Interleaving settings disk u it s log) (hu : s.heap.Has u (.set t))
    (hit : s.heap.Has it (.iter (.members u hash place false)))
    (hb : (t.bucket hash).length ≤ place) (hlater : t.above hash = (hash', k) :: later) :
    ∃ s', Space.next it s = .ok (some k) s' ∧ Heap.Kept s.heap s'.heap ∧
      s'.heap.Has u (.set t) ∧ s'.heap.Has it (.iter (.members u hash' 1 false)) ∧
      Interleaving settings disk u it s' (⟨t.entries.toList, some (hash', k)⟩ :: log) := by
  obtain ⟨c, p, hash₀, place₀, m, past, rfl, -, g, -⟩ := h.traverses
  obtain rfl := Object.iter.inj (hit.unique g.iterator)
  have hnext : t.nextFrom? hash place = some (hash', 0, k) := by
    rw [Table.nextFrom?_of_length_le hb, hlater]
    rfl
  have hstep := Space.step_members hu hnext
  obtain ⟨s', hs', f, hit'⟩ := Space.next_frame g.steady hit trivial hstep
  obtain ⟨s₁, st, -, hs₁⟩ := next_moves g hstep
  obtain ⟨-, rfl⟩ := EStateM.Result.ok.inj (hs₁.symm.trans hs')
  have hu' := f.other hit hu nofun
  have hisNext : IsNext (s₁.filed u) hash place hash' 0 k :=
    Space.filed_of_has hu' ▸ Table.isNext_of_nextFrom? hnext
  have h' := h.advance st hit hit' (hisNext.cursor_ne rfl rfl) rfl hisNext.stands
  exact ⟨s₁, hs', f.kept, hu', hit', Space.filed_of_set hu' ▸ h'⟩

theorem next_end (h : Interleaving settings disk u it s log) (hu : s.heap.Has u (.set t))
    (hit : s.heap.Has it (.iter (.members u hash place false)))
    (hb : (t.bucket hash).length ≤ place) (hlater : t.above hash = []) :
    ∃ s', Space.next it s = .ok none s' := by
  obtain ⟨_, _, _, _, _, _, -, -, g, -⟩ := h.traverses
  have hnext : t.nextFrom? hash place = none := by
    rw [Table.nextFrom?_of_length_le hb, hlater]
    rfl
  obtain ⟨s', hs', -⟩ := Space.next_frame g.steady hit trivial (Space.step_members_end hu hnext)
  exact ⟨s', hs'⟩

theorem setInsert_vacant (h : Interleaving settings disk u it s log)
    (hu : s.heap.Has u (.set t)) (hit : s.heap.Has it (.iter c)) (k : s.heap.Keyed m κ)
    (hh : κ.hash? = some hash) (hb : t.bucket hash = []) :
    ∃ s', Space.setInsert u m s = .ok true s' ∧ Heap.Kept s.heap s'.heap ∧
      s'.heap.Has u (.set (t.push hash m)) ∧ s'.heap.Has it (.iter c) ∧
      Interleaving settings disk u it s' (⟨(t.push hash m).entries.toList, none⟩ :: log) := by
  obtain ⟨_, _, _, _, _, _, -, -, g, -⟩ := h.traverses
  have hplace := Space.setPlace_vacant g.steady.ordered hu k hh hb
  obtain ⟨s', hs', f, hu', st⟩ := Space.setInsert_push g.steady hu k.live hplace
  have hit' := f.other hu hit nofun
  exact ⟨s', hs', f.kept, hu', hit', Space.filed_of_set hu' ▸ h.stay st hit hit'⟩

theorem setRemove_only (h : Interleaving settings disk u it s log)
    (hu : s.heap.Has u (.set t)) (hit : s.heap.Has it (.iter c)) (k : s.heap.Keyed m κ)
    (hh : κ.hash? = some hash) (hb : t.bucket hash = [m]) :
    ∃ s', Space.setRemove u m s = .ok true s' ∧ Heap.Kept s.heap s'.heap ∧
      s'.heap.Has u (.set (t.erase hash 0)) ∧ s'.heap.Has it (.iter c) ∧
      Interleaving settings disk u it s' (⟨(t.erase hash 0).entries.toList, none⟩ :: log) := by
  obtain ⟨_, _, _, _, _, _, -, -, g, -⟩ := h.traverses
  have hplace := Space.setPlace_only g.steady.ordered hu k hh hb
  obtain ⟨s', hs', f, hu', st⟩ := Space.setRemove_erase g.steady hu hplace
  have hit' := f.other hu hit nofun
  exact ⟨s', hs', f.kept, hu', hit', Space.filed_of_set hu' ▸ h.stay st hit hit'⟩

end Interleaving

theorem LiveRun.setInsert_vacant (r : LiveRun settings disk s) (hu : s.heap.Has u (.set t))
    (k : s.heap.Keyed m κ) (hh : κ.hash? = some hash) (hb : t.bucket hash = []) :
    ∃ s', LiveRun settings disk s' ∧ Heap.Kept s.heap s'.heap ∧
      s'.heap.Has u (.set (t.push hash m)) := by
  have i := Space.steady_of_liveRun r
  obtain ⟨s', hs', f, hu', -⟩ :=
    Space.setInsert_push i hu k.live (Space.setPlace_vacant i.ordered hu k hh hb)
  refine ⟨s', r.after (.setInsert u m) rfl (fun g hg => ?_) hs', f.kept, hu'⟩
  rcases List.mem_pair.1 hg with rfl | rfl
  · exact hu.1
  · exact k.live

end Sets

/-- A run makes the set of 10, 20 and 30, and 25. -/
theorem run_to_set :
    ∃ s u t a b c d, LiveRun {} {} s ∧ s.heap.Has u (.set t) ∧
      t.entries.toList = [(10, a), (20, b), (30, c)] ∧
      s.heap.Keyed b (.number 20) ∧ s.heap.Keyed d (.number 25) := by
  obtain ⟨s₀, h₀⟩ := Space.create_ok {} rfl {}
  obtain ⟨a, s₁, r₁, -, ha⟩ := (LiveRun.start h₀).newInt 10
  obtain ⟨b, s₂, r₂, f₂, hb⟩ := r₁.newInt 20
  obtain ⟨c, s₃, r₃, f₃, hc⟩ := r₂.newInt 30
  obtain ⟨d, s₄, r₄, f₄, hd⟩ := r₃.newInt 25
  obtain ⟨u, s₅, hs₅, f₅, hu₅⟩ := Space.newSet_empty (Space.steady_of_liveRun r₄)
  have r₅ := r₄.after (.newSet []) rfl (List.forall_mem_nil _) hs₅
  have k₅ := f₄.kept.trans f₅.kept
  have hash₁₀ : (Key.number 10).hash? = some 10 := rfl
  have hash₂₀ : (Key.number 20).hash? = some 20 := rfl
  have hash₃₀ : (Key.number 30).hash? = some 30 := rfl
  -- the members come in one after the other
  have ka := (keyed_int ha).later (f₂.kept.trans (f₃.kept.trans k₅))
  obtain ⟨s₆, r₆, k₆, hu₆⟩ := r₅.setInsert_vacant hu₅ ka hash₁₀ rfl
  have he₅ : (Table.empty : Table Handle).entries.toList = [] := rfl
  have he₆ : (Table.empty.push 10 a).entries.toList = [(10, a)] := by
    simp [Table.entries_push, Table.below, Table.above, Table.bucket_eq, he₅]
  generalize Table.empty.push 10 a = t₆ at hu₆ he₆
  have kb := (keyed_int hb).later (f₃.kept.trans (k₅.trans k₆))
  obtain ⟨s₇, r₇, k₇, hu₇⟩ :=
    r₆.setInsert_vacant hu₆ kb hash₂₀ (by simp [Table.bucket_eq, he₆])
  have he₇ : (t₆.push 20 b).entries.toList = [(10, a), (20, b)] := by
    simp [Table.entries_push, Table.below, Table.above, Table.bucket_eq, he₆]
  generalize t₆.push 20 b = t₇ at hu₇ he₇
  have kc := (keyed_int hc).later (k₅.trans (k₆.trans k₇))
  obtain ⟨s₈, r₈, k₈, hu₈⟩ :=
    r₇.setInsert_vacant hu₇ kc hash₃₀ (by simp [Table.bucket_eq, he₇])
  have he₈ : (t₇.push 30 c).entries.toList = [(10, a), (20, b), (30, c)] := by
    simp [Table.entries_push, Table.below, Table.above, Table.bucket_eq, he₇]
  have kd := (keyed_int hd).later (f₅.kept.trans (k₆.trans (k₇.trans k₈)))
  exact ⟨s₈, u, _, a, b, c, d, r₈, hu₈, he₈, kb.later (k₇.trans k₈), kd⟩

/-- An iterator over the set of 10, 20 and 30 gives 10. Then 20 is removed and 25 added, the
iterator gives 25 and 30, and then nothing. 30 is there all the time, and is given once. -/
theorem interleaved_iteration_set :
    ∃ s u it a b c d s', let log : List Moment :=
        [⟨[(10, a), (25, d), (30, c)], some (30, c)⟩,
          ⟨[(10, a), (25, d), (30, c)], some (25, d)⟩,
          ⟨[(10, a), (25, d), (30, c)], none⟩,
          ⟨[(10, a), (30, c)], none⟩,
          ⟨[(10, a), (20, b), (30, c)], some (10, a)⟩,
          ⟨[(10, a), (20, b), (30, c)], none⟩]
      Interleaving {} {} u it s log ∧ Space.next it s = .ok none s' ∧
        (∀ m ∈ log, (30, c) ∈ m.filed) ∧ Undisturbed 30 log ∧ WellBehaved {} {} u it s log := by
  obtain ⟨s, u, t, a, b, c, d, r, hu, he, kb, kd⟩ := run_to_set
  obtain ⟨it, s₁, hs₁, -, f₁, hit₁⟩ := Space.iter_frame (Space.steady_of_liveRun r) hu rfl
  have hu₁ := f₁.keep hu
  have h₁ : Interleaving {} {} u it s₁ [⟨s₁.filed u, none⟩] := .start r hu rfl rfl hs₁
  rw [Space.filed_of_set hu₁, he] at h₁
  -- 10 is given
  have hlater₁ : t.above 0 = [(10, a), (20, b), (30, c)] := by simp [Table.above, he]
  obtain ⟨s₂, -, k₂, hu₂, hit₂, h₂⟩ :=
    h₁.next_bucket hu₁ hit₁ (by simp [Table.bucket_eq, he]) hlater₁
  rw [he] at h₂
  -- 20 is removed
  have hash₂₀ : (Key.number 20).hash? = some 20 := rfl
  obtain ⟨s₃, -, k₃, hu₃, hit₃, h₃⟩ := h₂.setRemove_only hu₂ hit₂
    (kb.later (f₁.kept.trans k₂)) hash₂₀ (by simp [Table.bucket_eq, he])
  have he₃ : (t.erase 20 0).entries.toList = [(10, a), (30, c)] := by
    simp [Table.entries_erase, Table.below, Table.above, Table.bucket_eq, he]
  rw [he₃] at h₃
  generalize t.erase 20 0 = t₃ at hu₃ he₃
  -- 25 is added
  have hash₂₅ : (Key.number 25).hash? = some 25 := rfl
  obtain ⟨s₄, -, -, hu₄, hit₄, h₄⟩ := h₃.setInsert_vacant hu₃ hit₃
    (kd.later (f₁.kept.trans (k₂.trans k₃))) hash₂₅ (by simp [Table.bucket_eq, he₃])
  have he₄ : (t₃.push 25 d).entries.toList = [(10, a), (25, d), (30, c)] := by
    simp [Table.entries_push, Table.below, Table.above, Table.bucket_eq, he₃]
  rw [he₄] at h₄
  generalize t₃.push 25 d = t₄ at hu₄ he₄
  -- 25 and 30 are given, and then nothing
  have hlater₄ : t₄.above 10 = [(25, d), (30, c)] := by simp [Table.above, he₄]
  obtain ⟨s₅, -, -, hu₅, hit₅, h₅⟩ :=
    h₄.next_bucket hu₄ hit₄ (by simp [Table.bucket_eq, he₄]) hlater₄
  have hlater₅ : t₄.above 25 = [(30, c)] := by simp [Table.above, he₄]
  obtain ⟨s₆, -, -, hu₆, hit₆, h₆⟩ :=
    h₅.next_bucket hu₅ hit₅ (by simp [Table.bucket_eq, he₄]) hlater₅
  rw [he₄] at h₆
  obtain ⟨s₇, hs₇⟩ := h₆.next_end hu₆ hit₆ (by simp [Table.bucket_eq, he₄])
    (by simp [Table.above, he₄])
  refine ⟨s₆, u, it, a, b, c, d, s₇, h₆, hs₇, ?_, ?_, interleaved_iteration h₆⟩
  · simp
  · simp [Undisturbed]

end ObjectSpace
