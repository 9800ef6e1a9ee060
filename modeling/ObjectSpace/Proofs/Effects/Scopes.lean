import ObjectSpace.Proofs.Effects.Operations
import ObjectSpace.Proofs.Run.Live

/-!
# Runs with contexts

A program names a context where a context is asked for, and nothing else (`ScopedRun`). In such a
run the parent of a live context is a context, and so is the global context (`ScopedRun.scoped`):
only new contexts get a parent, and the global context is one that an operation was given.
-/

namespace ObjectSpace

/-- The handles that an operation is given as contexts. -/
def Operation.contexts : Operation → List Handle
  | .newContext parent _ => parent.toList
  | .parentContext c | .store c .. | .load c _ | .declareGlobal c _ | .storeName c ..
  | .loadName c _ | .bindFunction c .. | .bindType c _ | .initContext c _ | .call c ..
  | .callWith c .. => [c]
  | _ => []

/-- The handles that a turn is given as contexts. -/
def Turn.contexts : Turn → List Handle
  | .operation op => op.contexts
  | .collectNow c _ | .collectIfDue c _ => [c]

/-- A live handle names a context. -/
def Heap.IsContext (heap : Heap) (c : Handle) : Prop := ∃ k, heap.Has c (.context k)

/-- The spaces that runs on live handles lead to in which contexts are named for contexts. -/
inductive ScopedRun (settings : Settings) (disk : Disk) : Space → Prop
  | start {s : Space} : Space.create settings disk = .ok s → ScopedRun settings disk s
  | turn {s : Space} (t : Turn) : ScopedRun settings disk s →
      (∀ h ∈ t.handles, s.heap.isLive h = true) → (∀ c ∈ t.contexts, s.heap.IsContext c) →
      ScopedRun settings disk (t.leave s)

variable {settings : Settings} {disk : Disk} {s : Space}

theorem ScopedRun.live (r : ScopedRun settings disk s) : LiveRun settings disk s := by
  induction r with
  | start h => exact .start h
  | turn t _ ht _ ih => exact .turn t ih ht

/-! ## The invariant -/

/-- The parent of a context. -/
def Object.scope? : Object → Option (Option Handle)
  | context k => some k.parent
  | _ => none

theorem Object.exists_of_scope? {o : Object} {parent : Option Handle}
    (h : o.scope? = some parent) : ∃ k : Context, o = .context k ∧ k.parent = parent := by
  cases o with
  | context k => exact ⟨k, rfl, Option.some.inj h⟩
  | _ => cases h

theorem Object.Refills.scope?_eq {o o' : Object} (h : o.Refills o') : o'.scope? = o.scope? :=
  h.observe_eq (fun _ _ => rfl) (fun _ _ => rfl) fun _ _ => rfl

theorem Object.Rebinds.scope?_eq {o o' : Object} (h : o.Rebinds o') : o'.scope? = o.scope? :=
  h.observe_eq fun _ _ => congrArg some

theorem Object.Restreams.scope?_eq {o o' : Object} (h : o.Restreams o') :
    o'.scope? = o.scope? :=
  h.observe_eq fun _ _ => rfl

namespace Space

variable {l : List Handle} {h c : Handle} {P : Object → Prop} {R : Object → Object → Prop}

/-- The parents of live contexts are contexts, and so is the global context. -/
structure Scoped (s : Space) : Prop where
  roomy : s.heap.Roomy
  parents : ∀ c k p, s.heap.Has c (.context k) → k.parent = some p → s.heap.IsContext p
  globals : ∀ g, s.globals = some g → s.heap.IsContext g

/-- Besides, certain handles name contexts. -/
def ScopedWith (l : List Handle) (s : Space) : Prop :=
  s.Scoped ∧ ∀ c ∈ l, s.heap.IsContext c

/-- Objects that are placed are no contexts, or have a context for a parent. -/
theorem admits_scopedWith
    (hP : ∀ o p, P o → o.scope? = some (some p) → p ∈ l) : Admits (ScopedWith l) P := by
  intro s o g old heap hs ho p
  obtain ⟨i, hl⟩ := hs
  have hkeep : ∀ c, s.heap.IsContext c → Heap.IsContext heap c := by
    intro c hc
    obtain ⟨k, hk⟩ := hc
    exact ⟨k, p.has hk⟩
  refine ⟨⟨p.roomy i.roomy, fun c k q hc hq => ?_, fun g hg => hkeep g (i.globals g hg)⟩,
    fun c hc => hkeep c (hl c hc)⟩
  rcases p.get?_eq hc.2 with ⟨-, rfl⟩ | ⟨hne, hold⟩
  · exact hkeep q (hl q (hP _ q ho (congrArg some hq)))
  · have hlive : s.heap.isLive c = true := (p.isLive_iff.1 hc.1).resolve_left hne
    exact hkeep q (i.parents c k q ⟨hlive, hold⟩ hq)

/-- Changes after which a context is a context with the same parent. -/
theorem alters_scopedWith (hR : ∀ o o', R o o' → o'.scope? = o.scope?) :
    Alters (ScopedWith l) h R := by
  intro s o f hs ho hf
  obtain ⟨i, hl⟩ := hs
  have hscope := hR o (f o) hf
  have hlive := Arena.isLive_modify ho f
  have hread := Arena.get?_modify ho f
  have hkeep : ∀ c, s.heap.IsContext c →
      Heap.IsContext (s.heap.modify h f) c := by
    intro c hc
    obtain ⟨k, hk⟩ := hc
    by_cases he : c = h
    · obtain rfl := Option.some.inj (hk.2.symm.trans (he ▸ ho))
      obtain ⟨k', hk', -⟩ := Object.exists_of_scope? (hscope.trans rfl)
      exact ⟨k', (hlive c).trans hk.1, (hread c).trans ((if_pos he).trans (congrArg some hk'))⟩
    · exact ⟨k, (hlive c).trans hk.1, (hread c).trans ((if_neg he).trans hk.2)⟩
  refine ⟨⟨i.roomy.modify h f, fun c k q hc hq => ?_, fun g hg => hkeep g (i.globals g hg)⟩,
    fun c hc => hkeep c (hl c hc)⟩
  have hclive := (hlive c).symm.trans hc.1
  have hget := (hread c).symm.trans hc.2
  by_cases he : c = h
  · rw [if_pos he] at hget
    obtain ⟨k', rfl, hk'⟩ := Object.exists_of_scope?
      (hscope.symm.trans (congrArg Object.scope? (Option.some.inj hget)))
    exact hkeep q (i.parents c k' q ⟨hclive, he ▸ ho⟩ (hk'.trans hq))
  · rw [if_neg he] at hget
    exact hkeep q (i.parents c k q ⟨hclive, hget⟩ hq)

/-- What operations do apart from placing contexts and naming a global context. -/
theorem bears_scopedWith {e : Effect} (hparent : ∀ p, e = .scope (some p) → p ∈ l)
    (hglobal : ∀ c, e = .globals c → c ∈ l) : Bears (ScopedWith l) e := by
  cases e with
  | advance =>
    refine fun it => alters_scopedWith fun o o' h => ?_
    obtain ⟨c, rfl⟩ := h
    cases o <;> rfl
  | fill h => exact alters_scopedWith fun _ _ => Object.Refills.scope?_eq
  | assign v name w =>
    show Alters _ v fun o o' => o' = o.withAttribute name w ∨ o' = o
    refine alters_scopedWith fun o o' h => ?_
    rcases h with rfl | rfl
    · cases o <;> rfl
    · rfl
  | scope parent =>
    refine admits_scopedWith fun o p ho hp => ?_
    obtain ⟨slots, rfl⟩ := ho
    exact hparent p (congrArg Effect.scope (Option.some.inj hp))
  | contexts => exact fun c => alters_scopedWith fun _ _ => Object.Rebinds.scope?_eq
  | globals c =>
    intro s hs
    refine ⟨⟨hs.1.roomy, hs.1.parents, fun g hg => ?_⟩, hs.2⟩
    obtain rfl := Option.some.inj hg
    exact hs.2 c (hglobal c rfl)
  | files =>
    refine ⟨admits_scopedWith fun o p ho hp => ?_,
      fun f => alters_scopedWith fun _ _ => Object.Restreams.scope?_eq⟩
    obtain ⟨f, rfl⟩ := ho
    cases hp
  | disk => exact fun s disk hs => ⟨⟨hs.1.roomy, hs.1.parents, hs.1.globals⟩, hs.2⟩

theorem stable_scopedWith : Stable (ScopedWith l) where
  roomy h := h.1.roomy
  other h hheap _ hglobals _ := by
    refine ⟨⟨?_, ?_, ?_⟩, ?_⟩
    · rw [hheap]
      exact h.1.roomy
    · rw [hheap]
      exact h.1.parents
    · rw [hheap, hglobals]
      exact h.1.globals
    · rw [hheap]
      exact h.2
  place := by
    refine admits_scopedWith fun o p ho hp => ?_
    obtain ⟨k, rfl, -⟩ := Object.exists_of_scope? hp
    exact ho.elim
  fill _ := bears_scopedWith nofun nofun
  assign _ name w := bears_scopedWith nofun nofun

end Space

open Space

/-! ## Runs -/

/-- **Scopes.** In a run that names contexts for contexts, the parents of live contexts are
contexts, and so is the global context. -/
theorem ScopedRun.scoped (r : ScopedRun settings disk s) : s.Scoped := by
  induction r with
  | @start s h =>
    obtain ⟨n, a, hr, hf, hs⟩ := create_new h
    refine ⟨hs.roomy hr, fun c k p hc _ => (hs.permanent hf hc.2).elim, fun g hg => ?_⟩
    rw [n.globals] at hg
    cases hg
  | @turn s t r ht hcontexts ih =>
    by_cases hc : t.Collects
    · -- what live contexts and the roots refer to stays live
      obtain ⟨hsame, hroots⟩ := Turn.leave_collect hc s
      have i := sound_of_liveRun r.live
      have i' := i.leave t ht
      have hkeep : ∀ c, s.heap.IsContext c → (t.leave s).heap.isLive c = true →
          (t.leave s).heap.IsContext c := by
        intro c hc hlive
        obtain ⟨k, hk⟩ := hc
        exact ⟨k, hlive, (hsame.get?_eq c).trans hk.2⟩
      refine ⟨i'.roomy, fun c k p hk hp => ?_, fun g hg => ?_⟩
      · have hold : s.heap.Has c (.context k) :=
          ⟨i.live_of_collect hc ht c hk.1, (hsame.get?_eq c).symm.trans hk.2⟩
        refine hkeep p (ih.parents c k p hold hp) ?_
        obtain ⟨o, ho, hchildren⟩ := i'.get? hk.1
        obtain rfl := Option.some.inj (ho.symm.trans hk.2)
        exact hchildren p (List.mem_append_right _ (Option.mem_toList.2 hp))
      · rw [(Turn.leave_collect_rest hc s).1] at hg
        refine hkeep g (ih.globals g hg) (i'.roots g ?_)
        rw [hroots]
        simp [permanentRoots, hg]
    · cases t with
      | operation op =>
        refine (keeps_operation stable_scopedWith op (fun e he => ?_) s ⟨ih, hcontexts⟩).1
        refine bears_scopedWith (fun p hp => ?_) fun c hc => ?_
        · subst hp
          cases op <;> simp_all [Operation.Has, Turn.contexts, Operation.contexts]
        · subst hc
          cases op <;> simp_all [Operation.Has, Turn.contexts, Operation.contexts]
      | collectNow | collectIfDue => exact absurd trivial hc

end ObjectSpace
