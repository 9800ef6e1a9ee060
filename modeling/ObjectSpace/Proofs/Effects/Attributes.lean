import ObjectSpace.Proofs.Effects.Operations
import ObjectSpace.Proofs.Run.Live

/-!
# What outlasts the turns of a run

The attributes of a live instance or class change when one of them is set, and in no other way: what
is known of the object and not lost by setting attributes holds for as long as the object is live
(`LeadsWithout.held`), whatever turns are taken in between.

What holds of the permanent objects and of those that operations make, and outlasts every effect,
holds of all objects in a run on live handles (`LiveRun.all`). So the members of a class have
different names (`LiveRun.members_once`), as names are bound one after the other and setting an
attribute binds in place.
-/

namespace ObjectSpace

/-! ## Attributes of one object -/

/-- The objects that can be given attributes. -/
def Object.HasAttributes : Object → Prop
  | userInstance .. | userClass .. => True
  | _ => False

namespace Space

variable {s s' : Space} {v g : Handle} {P : Object → Prop} {R : Object → Object → Prop}

/-- A live object has a property. -/
def Held (v : Handle) (P : Object → Prop) (s : Space) : Prop :=
  s.heap.Roomy ∧ ∃ o, s.heap.Has v o ∧ P o

/-- Changing another object, or this one in a way that keeps the property. -/
theorem alters_held (h : g = v → ∀ o o', P o → R o o' → P o') : Alters (Held v P) g R := by
  intro s p f hs hget hR
  obtain ⟨hr, o, ho, hP⟩ := hs
  refine ⟨hr.modify g f, ?_⟩
  have hlive : (s.heap.modify g f).isLive v = true := (Arena.isLive_modify hget f v).trans ho.1
  have hread := Arena.get?_modify hget f v
  by_cases hv : v = g
  · subst hv
    obtain rfl := Option.some.inj (ho.2.symm.trans hget)
    rw [if_pos rfl] at hread
    exact ⟨f o, ⟨hlive, hread⟩, h rfl o (f o) hP hR⟩
  · rw [if_neg hv, ho.2] at hread
    exact ⟨o, ⟨hlive, hread⟩, hP⟩

/-- A live object is not a new one. -/
theorem ne_of_fresh (h : Fresh (Held v P) g) : g ≠ v := by
  rintro rfl
  obtain ⟨s, ⟨-, o, ho, -⟩, hnone⟩ := h
  rw [ho.2] at hnone
  cases hnone

theorem stable_held (v : Handle) (P : Object → Prop) : Stable (Held v P) where
  roomy h := h.1
  other h hheap _ _ _ := by
    unfold Held
    rw [hheap]
    exact h
  place s o h old heap hs _ p := by
    obtain ⟨hr, u, hu, hP⟩ := hs
    exact ⟨p.roomy hr, u, p.has hu, hP⟩
  fill h := alters_held fun he => absurd he (ne_of_fresh h)
  assign h name w :=
    alters_held (R := fun o o' => o' = o.withAttribute name w ∨ o' = o) fun he =>
      absurd he (ne_of_fresh h)

/-- An instance or a class bears everything but that it is given an attribute. -/
theorem bears_held (hP : ∀ o, P o → o.HasAttributes) {e : Effect}
    (he : ∀ name w, e = .assign v name w → ∀ o, P o → P (o.withAttribute name w)) :
    Bears (Held v P) e := by
  cases e with
  | advance =>
    refine fun it => alters_held fun _ o o' ho hc => ?_
    obtain ⟨c, rfl⟩ := hc
    have hset := hP o ho
    cases o <;> first
      | exact ho
      | exact hset.elim
  | fill g =>
    refine alters_held fun _ o o' ho ho' => ?_
    have hset := hP o ho
    cases o <;> first
      | exact ho' ▸ ho
      | exact hset.elim
  | assign g name w =>
    show Alters (Held v P) g fun o o' => o' = o.withAttribute name w ∨ o' = o
    refine alters_held fun hg o o' ho ho' => ?_
    rcases ho' with rfl | rfl
    · exact he name w (hg ▸ rfl) o ho
    · exact ho
  | scope parent =>
    intro s o h old heap hs _ p
    obtain ⟨hr, u, hu, hPu⟩ := hs
    exact ⟨p.roomy hr, u, p.has hu, hPu⟩
  | contexts =>
    refine fun c => alters_held fun _ o o' ho ho' => ?_
    have hset := hP o ho
    cases o <;> first
      | exact ho' ▸ ho
      | exact hset.elim
  | globals ctx => exact fun s hs => hs
  | files =>
    refine ⟨fun s o h old heap hs _ p => ?_, fun f => alters_held fun _ o o' ho ho' => ?_⟩
    · obtain ⟨hr, u, hu, hPu⟩ := hs
      exact ⟨p.roomy hr, u, p.has hu, hPu⟩
    · have hset := hP o ho
      cases o <;> first
        | exact ho' ▸ ho
        | exact hset.elim
  | disk => exact fun s d hs => hs

/-! ## Runs -/

/-- The spaces that turns on live handles lead to which keep a handle live, without certain
operations. -/
inductive LeadsWithout (banned : Operation → Prop) (v : Handle) (s : Space) : Space → Prop
  | refl : LeadsWithout banned v s s
  | turn {s' : Space} (t : Turn) : LeadsWithout banned v s s' →
      (∀ op, t = .operation op → ¬ banned op) → (∀ h ∈ t.handles, s'.heap.isLive h = true) →
      (t.leave s').heap.isLive v = true → LeadsWithout banned v s (t.leave s')

variable {banned : Operation → Prop} {settings : Settings} {disk : Disk}

theorem LeadsWithout.run (l : LeadsWithout banned v s s') (r : LiveRun settings disk s) :
    LiveRun settings disk s' := by
  induction l with
  | refl => exact r
  | turn t _ _ ht _ ih => exact .turn t ih ht

/-- A collection leaves the objects that it keeps live. -/
theorem held_of_collect {t : Turn} (ht : t.Collects) (hv : (t.leave s).heap.isLive v = true)
    (h : Held v P s) : Held v P (t.leave s) := by
  obtain ⟨hr, o, ho, hP⟩ := h
  have hsame := (Turn.leave_collect ht s).1
  exact ⟨hsame.roomy hr, o, ⟨hv, (hsame.get?_eq v).trans ho.2⟩, hP⟩

/-- **What keeps an instance or a class.** What holds of it and is not lost by setting attributes in
the ways that are not banned holds for as long as it is live. -/
theorem LeadsWithout.held (l : LeadsWithout banned v s s') (hP : ∀ o, P o → o.HasAttributes)
    (hset : ∀ name w, ¬ banned (.setAttribute v name w) → ∀ o, P o → P (o.withAttribute name w))
    (h : Held v P s) : Held v P s' := by
  induction l with
  | refl => exact h
  | turn t _ hban _ hlive ih =>
    cases t with
    | operation op =>
      refine keeps_operation (stable_held v P) op (fun e he => ?_) _ ih
      refine bears_held hP fun name w hassign => ?_
      subst hassign
      obtain rfl : op = .setAttribute v name w := by
        cases op <;> simp_all [Operation.Has]
      exact hset name w (hban _ rfl)
    | collectNow | collectIfDue => exact held_of_collect trivial hlive ih

end Space

/-! ## All objects -/

namespace Bindings

variable {name n : String} {h : Handle} {b : Bindings}

/-- Every name is bound once. -/
def Once (b : Bindings) : Prop := (b.entries.map (·.1)).Nodup

theorem mem_names_setIn {l : List (String × Handle)} (hn : n ∈ (setIn name h l).map (·.1)) :
    n = name ∨ n ∈ l.map (·.1) := by
  induction l with
  | nil => exact .inl (List.mem_singleton.1 hn)
  | cons e rest ih =>
    rw [setIn] at hn
    split at hn
    · exact .inr hn
    · rcases List.mem_cons.1 hn with rfl | hn
      · exact .inr List.mem_cons_self
      · exact (ih hn).imp_right (List.mem_cons_of_mem _)

theorem nodup_setIn (name : String) (h : Handle) {l : List (String × Handle)}
    (hl : (l.map (·.1)).Nodup) : ((setIn name h l).map (·.1)).Nodup := by
  induction l with
  | nil => exact List.nodup_singleton name
  | cons e rest ih =>
    obtain ⟨hnew, hrest⟩ := List.nodup_cons.1 hl
    rw [setIn]
    split
    · exact hl
    · rename_i hne
      refine List.nodup_cons.2 ⟨fun hmem => ?_, ih hrest⟩
      exact (mem_names_setIn hmem).elim hne hnew

theorem Once.set (hb : b.Once) (name : String) (h : Handle) : (b.set name h).Once :=
  nodup_setIn name h hb

theorem once_ofList (l : List (String × Handle)) : (ofList l).Once := by
  have key : ∀ b : Bindings, b.Once → (l.foldl (fun b e => b.set e.1 e.2) b).Once := by
    induction l with
    | nil => exact fun b hb => hb
    | cons e rest ih => exact fun b hb => ih _ (hb.set e.1 e.2)
  exact key {} List.nodup_nil

theorem Once.get?_eq_some (hb : b.Once) : b.get? name = some h ↔ (name, h) ∈ b.entries := by
  obtain ⟨l⟩ := b
  show l.lookup name = some h ↔ (name, h) ∈ l
  replace hb : (l.map (·.1)).Nodup := hb
  induction l with
  | nil => simp
  | cons e rest ih =>
    obtain ⟨n, g⟩ := e
    obtain ⟨hnew, hrest⟩ := List.nodup_cons.1 hb
    by_cases hn : name = n
    · subst hn
      have hrest : (name, h) ∉ rest := fun hm => hnew (List.mem_map.2 ⟨_, hm, rfl⟩)
      simp [hrest, eq_comm]
    · simp [List.lookup_cons, beq_false_of_ne hn, ih hrest, hn]

/-- A name that is not bound yet is bound at the end. -/
theorem set_new {b : Bindings} (h : Handle) (hnew : name ∉ b.entries.map (·.1)) :
    b.set name h = ⟨b.entries ++ [(name, h)]⟩ := by
  obtain ⟨l⟩ := b
  refine congrArg Bindings.mk ?_
  induction l with
  | nil => rfl
  | cons e rest ih =>
    obtain ⟨hne, hrest⟩ := not_or.1 (mt List.mem_cons.2 hnew)
    rw [setIn, if_neg (Ne.symm hne), ih hrest]
    rfl

end Bindings

/-- A property of the objects that are placed which outlasts what is done to them. -/
structure Object.Lasting (Q : Object → Prop) : Prop where
  permanent : ∀ o, o.Permanent → Q o
  made : ∀ o, o.Made → Q o
  file : ∀ f, Q (.file f)
  context : ∀ c, Q (.context c)
  advance : ∀ o c, Q o → Q (o.moveTo c)
  fill : ∀ o o', Q o → o.Refills o' → Q o'
  assign : ∀ o name w, Q o → Q (o.withAttribute name w)
  rebind : ∀ o o', Q o → o.Rebinds o' → Q o'
  restream : ∀ o o', Q o → o.Restreams o' → Q o'

namespace Space

variable {P Q : Object → Prop} {R : Object → Object → Prop} {h : Handle}
  {settings : Settings} {disk : Disk} {s : Space}

/-- All objects have a property. -/
def All (Q : Object → Prop) (s : Space) : Prop :=
  s.heap.Roomy ∧ ∀ v o, s.heap.get? v = some o → Q o

theorem admits_all (hP : ∀ o, P o → Q o) : Admits (All Q) P := by
  intro s o g old heap hs ho p
  refine ⟨p.roomy hs.1, fun v u hu => ?_⟩
  rcases p.get?_eq hu with ⟨-, rfl⟩ | ⟨-, hold⟩
  · exact hP _ ho
  · exact hs.2 v u hold

theorem alters_all (hR : ∀ o o', Q o → R o o' → Q o') : Alters (All Q) h R := by
  intro s o f hs ho hf
  refine ⟨hs.1.modify h f, fun v u hu => ?_⟩
  rw [Arena.get?_modify ho] at hu
  split at hu
  · exact Option.some.inj hu ▸ hR o (f o) (hs.2 h o ho) hf
  · exact hs.2 v u hu

variable (q : Object.Lasting Q)

include q

theorem bears_all (e : Effect) : Bears (All Q) e := by
  cases e with
  | advance =>
    refine fun it => alters_all fun o o' ho hc => ?_
    obtain ⟨c, rfl⟩ := hc
    exact q.advance o c ho
  | fill h => exact alters_all q.fill
  | assign v name w =>
    refine alters_all (R := fun o o' => o' = o.withAttribute name w ∨ o' = o) fun o o' ho ho' => ?_
    rcases ho' with rfl | rfl
    · exact q.assign o name w ho
    · exact ho
  | scope parent =>
    refine admits_all fun o ho => ?_
    obtain ⟨slots, rfl⟩ := ho
    exact q.context _
  | contexts => exact fun c => alters_all q.rebind
  | globals ctx => exact fun s hs => hs
  | files =>
    refine ⟨admits_all fun o ho => ?_, fun f => alters_all q.restream⟩
    obtain ⟨f, rfl⟩ := ho
    exact q.file f
  | disk => exact fun s disk hs => hs

theorem stable_all : Stable (All Q) where
  roomy hs := hs.1
  other hs hheap _ _ _ := by
    unfold All
    rw [hheap]
    exact hs
  place := admits_all q.made
  fill _ := bears_all q _
  assign _ name w := bears_all q (.assign _ name w)

end Space

open Space

variable {settings : Settings} {disk : Disk} {s : Space}

/-- **What holds of all objects.** What objects have when they are placed, and what lasts, all
objects of a run have. -/
theorem LiveRun.all {Q : Object → Prop} (q : Object.Lasting Q) (r : LiveRun settings disk s) :
    All Q s := by
  induction r with
  | start h =>
    obtain ⟨-, a, hr, hf, hs⟩ := create_new h
    exact ⟨hs.roomy hr, fun v o ho => q.permanent o (hs.permanent hf ho)⟩
  | @turn s t r _ ih =>
    by_cases hc : t.Collects
    · have hsame := (Turn.leave_collect hc s).1
      exact ⟨hsame.roomy ih.1, fun v o ho => ih.2 v o ((hsame.get?_eq v).symm.trans ho)⟩
    · cases t with
      | operation op => exact keeps_operation (stable_all q) op (fun e _ => bears_all q e) s ih
      | collectNow | collectIfDue => exact absurd trivial hc

/-- The members of a class have different names. -/
def Object.MembersOnce : Object → Prop
  | userClass _ members => members.Once
  | _ => True

theorem lasting_membersOnce : Object.Lasting Object.MembersOnce where
  permanent o ho := by
    cases o with
    | userClass => exact ho.elim
    | _ => trivial
  made o ho := by
    cases o with
    | userClass label members =>
      obtain ⟨l, rfl⟩ := ho
      exact Bindings.once_ofList l
    | _ => trivial
  file _ := trivial
  context _ := trivial
  advance o c ho := by
    cases o with
    | userClass => exact ho
    | _ => trivial
  fill o o' ho h := by
    have he : o'.MembersOnce = o.MembersOnce :=
      h.observe_eq (fun _ _ => rfl) (fun _ _ => rfl) fun _ _ => rfl
    exact he.mpr ho
  assign o name w ho := by
    cases o with
    | userClass => exact Bindings.Once.set ho name w
    | _ => trivial
  rebind o o' ho h := by
    have he : o'.MembersOnce = o.MembersOnce := h.observe_eq fun _ _ _ => rfl
    exact he.mpr ho
  restream o o' ho h := by
    have he : o'.MembersOnce = o.MembersOnce := h.observe_eq fun _ _ => rfl
    exact he.mpr ho

theorem LiveRun.members_once (r : LiveRun settings disk s) {cls : Handle} {label : String}
    {members : Bindings} (h : s.heap.get? cls = some (.userClass label members)) : members.Once :=
  (r.all lasting_membersOnce).2 cls _ h

end ObjectSpace
