import ObjectSpace.Programs
import ObjectSpace.Proofs.Execution.Module
import ObjectSpace.Proofs.Execution.Numbers

/-!
# Hooks

At a hook a program may lose what it holds. All it can rely on is what a collection marks: the
objects that can be reached from the permanent ones and from the context that runs (`Spared`). A
hook that promises no more than that is `Safe`, whatever it does to the other objects and their
slots.

**Theorem (`collectWhen_safe`).** A hook that runs a collection wherever a test of the space says so
is safe. The safe point of the programs is such a hook (`safePoint_eq`).
-/

namespace ObjectSpace

namespace Space

variable {s s' : Space} {ctx here v : Handle} {c : Context} {o : Object} {name : String}
  {index : Nat}

/-- What a hook in the context `here` leaves of a space. -/
structure Spared (here : Handle) (s s' : Space) : Prop where
  steady : s'.Steady
  has : ∀ v o, s.heap.Reaches (s.roots here none) v → s.heap.Has v o → s'.heap.Has v o
  output : s'.output = s.output
  disk : s'.disk = s.disk
  roots : ∀ g ∈ s.permanentRoots, g ∈ s'.permanentRoots
  writers : s.heap.Writers [] → s'.heap.Writers []

end Space

/-- A hook keeps at least what a collection marks. -/
def Hook.Safe (hook : Hook) : Prop :=
  ∀ here s, s.Steady → s.heap.isLive here = true →
    ∃ s', hook here s = .ok () s' ∧ Space.Spared here s s'

namespace Space

variable {s s' : Space} {ctx here v : Handle} {c : Context} {o : Object} {name : String}
  {index : Nat}

/-! ## What is kept -/

theorem reaches_permanent (h : v ∈ s.permanentRoots) : s.heap.Reaches (s.roots here none) v :=
  .root (List.mem_append_left _ h)

theorem reaches_here : s.heap.Reaches (s.roots here none) here :=
  .root (mem_roots_ctx s here none)

/-- What a context that is kept binds to a name is kept. -/
theorem reaches_name (r : s.heap.Reaches (s.roots here none) ctx)
    (hc : s.heap.Has ctx (.context c)) (hv : c.names.get? name = some v) :
    s.heap.Reaches (s.roots here none) v :=
  .child r hc.2 (c.mem_children_of_get? hv)

/-- What a context that is kept has in a slot is kept. -/
theorem reaches_slot (r : s.heap.Reaches (s.roots here none) ctx)
    (hc : s.heap.Has ctx (.context c)) (hv : c.slots[index]? = some (some v)) :
    s.heap.Reaches (s.roots here none) v :=
  .child r hc.2 (c.mem_children_of_slot hv)

namespace Spared

variable (p : Spared here s s')

include p

theorem permanent (h : v ∈ s.permanentRoots) (hv : s.heap.Has v o) : s'.heap.Has v o :=
  p.has v o (reaches_permanent h) hv

theorem self (hv : s.heap.Has here o) : s'.heap.Has here o :=
  p.has here o reaches_here hv

/-- A module context that is kept has its names still. -/
theorem module (m : Module s ctx c) (r : s.heap.Reaches (s.roots here none) ctx) :
    Module s' ctx c where
  has := p.has ctx _ r m.has
  globals := m.globals
  builtin f hf := by
    obtain ⟨h, hget, hh⟩ := m.builtin f hf
    exact ⟨h, hget, p.has h _ (reaches_name r m.has hget) hh⟩
  type k hk := by
    obtain ⟨h, hget, hh⟩ := m.type k hk
    exact ⟨h, hget, p.has h _ (reaches_name r m.has hget) hh⟩

end Spared

/-! ## Collections -/

/-- Clearing liveness bits makes nothing open for writing. -/
theorem writers_of_same (hsame : Arena.SameObjects s.heap s'.heap) (hw : s.heap.Writers []) :
    s'.heap.Writers [] := by
  intro k j x u hx hu huw
  exfalso
  have he := hsame.cells_eq k j
  rw [hx, Option.map_some, eq_comm, Option.map_eq_some_iff] at he
  obtain ⟨y, hy, hxy⟩ := he
  obtain ⟨h, hh, -⟩ := hw k j y u hy ((Prod.mk.inj hxy).2.trans hu) huw
  cases hh

theorem Spared.refl (i : s.Steady) : Spared here s s :=
  ⟨i, fun _ _ _ h => h, rfl, rfl, fun _ h => h, id⟩

/-- A collection keeps what it marks. -/
theorem Collected.spared (i : s.Steady) (hh : s.heap.isLive here = true)
    (hc : Collected s here none s') : Spared here s s' where
  steady := hc.steady i (List.forall_mem_singleton.2 hh)
  has v o r hv := ⟨(hc.live_iff v).2 r, (hc.same.get?_eq v).trans hv.2⟩
  output := by rw [hc.rest]
  disk := by rw [hc.rest]
  roots g hg := by
    rw [hc.rest]
    exact hg
  writers := writers_of_same hc.same

/-- The hook that runs a collection wherever a test of the space says so. -/
def collectWhen (due : Space → Bool) : Hook := fun ctx => do
  if due (← get) then collectNow ctx none

/-- **Collections as hooks.** Whether the collector runs or not, what it would mark is kept. -/
theorem collectWhen_safe (due : Space → Bool) : (collectWhen due).Safe := by
  intro here s i hh
  by_cases hdue : due s = true
  · have hlive : ∀ h ∈ here :: (none : Option Handle).toList, s.heap.isLive h = true :=
      List.forall_mem_singleton.2 hh
    obtain ⟨s', hs', hc⟩ := i.ordered.sound.collects hlive
    refine ⟨s', ?_, Collected.spared i hh hc⟩
    rw [collectWhen, bind_of_ok (get_apply s), if_pos hdue, hs']
  · refine ⟨s, ?_, .refl i⟩
    rw [collectWhen, bind_of_ok (get_apply s), if_neg hdue]
    rfl

/-- The safe point of programs runs a collection once enough was allocated. -/
theorem safePoint_eq :
    Program.safePoint = collectWhen fun s => decide (s.threshold ≤ s.pending) := by
  funext ctx s
  have hdue := collectIfDue_eq ctx none s
  rw [Program.safePoint, collectWhen, bind_of_ok (get_apply s)]
  by_cases hp : s.pending < s.threshold
  · rw [if_pos hp] at hdue
    rw [bind_of_ok hdue, if_neg (by simpa using hp)]
  · rw [if_neg hp] at hdue
    rw [if_pos (by simpa using hp)]
    rcases hc : collectNow ctx none s with s' | e
    · rw [hc] at hdue
      exact bind_of_ok hdue
    · rw [hc] at hdue
      exact bind_of_error hdue

theorem safePoint_safe : Hook.Safe Program.safePoint := by
  rw [safePoint_eq]
  exact collectWhen_safe _

end Space

end ObjectSpace

/-!
## Loops with hooks

A loop keeps its iterator in a slot of the module context, so that the iterator, and through it what
it runs over, outlives the hook in every round (`Looping.hook`). The same is said of texts in lists
and of numbers in dicts that can be reached (`Spared.areTexts`, `Spared.numbers`).
-/

namespace ObjectSpace.Space

variable {s s' : Space} {ctx here it d l v : Handle} {c : Context} {cursor cursor' : Cursor}
  {items : Array Handle} {texts : List String} {text : String} {t : Table (Handle × Handle)}
  {count : String → Option Int64}

/-! ### Values that outlive a hook -/

/-- A permanent value that does not change. -/
structure Lasting (s : Space) (v : Handle) (o : Object) : Prop where
  has : s.heap.Has v o
  root : v ∈ s.permanentRoots
  fixed : o.Fixed

namespace Lasting

variable {o : Object} (h : Lasting s v o)

include h

theorem moves {touched : List Handle} (f : Moves touched s s') : Lasting s' v o :=
  ⟨f.fixed h.has h.fixed, f.roots v h.root, h.fixed⟩

theorem spared (p : Spared here s s') : Lasting s' v o :=
  ⟨p.permanent h.root h.has, p.roots v h.root, h.fixed⟩

theorem say (text : String) : Lasting (s.say text) v o := ⟨h.has, h.root, h.fixed⟩

end Lasting

namespace Spared

variable (p : Spared here s s')

include p

theorem isText (r : s.heap.Reaches (s.roots here none) v) (h : IsText s.heap v text) :
    IsText s'.heap v text := by
  obtain ⟨hash?, h⟩ := h
  exact ⟨hash?, p.has v _ r h⟩

/-- The texts in a list that is kept are kept. -/
theorem areTexts (r : s.heap.Reaches (s.roots here none) l) (hl : s.heap.Has l (.list items))
    (h : AreTexts s.heap items.toList texts) : AreTexts s'.heap items.toList texts := by
  rw [AreTexts, List.forall₂_iff_zip] at h ⊢
  refine ⟨h.1, fun {v text} hm => ?_⟩
  exact p.isText (.child r hl.2 (List.of_mem_zip hm).1) (h.2 hm)

/-- The entries in a list that is kept are kept. -/
theorem entries {es : List (String × Int64)} (r : s.heap.Reaches (s.roots here none) l)
    (hl : s.heap.Has l (.list items)) (h : List.Forall₂ (IsEntry s.heap) items.toList es) :
    List.Forall₂ (IsEntry s'.heap) items.toList es := by
  rw [List.forall₂_iff_zip] at h ⊢
  refine ⟨h.1, fun {v e} hm => ?_⟩
  obtain ⟨a, b, hv, ha, hb⟩ := h.2 hm
  have rv := r.child hl.2 (List.of_mem_zip hm).1
  exact ⟨a, b, p.has v _ rv hv, p.isText (rv.child hv.2 (by simp [Object.children])) ha,
    p.has b _ (rv.child hv.2 (by simp [Object.children])) hb⟩

/-- The numbers in a dict that is kept are kept. -/
theorem numbers (r : s.heap.Reaches (s.roots here none) d) (hd : s.heap.Has d (.dict t))
    (h : Numbers s.heap t count) : Numbers s'.heap t count := by
  have hreach : ∀ e ∈ t.toList, s.heap.Reaches (s.roots here none) e.1 ∧
      s.heap.Reaches (s.roots here none) e.2 := by
    intro e he
    have hmem : ∀ v ∈ [e.1, e.2], v ∈ (Object.dict t).children := by
      intro v hv
      exact List.mem_flatMap.2 ⟨e, he, hv⟩
    exact ⟨.child r hd.2 (hmem _ (by simp)), .child r hd.2 (hmem _ (by simp))⟩
  refine ⟨fun e he => ?_, fun text n hn => ?_⟩
  · obtain ⟨text, n, htext, hint, hn⟩ := h.entry e he
    exact ⟨text, n, p.isText (hreach e he).1 htext, p.has _ _ (hreach e he).2 hint, hn⟩
  · obtain ⟨e, he, htext⟩ := h.found text n hn
    exact ⟨e, he, p.isText (hreach e he).1 htext⟩

end Spared

/-! ### The state of a loop -/

/-- Between the rounds of a loop its iterator is in slot 0 of the module context. -/
structure Looping (ctx it : Handle) (cursor : Cursor) (c : Context) (s : Space) : Prop where
  steady : s.Steady
  module : Module s ctx c
  slot : c.slots[0]? = some (some it)
  iterator : s.heap.Has it (.iter cursor)

/-- Putting an iterator in slot 0 starts a loop. -/
theorem Module.loop (m : Module s ctx c) (i : s.Steady) (hit : s.heap.Has it (.iter cursor)) :
    ∃ s', Space.store ctx 0 it s = .ok () s' ∧ Frame [ctx] s s' ∧
      Looping ctx it cursor (c.put 0 it) s' := by
  obtain ⟨s', hs', f, m'⟩ := m.store i 0 hit.1
  exact ⟨s', hs', f, f.steady, m', c.getElem?_put_self 0 it, f.other m.has hit nofun⟩

namespace Looping

variable (L : Looping ctx it cursor c s)

include L

theorem load : Heap.load ctx 0 s.heap = .ok it := load_eq L.module.has L.slot

theorem frame (f : Frame [] s s') : Looping ctx it cursor c s' :=
  ⟨f.steady, L.module.frame f, L.slot, f.keep L.iterator⟩

/-- A loop goes on where an object is touched that is neither the context nor the iterator. -/
theorem other {o : Object} (f : Frame [v] s s') (hv : s.heap.Has v o) (hc : .context c ≠ o)
    (hit : .iter cursor ≠ o) : Looping ctx it cursor c s' :=
  ⟨f.steady, L.module.other f hv hc, L.slot, f.other hv L.iterator hit⟩

theorem advance (f : Frame [it] s s') (hit : s'.heap.Has it (.iter cursor')) :
    Looping ctx it cursor' c s' :=
  ⟨f.steady, L.module.other f L.iterator nofun, L.slot, hit⟩

theorem storeName (name : String) (hn : name ∉ standardNames) (hv : s.heap.isLive v = true) :
    ∃ s', storeName ctx name v s = .ok () s' ∧ Frame [ctx] s s' ∧
      Looping ctx it cursor (c.bind name v) s' := by
  obtain ⟨s', hs', f, m⟩ := L.module.storeName L.steady name hn hv
  exact ⟨s', hs', f, f.steady, m, L.slot, f.other L.module.has L.iterator nofun⟩

theorem say (text : String) : Looping ctx it cursor c (s.say text) :=
  ⟨L.steady.say text, L.module.say text, L.slot, L.iterator⟩

/-- The iterator outlives a hook. -/
theorem reaches : s.heap.Reaches (s.roots ctx none) it :=
  reaches_slot reaches_here L.module.has L.slot

theorem hook {hook : Hook} (h : hook.Safe) :
    ∃ s', hook ctx s = .ok () s' ∧ Spared ctx s s' ∧ Looping ctx it cursor c s' := by
  obtain ⟨s', hs', p⟩ := h ctx s L.steady L.module.has.1
  exact ⟨s', hs', p, p.steady, p.module L.module reaches_here, L.slot,
    p.has it _ L.reaches L.iterator⟩

end Looping

end ObjectSpace.Space
