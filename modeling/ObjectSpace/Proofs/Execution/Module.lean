import ObjectSpace.Proofs.Execution.Steady
import ObjectSpace.Startup

/-!
# Contexts of a program

A program keeps its values in a context, by name and in slots. What storing does to the context is
`Context.bind` and `Context.put`, and a name is read back as long as the context declares nothing
global (`storeName_frame`, `loadName_eq`).

A module context has the standard names besides (`Module`): the built-in functions and types. They
stay, since programs store under other names.
-/

namespace ObjectSpace

/-- A context with a name bound. -/
def Context.bind (c : Context) (name : String) (v : Handle) : Context :=
  { c with names := c.names.set name v }

/-- A context with a slot set. -/
def Context.put (c : Context) (index : Nat) (v : Handle) : Context :=
  { c with
    slots := (c.slots ++ Array.replicate (index + 1 - c.slots.size) none).setIfInBounds index
      (some v) }

namespace Context

variable (c : Context) (name key : String) (index : Nat) (v : Handle)

@[simp] theorem get?_bind : (c.bind name v).names.get? key =
    if key = name then some v else c.names.get? key :=
  c.names.get?_set name key v

theorem get?_bind_self : (c.bind name v).names.get? name = some v := by
  rw [get?_bind, if_pos rfl]

variable {c key} in
theorem get?_bind_of_ne (h : key ≠ name) {w : Handle} (hw : c.names.get? key = some w) :
    (c.bind name v).names.get? key = some w := by
  rw [get?_bind, if_neg h, hw]

@[simp] theorem parent_put : (c.put index v).parent = c.parent := rfl

theorem getElem?_put_self : (c.put index v).slots[index]? = some (some v) := by
  rw [put, Array.getElem?_setIfInBounds_self_of_lt]
  rw [Array.size_append, Array.size_replicate]
  omega

theorem getElem?_put_of_ne {i : Nat} (hi : i ≠ index) (hs : i < c.slots.size) :
    (c.put index v).slots[i]? = c.slots[i]? := by
  rw [put, Array.getElem?_setIfInBounds_ne (Ne.symm hi), Array.getElem?_append_left hs]

theorem mem_children_bind {h : Handle} (hh : h ∈ (c.bind name v).children) :
    h = v ∨ h ∈ c.children := by
  simp only [children, List.mem_append] at hh ⊢
  rcases hh with (hh | hh) | hh
  · exact .inr (.inl (.inl hh))
  · exact (Trust.mem_handles_set hh).imp_right fun hh => .inl (.inr hh)
  · exact .inr (.inr hh)

theorem mem_children_put {h : Handle} (hh : h ∈ (c.put index v).children) :
    h = v ∨ h ∈ c.children := by
  simp only [children, List.mem_append] at hh ⊢
  rcases hh with (hh | hh) | hh
  · rw [List.mem_filterMap] at hh
    obtain ⟨o, ho, rfl⟩ := hh
    rw [put, Array.toList_setIfInBounds] at ho
    rcases List.mem_or_eq_of_mem_set ho with ho | ho
    · rw [Array.toList_append, List.mem_append] at ho
      rcases ho with ho | ho
      · exact .inr (.inl (.inl (List.mem_filterMap.2 ⟨_, ho, rfl⟩)))
      · simp at ho
    · exact .inl (Option.some.inj ho)
  · exact .inr (.inl (.inr hh))
  · exact .inr (.inr hh)

/-- What a name is bound to is kept alive. -/
theorem mem_children_of_get? {name : String} {v : Handle} (h : c.names.get? name = some v) :
    v ∈ c.children :=
  List.mem_append_left _ (List.mem_append_right _
    (List.mem_map_of_mem (f := (·.2)) (Trust.mem_of_lookup h)))

/-- What a slot holds is kept alive. -/
theorem mem_children_of_slot {index : Nat} {v : Handle} (h : c.slots[index]? = some (some v)) :
    v ∈ c.children :=
  List.mem_append_left _ (List.mem_append_left _
    (List.mem_filterMap.2 ⟨some v, Array.mem_toList_iff.2 (Array.mem_of_getElem? h), rfl⟩))

end Context

namespace Space

variable {s s' : Space} {ctx v : Handle} {c : Context} {name : String}

/-! ## Storing and loading -/

theorem context_eq {heap : Heap} (hc : heap.Has ctx (.context c)) :
    Heap.context ctx heap = .ok c :=
  Heap.bind_of_ok (Heap.get_eq_ok.2 hc.2)

/-- Changing a context leaves the other objects. -/
theorem updateContext_frame (i : s.Steady) (hc : s.heap.Has ctx (.context c))
    {f : Context → Context} (hp : (f c).parent = c.parent)
    (hlive : ∀ h ∈ (f c).children, s.heap.isLive h = true) :
    ∃ s', updateContext ctx f s = .ok () s' ∧ Frame [ctx] s s' ∧
      s'.heap.Has ctx (.context (f c)) := by
  rw [updateContext, ask_bind_of_ok (context_eq hc)]
  exact update_frame i hc (.context hp) hlive nofun

theorem store_frame (i : s.Steady) (hc : s.heap.Has ctx (.context c)) (index : Nat)
    (hv : s.heap.isLive v = true) :
    ∃ s', store ctx index v s = .ok () s' ∧ Frame [ctx] s s' ∧
      s'.heap.Has ctx (.context (c.put index v)) := by
  refine updateContext_frame i hc rfl fun h hh => ?_
  rcases c.mem_children_put index v hh with rfl | hh
  · exact hv
  · exact i.children hc h hh

theorem searchStart_eq (hc : s.heap.Has ctx (.context c)) (hg : c.globals = [])
    (globals : Option Handle) : Heap.searchStart globals ctx name s.heap = .ok ctx := by
  show (Heap.context ctx >>= _) s.heap = _
  rw [Heap.bind_of_ok (context_eq hc), hg]
  rfl

theorem storeName_frame (i : s.Steady) (hc : s.heap.Has ctx (.context c)) (hg : c.globals = [])
    (name : String) (hv : s.heap.isLive v = true) :
    ∃ s', storeName ctx name v s = .ok () s' ∧ Frame [ctx] s s' ∧
      s'.heap.Has ctx (.context (c.bind name v)) := by
  rw [storeName, bind_of_ok (get_apply s), ask_bind_of_ok (searchStart_eq hc hg _)]
  refine updateContext_frame i hc rfl fun h hh => ?_
  rcases c.mem_children_bind name v hh with rfl | hh
  · exact hv
  · exact i.children hc h hh

/-- A name of a context is read back. -/
theorem loadName_eq (hc : s.heap.Has ctx (.context c)) (hg : c.globals = [])
    (hv : c.names.get? name = some v) : loadName ctx name s = .ok v s := by
  have hfind : ∀ n, Heap.findNameWithin (n + 1) ctx name s.heap = .ok (some v) := fun n => by
    rw [Heap.findNameWithin, Heap.bind_of_ok (context_eq hc), hv]
    rfl
  rw [loadName, bind_of_ok (get_apply s), ask_bind_of_ok (searchStart_eq hc hg _),
    ask_bind_of_ok (Heap.depth_eq_ok.2 rfl), ask_bind_of_ok (hfind _)]
  rfl

theorem load_eq (hc : s.heap.Has ctx (.context c)) {index : Nat}
    (hv : c.slots[index]? = some (some v)) : Heap.load ctx index s.heap = .ok v := by
  rw [Heap.load, Heap.bind_of_ok (context_eq hc), hv]
  rfl

/-! ## Module contexts -/

/-- The names that every program starts with, its own name and its arguments apart. -/
def standardNames : List String := Builtin.standard.map Builtin.name ++ Kind.named.map Kind.name

/-- A context has the built-in functions and types under their names. -/
structure Module (s : Space) (ctx : Handle) (c : Context) : Prop where
  has : s.heap.Has ctx (.context c)
  globals : c.globals = []
  builtin : ∀ f ∈ Builtin.standard, ∃ h, c.names.get? f.name = some h ∧
    s.heap.Has h (.function f.name (.builtin f f.keywords))
  type : ∀ k ∈ Kind.named, ∃ h, c.names.get? k.name = some h ∧ s.heap.Has h (.type k)

namespace Module

variable {touched : List Handle}

/-- The names stay as they are where the context is not touched. -/
theorem kept (m : Module s ctx c) (f : Moves touched s s') (hc : s'.heap.Has ctx (.context c)) :
    Module s' ctx c where
  has := hc
  globals := m.globals
  builtin g hg := by
    obtain ⟨h, hget, hh⟩ := m.builtin g hg
    exact ⟨h, hget, f.fixed hh fun _ h => h⟩
  type k hk := by
    obtain ⟨h, hget, hh⟩ := m.type k hk
    exact ⟨h, hget, f.fixed hh fun _ h => h⟩

theorem frame (m : Module s ctx c) (f : Frame [] s s') : Module s' ctx c :=
  m.kept f.toMoves (f.keep m.has)

/-- The names stay as they are where an object that is no context is touched. -/
theorem other (m : Module s ctx c) {h : Handle} {o : Object} (f : Frame [h] s s')
    (hh : s.heap.Has h o) (ho : .context c ≠ o) : Module s' ctx c :=
  m.kept f.toMoves (f.other hh m.has ho)

/-- Storing under a name of its own keeps the standard names. -/
theorem storeName (m : Module s ctx c) (i : s.Steady) (name : String)
    (hn : name ∉ standardNames) (hv : s.heap.isLive v = true) :
    ∃ s', storeName ctx name v s = .ok () s' ∧ Frame [ctx] s s' ∧
      Module s' ctx (c.bind name v) := by
  obtain ⟨s', hs', f, hc⟩ := storeName_frame i m.has m.globals name hv
  have hname : ∀ {n h}, n ∈ standardNames → c.names.get? n = some h →
      (c.bind name v).names.get? n = some h := by
    intro n h hmem hget
    have hne : n ≠ name := by
      rintro rfl
      exact hn hmem
    rw [Context.get?_bind, if_neg hne, hget]
  refine ⟨s', hs', f, hc, m.globals, fun g hg => ?_, fun k hk => ?_⟩
  · obtain ⟨h, hget, hh⟩ := m.builtin g hg
    exact ⟨h, hname (List.mem_append_left _ (List.mem_map_of_mem hg)) hget, f.fixed hh fun _ h => h⟩
  · obtain ⟨h, hget, hh⟩ := m.type k hk
    exact ⟨h, hname (List.mem_append_right _ (List.mem_map_of_mem hk)) hget,
      f.fixed hh fun _ h => h⟩

theorem store (m : Module s ctx c) (i : s.Steady) (index : Nat) (hv : s.heap.isLive v = true) :
    ∃ s', store ctx index v s = .ok () s' ∧ Frame [ctx] s s' ∧ Module s' ctx (c.put index v) := by
  obtain ⟨s', hs', f, hc⟩ := store_frame i m.has index hv
  refine ⟨s', hs', f, hc, m.globals, fun g hg => ?_, fun k hk => ?_⟩
  · obtain ⟨h, hget, hh⟩ := m.builtin g hg
    exact ⟨h, hget, f.fixed hh fun _ h => h⟩
  · obtain ⟨h, hget, hh⟩ := m.type k hk
    exact ⟨h, hget, f.fixed hh fun _ h => h⟩

theorem loadName (m : Module s ctx c) (hv : c.names.get? name = some v) :
    loadName ctx name s = .ok v s :=
  loadName_eq m.has m.globals hv

end Module

end Space

end ObjectSpace
