import ObjectSpace.Proofs.Effects.Scopes
import ObjectSpace.Proofs.Execution.Instances
import ObjectSpace.Proofs.Execution.Module
import ObjectSpace.Proofs.Execution.Values
import ObjectSpace.Proofs.Value.Always

/-!
# Names

A name is looked up along a search path: a context and its parents, or the global context and its
parents if the context declares the name global (`SearchPath`).

**Theorem (`names_resolve`).** In a run with contexts a name can be stored from every live context,
and is then loaded from there. From any other context the loading of a name comes to the same as
before, unless it is this name and the context that was written to is on the search path with no
nearer one that binds the name (`Heap.Sees`). No search is endless: the parent of a context was
there before it, so no context is its own ancestor.
-/

namespace ObjectSpace

open Relation (ReflTransGen TransGen)

/-! ## Ancestors -/

/-- What a context is made with. -/
def Object.parents : Object → List Handle
  | context k => k.parent.toList
  | _ => []

theorem Object.settles_parents : Settles parents where
  evolves {o o'} h := by
    cases h.evolution with
    | context hparent => exact congrArg Option.toList hparent
    | _ => rfl
  children {o v} h := by
    cases o with
    | context k => exact List.mem_append_right _ h
    | _ => cases h

namespace Heap

/-- One context is the parent of another. -/
def ChildOf (heap : Heap) : Handle → Handle → Prop := heap.Via Object.parents

/-- The contexts from one outwards: itself, its parent, and so on to one without a parent. -/
inductive Outwards (heap : Heap) : Handle → List Handle → Prop
  | last {c : Handle} {k : Context} :
      heap.Has c (.context k) → k.parent = none → Outwards heap c [c]
  | next {c p : Handle} {k : Context} {l : List Handle} :
      heap.Has c (.context k) → k.parent = some p → Outwards heap p l → Outwards heap c (c :: l)

/-- What a context binds a name to. -/
def binding (heap : Heap) (name : String) (c : Handle) : Option Handle :=
  match heap.get? c with
  | some (.context k) => k.names.get? name
  | _ => none

/-- A context is on a search path, and no nearer one binds the name. -/
inductive Sees (heap : Heap) (name : String) (target : Handle) : List Handle → Prop
  | here {l : List Handle} : Sees heap name target (target :: l)
  | there {c : Handle} {l : List Handle} :
      heap.binding name c = none → Sees heap name target l → Sees heap name target (c :: l)

variable {heap : Heap} {c d g : Handle} {k : Context} {l : List Handle} {n : Nat} {name : String}

theorem binding_eq (h : heap.Has c (.context k)) : heap.binding name c = k.names.get? name := by
  rw [binding, h.2]

theorem Outwards.eq_cons (h : heap.Outwards c l) : ∃ rest, l = c :: rest := by
  cases h with
  | last => exact ⟨[], rfl⟩
  | next => exact ⟨_, rfl⟩

theorem Outwards.findName (h : heap.Outwards c l) (hn : l.length ≤ n) (name : String) :
    findNameWithin n c name heap = .ok (l.findSome? (heap.binding name)) := by
  induction h generalizing n with
  | @last c k hk hp =>
    obtain ⟨n, rfl⟩ : ∃ m, n = m + 1 := ⟨n - 1, by simp at hn; omega⟩
    rw [findNameWithin, Heap.bind_of_ok (Space.context_eq hk), List.findSome?_cons, binding_eq hk]
    cases k.names.get? name with
    | some v => rfl
    | none => simp only [hp]; rfl
  | @next c p k l hk hp _ ih =>
    obtain ⟨n, rfl⟩ : ∃ m, n = m + 1 := ⟨n - 1, by simp at hn; omega⟩
    rw [findNameWithin, Heap.bind_of_ok (Space.context_eq hk), List.findSome?_cons, binding_eq hk]
    cases k.names.get? name with
    | some v => rfl
    | none =>
      simp only [hp]
      exact ih (Nat.le_of_succ_le_succ hn)

theorem Outwards.outermost (h : heap.Outwards c l) (hn : l.length ≤ n) (hg : l.getLast? = some g) :
    outermostWithin n c heap = .ok g ∧ heap.Outwards g [g] := by
  induction h generalizing n with
  | @last c k hk hp =>
    obtain ⟨n, rfl⟩ : ∃ m, n = m + 1 := ⟨n - 1, by simp at hn; omega⟩
    obtain rfl : c = g := by simpa using hg
    refine ⟨?_, .last hk hp⟩
    rw [outermostWithin, Heap.bind_of_ok (Space.context_eq hk)]
    simp only [hp]
    rfl
  | @next c p k l hk hp hl ih =>
    obtain ⟨n, rfl⟩ : ∃ m, n = m + 1 := ⟨n - 1, by simp at hn; omega⟩
    have hlast : l.getLast? = some g := by
      cases hl <;> simpa using hg
    obtain ⟨hfind, hself⟩ := ih (Nat.le_of_succ_le_succ hn) hlast
    refine ⟨?_, hself⟩
    rw [outermostWithin, Heap.bind_of_ok (Space.context_eq hk)]
    simp only [hp]
    exact hfind

/-- Going outwards leads to ancestors only. -/
theorem Outwards.reaches (h : heap.Outwards c l) (hd : d ∈ l) :
    ReflTransGen heap.ChildOf c d ∧ heap.IsContext d := by
  induction h with
  | last hk _ =>
    obtain rfl := List.mem_singleton.1 hd
    exact ⟨.refl, _, hk⟩
  | next hk hp _ ih =>
    rcases List.mem_cons.1 hd with rfl | hd
    · exact ⟨.refl, _, hk⟩
    · obtain ⟨hreach, hd⟩ := ih hd
      exact ⟨.head ⟨_, hk.2, Option.mem_toList.2 hp⟩ hreach, hd⟩

theorem Outwards.nodup (hf : heap.Founded Object.parents) (h : heap.Outwards c l) : l.Nodup := by
  induction h with
  | last => exact List.nodup_singleton _
  | next hk hp hl ih =>
    refine List.nodup_cons.2 ⟨fun hmem => ?_, ih⟩
    exact not_transGen_self (hf _ hk.1)
      (.head' ⟨_, hk.2, Option.mem_toList.2 hp⟩ (hl.reaches hmem).1)

theorem Outwards.length_le (hf : heap.Founded Object.parents) (h : heap.Outwards c l) :
    l.length ≤ heap.capacity := by
  refine heap.length_le_capacity (h.nodup hf) fun d hd => ?_
  obtain ⟨-, k, hk⟩ := h.reaches hd
  exact Arena.isCurrent_iff.2 ⟨_, hk.2⟩

end Heap

namespace Space

variable {s s₁ : Space} {c d g target v : Handle} {k : Context} {l path : List Handle}
  {name m : String} {settings : Settings} {disk : Disk}

/-! ## Search paths -/

/-- The contexts in which a name is looked for, in order: those from a context outwards, or those
from the global context if it declares the name global. -/
inductive SearchPath (s : Space) (c : Handle) (name : String) : List Handle → Prop
  | here {k : Context} {l : List Handle} : s.heap.Has c (.context k) →
      name ∉ k.globals → s.heap.Outwards c l → SearchPath s c name l
  | redirected {g : Handle} {k : Context} {l : List Handle} : s.heap.Has c (.context k) →
      name ∈ k.globals → s.globals = some g → s.heap.Outwards g l → SearchPath s c name l
  /-- Before there is a global context the outermost one stands for it. -/
  | outermost {g : Handle} {k : Context} {l : List Handle} : s.heap.Has c (.context k) →
      name ∈ k.globals → s.globals = none → s.heap.Outwards c l → l.getLast? = some g →
      SearchPath s c name [g]

/-- From every context there is a way outwards. -/
theorem exists_outwards (i : s.Scoped) (hf : s.heap.Founded Object.parents)
    (hc : s.heap.IsContext c) : ∃ l, s.heap.Outwards c l := by
  have hacc : Acc (flip s.heap.ChildOf) c := by
    obtain ⟨k, hk⟩ := hc
    exact hf c hk.1
  induction hacc with
  | intro c _ ih =>
    obtain ⟨k, hk⟩ := hc
    cases hp : k.parent with
    | none => exact ⟨[c], .last hk hp⟩
    | some p =>
      have hchild : s.heap.ChildOf c p := ⟨_, hk.2, Option.mem_toList.2 hp⟩
      obtain ⟨l, hl⟩ := ih p hchild (i.parents c k p hk hp)
      exact ⟨c :: l, .next hk hp hl⟩

theorem exists_searchPath (i : s.Scoped) (hf : s.heap.Founded Object.parents)
    (hc : s.heap.IsContext c) (name : String) : ∃ path, s.SearchPath c name path := by
  obtain ⟨l, hl⟩ := exists_outwards i hf hc
  obtain ⟨k, hk⟩ := hc
  by_cases hname : name ∈ k.globals
  · cases hg : s.globals with
    | none =>
      obtain ⟨g, hlast⟩ : ∃ g, l.getLast? = some g := by
        cases hl with
        | last => exact ⟨_, rfl⟩
        | next => exact ⟨_, List.getLast?_eq_some_getLast (List.cons_ne_nil _ _)⟩
      exact ⟨[g], .outermost hk hname hg hl hlast⟩
    | some g =>
      obtain ⟨l', hl'⟩ := exists_outwards i hf (i.globals g hg)
      exact ⟨l', .redirected hk hname hg hl'⟩
  · exact ⟨l, .here hk hname hl⟩

/-- The search starts with the first context of the path. -/
theorem SearchPath.start (p : s.SearchPath c name path) (hf : s.heap.Founded Object.parents) :
    ∃ start, Heap.searchStart s.globals c name s.heap = .ok start ∧ s.heap.Outwards start path := by
  cases p with
  | @here k l hk hname hl =>
    refine ⟨c, ?_, hl⟩
    show (Heap.context c >>= _) s.heap = _
    rw [Heap.bind_of_ok (context_eq hk), if_neg (by simpa using hname)]
    rfl
  | @redirected g k l hk hname hg hl =>
    refine ⟨g, ?_, hl⟩
    show (Heap.context c >>= _) s.heap = _
    rw [Heap.bind_of_ok (context_eq hk), if_pos (by simpa using hname), hg]
    rfl
  | @outermost g k l hk hname hg hl hlast =>
    obtain ⟨hfind, hself⟩ := hl.outermost (Nat.le_succ_of_le (hl.length_le hf)) hlast
    refine ⟨g, ?_, hself⟩
    show (Heap.context c >>= _) s.heap = _
    rw [Heap.bind_of_ok (context_eq hk), if_pos (by simpa using hname), hg]
    exact hfind

/-- Loading a name gives what the first context on the path has for it that has something. -/
theorem SearchPath.loadName_eq (p : s.SearchPath c name path)
    (hf : s.heap.Founded Object.parents) :
    loadName c name s = match path.findSome? (s.heap.binding name) with
      | some w => .ok w s
      | none => .error (.fatal (.nameNotDefined name)) s := by
  obtain ⟨start, hstart, hl⟩ := p.start hf
  have hdepth : Heap.depth s.heap = .ok (s.heap.capacity + 1) := rfl
  rw [loadName, bind_of_ok (get_apply s), ask_bind_of_ok hstart, ask_bind_of_ok hdepth,
    ask_bind_of_ok (hl.findName (Nat.le_succ_of_le (hl.length_le hf)) name)]
  cases path.findSome? (s.heap.binding name) <;> rfl

/-! ## Storing -/

/-- What storing a name leaves: a context binds it, and the rest is as before. -/
structure Named (target : Handle) (name : String) (v : Handle) (k : Context) (s s' : Space) :
    Prop where
  before : s.heap.Has target (.context k)
  read : ∀ g, s'.heap.get? g =
    if g = target then some (.context { k with names := k.names.set name v }) else s.heap.get? g
  live : ∀ g, s'.heap.isLive g = s.heap.isLive g
  globals : s'.globals = s.globals

theorem named_of_store (hstart : Heap.searchStart s.globals c name s.heap = .ok target)
    (hk : s.heap.Has target (.context k)) (v : Handle) :
    ∃ s', storeName c name v s = .ok () s' ∧ Named target name v k s s' := by
  obtain ⟨f, hstore, hf⟩ : ∃ f : Object → Object, storeName c name v s = update target f s ∧
      f (.context k) = .context { k with names := k.names.set name v } := by
    rw [storeName, bind_of_ok (get_apply s), ask_bind_of_ok hstart, updateContext,
      ask_bind_of_ok (context_eq hk)]
    exact ⟨_, rfl, rfl⟩
  refine ⟨_, hstore.trans (Trust.update_eq hk.2 f), hk, fun g => ?_,
    Arena.isLive_modify hk.2 f, rfl⟩
  rw [← hf]
  exact Arena.get?_modify hk.2 f g

namespace Named

variable (a : Named target name v k s s₁)

include a

/-- Contexts stay, with the same parents and the same names declared global. -/
theorem context {x : Context} (hc : s.heap.Has c (.context x)) :
    ∃ x', s₁.heap.Has c (.context x') ∧ x'.parent = x.parent ∧ x'.globals = x.globals := by
  by_cases he : c = target
  · subst he
    obtain rfl := Object.context.inj (hc.unique a.before)
    exact ⟨_, ⟨(a.live c).trans hc.1, (a.read c).trans (if_pos rfl)⟩, rfl, rfl⟩
  · exact ⟨x, ⟨(a.live c).trans hc.1, (a.read c).trans ((if_neg he).trans hc.2)⟩, rfl, rfl⟩

theorem binding (m : String) (d : Handle) : s₁.heap.binding m d =
    if d = target ∧ m = name then some v else s.heap.binding m d := by
  by_cases he : d = target
  · subst he
    have hnow : s₁.heap.Has d (.context { k with names := k.names.set name v }) :=
      ⟨(a.live d).trans a.before.1, (a.read d).trans (if_pos rfl)⟩
    rw [Heap.binding_eq hnow, Heap.binding_eq a.before, Bindings.get?_set]
    simp
  · rw [Heap.binding, a.read, if_neg he, if_neg (fun h => he h.1)]
    rfl

theorem outwards (h : s.heap.Outwards c l) : s₁.heap.Outwards c l := by
  induction h with
  | last hk hp =>
    obtain ⟨k', hk', hparent, -⟩ := a.context hk
    exact .last hk' (hparent.trans hp)
  | next hk hp _ ih =>
    obtain ⟨k', hk', hparent, -⟩ := a.context hk
    exact .next hk' (hparent.trans hp) ih

theorem searchPath (p : s.SearchPath c m path) : s₁.SearchPath c m path := by
  cases p with
  | here hk hname hl =>
    obtain ⟨k', hk', -, hglobals⟩ := a.context hk
    exact .here hk' (hglobals ▸ hname) (a.outwards hl)
  | redirected hk hname hg hl =>
    obtain ⟨k', hk', -, hglobals⟩ := a.context hk
    exact .redirected hk' (hglobals ▸ hname) (a.globals.trans hg) (a.outwards hl)
  | outermost hk hname hg hl hlast =>
    obtain ⟨k', hk', -, hglobals⟩ := a.context hk
    exact .outermost hk' (hglobals ▸ hname) (a.globals.trans hg) (a.outwards hl) hlast

/-- Where the context that was written to is seen, what was stored is found. -/
theorem findSome?_of_sees (h : s.heap.Sees name target path) :
    path.findSome? (s₁.heap.binding name) = some v := by
  induction h with
  | here => rw [List.findSome?_cons, a.binding, if_pos ⟨rfl, rfl⟩]
  | @there d l hd _ ih =>
    rw [List.findSome?_cons, a.binding]
    by_cases he : d = target
    · rw [if_pos ⟨he, rfl⟩]
    · rw [if_neg fun h => he h.1, hd]
      exact ih

/-- Where it is not, the search finds what it did. -/
theorem findSome?_of_not_sees (h : ¬ (m = name ∧ s.heap.Sees name target path)) :
    path.findSome? (s₁.heap.binding m) = path.findSome? (s.heap.binding m) := by
  by_cases hm : m = name
  · subst hm
    have hsees : ¬ s.heap.Sees m target path := fun hs => h ⟨rfl, hs⟩
    clear h
    induction path with
    | nil => rfl
    | cons d rest ih =>
      have he : d ≠ target := by
        rintro rfl
        exact hsees .here
      rw [List.findSome?_cons, List.findSome?_cons, a.binding, if_neg fun h => he h.1]
      cases hd : s.heap.binding m d with
      | some w => rfl
      | none => exact ih fun hs => hsees (.there hd hs)
  · have hsame : s₁.heap.binding m = s.heap.binding m := by
      funext d
      rw [a.binding, if_neg fun h => hm h.2]
    rw [hsame]

end Named

end Space

open Space

variable {settings : Settings} {disk : Disk} {s : Space} {c v : Handle}

/-- **Names resolve.** Storing a name from a context writes to the first context on its search path.
From there it is loaded, and from everywhere else where that context is the nearest one on the
search path that binds the name. Nothing else is loaded differently, and no search is endless. -/
theorem names_resolve (r : ScopedRun settings disk s) (hc : s.heap.IsContext c)
    (hv : s.heap.isLive v = true) (name : String) :
    ∃ target rest s₁, s.SearchPath c name (target :: rest) ∧ storeName c name v s = .ok () s₁ ∧
      loadName c name s₁ = .ok v s₁ ∧
      ∀ c', s.heap.IsContext c' → ¬ TransGen s.heap.ChildOf c' c' ∧
        ∀ m, (∃ path, s.SearchPath c' m path) ∧ ∀ path, s.SearchPath c' m path →
          (m = name ∧ s.heap.Sees name target path → loadName c' m s₁ = .ok v s₁) ∧
          (¬ (m = name ∧ s.heap.Sees name target path) →
            (∃ w, loadName c' m s = .ok w s ∧ loadName c' m s₁ = .ok w s₁) ∨
            loadName c' m s = .error (.fatal (.nameNotDefined m)) s ∧
              loadName c' m s₁ = .error (.fatal (.nameNotDefined m)) s₁) := by
  have i := r.scoped
  have hf := r.live.founded Object.settles_parents
  obtain ⟨path, hpath⟩ := exists_searchPath i hf hc name
  obtain ⟨target, hstart, hout⟩ := hpath.start hf
  obtain ⟨rest, rfl⟩ := hout.eq_cons
  obtain ⟨-, k, hk⟩ := hout.reaches List.mem_cons_self
  obtain ⟨s₁, hstore, a⟩ := named_of_store hstart hk v
  have hclive : s.heap.isLive c = true := hc.elim fun _ hk => hk.1
  have hf₁ : s₁.heap.Founded Object.parents := by
    have r₁ := r.live.turn (.operation (.storeName c name v)) (by
      simp [Turn.handles, Operation.handles, hclive, hv])
    rw [leave_of_ok (.storeName c name v) rfl hstore] at r₁
    exact r₁.founded Object.settles_parents
  refine ⟨target, rest, s₁, hpath, hstore, ?_, fun c' hc' => ⟨?_, fun m => ⟨?_, fun path p => ?_⟩⟩⟩
  · rw [(a.searchPath hpath).loadName_eq hf₁, a.findSome?_of_sees .here]
  · obtain ⟨k', hk'⟩ := hc'
    exact not_transGen_self (hf c' hk'.1)
  · exact exists_searchPath i hf hc' m
  · have hload := p.loadName_eq hf
    have hload₁ := (a.searchPath p).loadName_eq hf₁
    refine ⟨fun hsees => ?_, fun hsees => ?_⟩
    · obtain ⟨rfl, hsees⟩ := hsees
      rw [hload₁, a.findSome?_of_sees hsees]
    · rw [a.findSome?_of_not_sees hsees] at hload₁
      cases hfound : path.findSome? (s.heap.binding m) with
      | some w =>
        rw [hfound] at hload hload₁
        exact .inl ⟨w, hload, hload₁⟩
      | none =>
        rw [hfound] at hload hload₁
        exact .inr ⟨hload, hload₁⟩

/-- A name that is stored from a module context is loaded from a context within it. -/
theorem names_resolve_inner :
    ∃ s ctx inner five s₁, ScopedRun {} {} s ∧
      s.heap.Has inner (.context { slots := #[], parent := some ctx }) ∧
      s.heap.Has five (.int 5) ∧ storeName ctx "x" five s = .ok () s₁ ∧
      loadName inner "x" s₁ = .ok five s₁ := by
  obtain ⟨s₀, h₀⟩ := create_ok {} rfl {}
  obtain ⟨ctx, s₁, h₁, f₁, hctx⟩ := alloc_frame (create_steady h₀)
    (o := .context { slots := #[], parent := none }) trivial nofun nofun
  have r₁ : ScopedRun {} {} s₁ := leave_of_ok (.newContext none 0) rfl h₁ ▸
    .turn (.operation (.newContext none 0)) (.start h₀) nofun nofun
  obtain ⟨inner, s₂, h₂, -, f₂, hinner⟩ := newContext_frame f₁.steady hctx.1 0
  have r₂ : ScopedRun {} {} s₂ := leave_of_ok (.newContext (some ctx) 0) rfl h₂ ▸
    .turn (.operation (.newContext (some ctx) 0)) r₁ (List.forall_mem_singleton.2 hctx.1)
      (List.forall_mem_singleton.2 ⟨_, hctx⟩)
  obtain ⟨five, s, h₃, -, f₃, hfive⟩ := makes_newInt f₂.steady 5
  have r : ScopedRun {} {} s := leave_of_ok (.newInt 5) rfl h₃ ▸
    .turn (.operation (.newInt 5)) r₂ nofun nofun
  have hctx := f₃.keep (f₂.keep hctx)
  have hinner := f₃.keep hinner
  obtain ⟨target, rest, s', hpath, hstore, -, hload⟩ :=
    names_resolve r ⟨_, hctx⟩ hfive.1 "x"
  obtain rfl : target = ctx := by
    cases hpath with
    | here _ _ hl =>
      obtain ⟨_, he⟩ := hl.eq_cons
      exact (List.cons.inj he).1
    | redirected hk hname | outermost hk hname =>
      obtain rfl := Object.context.inj (hk.unique hctx)
      cases hname
  have hinner' : s.heap.binding "x" inner = none := Heap.binding_eq hinner
  have hp : s.SearchPath inner "x" [inner, target] :=
    .here hinner (by simp) (.next hinner rfl (.last hctx rfl))
  exact ⟨s, target, inner, five, s', r, hinner, hfive, hstore,
    (((hload inner ⟨_, hinner⟩).2 "x").2 _ hp).1 ⟨rfl, .there hinner' .here⟩⟩

end ObjectSpace
