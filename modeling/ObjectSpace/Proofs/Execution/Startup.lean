import ObjectSpace.Programs
import ObjectSpace.Proofs.Execution.Module

/-!
# The start of a program

**Theorem (`execute_started`).** A program starts in a module context with the standard names, the
name of its module and its arguments, whatever the settings are. Binding one name after the other
keeps those that were bound before, since all names are different (`bindAll`).
-/

namespace ObjectSpace.Space

variable {s s' : Space} {ctx v : Handle} {c : Context}

/-! ## New values -/

section Values

variable (i : s.Steady)

include i

theorem newInt_frame (n : Int64) :
    ∃ h s', newInt n s = .ok h s' ∧ Frame [] s s' ∧ s'.heap.Has h (.int n) :=
  alloc_frame i trivial nofun nofun

theorem newStr_frame (text : String) :
    ∃ h s', newStr text s = .ok h s' ∧ Frame [] s s' ∧ s'.heap.Has h (.str text none) :=
  alloc_frame i trivial nofun nofun

theorem newList_frame {items : Array Handle} (h : ∀ x ∈ items.toList, s.heap.isLive x = true) :
    ∃ l s', newList items s = .ok l s' ∧ Frame [] s s' ∧ s'.heap.Has l (.list items) :=
  alloc_frame i trivial h nofun

theorem newTuple_frame {items : Array Handle} (h : ∀ x ∈ items.toList, s.heap.isLive x = true) :
    ∃ l s', newTuple items s = .ok l s' ∧ Frame [] s s' ∧ s'.heap.Has l (.tuple items) :=
  alloc_frame i trivial h nofun

end Values

/-- A value is a text. -/
def IsText (heap : Heap) (v : Handle) (text : String) : Prop :=
  ∃ hash?, heap.Has v (.str text hash?)

theorem IsText.live {heap : Heap} {text : String} (h : IsText heap v text) :
    heap.isLive v = true := by
  obtain ⟨_, h⟩ := h
  exact h.1

theorem Moves.isText {touched : List Handle} (f : Moves touched s s') {text : String}
    (h : IsText s.heap v text) : IsText s'.heap v text := by
  obtain ⟨hash?, h⟩ := h
  exact ⟨hash?, f.fixed h fun _ h => h⟩

/-- Values are texts, one by one. -/
abbrev AreTexts (heap : Heap) (l : List Handle) (texts : List String) : Prop :=
  List.Forall₂ (IsText heap) l texts

theorem Moves.areTexts {touched : List Handle} (f : Moves touched s s') {l : List Handle}
    {texts : List String} (h : AreTexts s.heap l texts) : AreTexts s'.heap l texts :=
  h.imp fun _ _ => f.isText

theorem live_of_forall₂ {heap : Heap} {α : Type} {r : Handle → α → Prop} {l : List Handle}
    {as : List α} (hr : ∀ v a, r v a → heap.isLive v = true) (h : List.Forall₂ r l as) :
    ∀ v ∈ l, heap.isLive v = true := by
  induction h with
  | nil => exact List.forall_mem_nil _
  | cons hv _ ih => exact List.forall_mem_cons.2 ⟨hr _ _ hv, ih⟩

theorem AreTexts.live {heap : Heap} {l : List Handle} {texts : List String}
    (h : AreTexts heap l texts) : ∀ v ∈ l, heap.isLive v = true :=
  live_of_forall₂ (fun _ _ => IsText.live) h

/-- Values that are made one after the other, each as `r` says for as long as nothing is touched. -/
theorem mapM_frame {α : Type} {act : α → Action Handle} {r : Heap → Handle → α → Prop}
    (hact : ∀ a s, s.Steady → ∃ v s', act a s = .ok v s' ∧ Frame [] s s' ∧ r s'.heap v a)
    (hkeep : ∀ s s' v a, Frame [] s s' → r s.heap v a → r s'.heap v a) (as : List α)
    (i : s.Steady) :
    ∃ l s', as.mapM act s = .ok l s' ∧ Frame [] s s' ∧ List.Forall₂ (r s'.heap) l as := by
  induction as generalizing s with
  | nil =>
    rw [List.mapM_nil]
    exact ⟨[], s, rfl, .refl i, .nil⟩
  | cons a as ih =>
    obtain ⟨v, s₁, h₁, f₁, hv⟩ := hact a s i
    obtain ⟨l, s₂, h₂, f₂, hl⟩ := ih f₁.steady
    refine ⟨v :: l, s₂, ?_, f₁.again f₂, .cons (hkeep s₁ s₂ v a f₂ hv) hl⟩
    rw [List.mapM_cons, bind_of_ok h₁, bind_of_ok h₂]
    rfl

/-- New texts, one after the other. -/
theorem newTexts_frame (i : s.Steady) (texts : List String) :
    ∃ l s', texts.mapM newStr s = .ok l s' ∧ Frame [] s s' ∧ AreTexts s'.heap l texts := by
  refine mapM_frame (fun text s i => ?_) (fun _ _ _ _ f => f.isText) texts i
  obtain ⟨v, s', hs', f, hv⟩ := newStr_frame i text
  exact ⟨v, s', hs', f, none, hv⟩

/-- Permanent integers, one after the other. -/
theorem internInts_frame (i : s.Steady) (ns : List Int64) :
    ∃ l s', ns.mapM internInt s = .ok l s' ∧ Frame [] s s' ∧
      List.Forall₂ (fun v n => s'.heap.Has v (.int n)) l ns := by
  refine mapM_frame (r := fun heap v n => heap.Has v (.int n)) (fun n s i => ?_)
    (fun _ _ _ _ f => f.keep) ns i
  obtain ⟨v, s', hs', f, hv, -⟩ := internInt_frame i n
  exact ⟨v, s', hs', f, hv⟩

/-! ## Binding the standard names -/

/-- Names are bound one after the other, each to a new value or a permanent one. -/
theorem bindAll {α : Type} (act : α → Action Unit) (name : α → String) (object : α → Object)
    (hfixed : ∀ x, (object x).Fixed)
    (hact : ∀ x s c, s.Steady → s.heap.Has ctx (.context c) → c.globals = [] →
      ∃ h s', act x s = .ok () s' ∧ Frame [ctx] s s' ∧
        s'.heap.Has ctx (.context (c.bind (name x) h)) ∧ s'.heap.Has h (object x))
    {l : List α} (hl : (l.map name).Nodup) (i : s.Steady) (hc : s.heap.Has ctx (.context c))
    (hg : c.globals = []) :
    ∃ s' c', l.forM act s = .ok () s' ∧ Frame [ctx] s s' ∧ s'.heap.Has ctx (.context c') ∧
      c'.globals = [] ∧ c'.slots = c.slots ∧
      (∀ n, n ∉ l.map name → c'.names.get? n = c.names.get? n) ∧
      ∀ x ∈ l, ∃ h, c'.names.get? (name x) = some h ∧ s'.heap.Has h (object x) := by
  induction l generalizing s c with
  | nil => exact ⟨s, c, rfl, .refl i, hc, hg, rfl, fun _ _ => rfl, List.forall_mem_nil _⟩
  | cons x l ih =>
    rw [List.map_cons, List.nodup_cons] at hl
    obtain ⟨h, s₁, h₁, f₁, hc₁, hh⟩ := hact x s c i hc hg
    obtain ⟨s', c', h', f', hc', hg', hslots, hother, hbound⟩ := ih hl.2 f₁.steady hc₁ hg
    refine ⟨s', c', ?_, f₁.again f', hc', hg', hslots, fun n hn => ?_,
      List.forall_mem_cons.2 ⟨⟨h, ?_, f'.fixed hh (hfixed x)⟩, hbound⟩⟩
    · show (act x >>= fun _ => l.forM act) s = _
      rw [bind_of_ok h₁, h']
    · rw [List.map_cons, List.mem_cons, not_or] at hn
      rw [hother n hn.2, Context.get?_bind, if_neg hn.1]
    · rw [hother _ hl.1, Context.get?_bind, if_pos rfl]

theorem bindFunction_frame (f : Builtin) (i : s.Steady) (hc : s.heap.Has ctx (.context c))
    (hg : c.globals = []) :
    ∃ h s', bindFunction ctx f.name f f.keywords s = .ok () s' ∧ Frame [ctx] s s' ∧
      s'.heap.Has ctx (.context (c.bind f.name h)) ∧
      s'.heap.Has h (.function f.name (.builtin f f.keywords)) := by
  obtain ⟨h, s₁, h₁, f₁, hh⟩ :=
    alloc_frame i (o := .function f.name (.builtin f f.keywords)) trivial nofun nofun
  obtain ⟨s₂, h₂, f₂, hc₂⟩ := storeName_frame f₁.steady (f₁.keep hc) hg f.name hh.1
  refine ⟨h, s₂, ?_, f₁.trans f₂, hc₂, f₂.fixed hh fun _ h => h⟩
  rw [bindFunction, bind_of_ok h₁, h₂]

theorem bindType_frame (k : Kind) (i : s.Steady) (hc : s.heap.Has ctx (.context c))
    (hg : c.globals = []) :
    ∃ h s', bindType ctx k s = .ok () s' ∧ Frame [ctx] s s' ∧
      s'.heap.Has ctx (.context (c.bind k.name h)) ∧ s'.heap.Has h (.type k) := by
  have ht : s.heap.Has (s.types.get k.index) (.type k) := by
    have hk := i.types k.index
    rwa [show Kind.all.get k.index = k from Kind.all_index k] at hk
  obtain ⟨s', hs', f, hc'⟩ := storeName_frame i hc hg k.name ht.1
  refine ⟨_, s', ?_, f, hc', f.fixed ht fun _ h => h⟩
  have hload : typeObject k s = .ok (s.types.get k.index) s := rfl
  rw [bindType, bind_of_ok hload, hs']

/-! ## A program that starts -/

/-- The module context of a program that starts, with its name and its arguments. -/
structure Started (moduleName : String) (disk : Disk) (argv : List String) (slots : Nat)
    (s : Space) (ctx : Handle) (c : Context) : Prop where
  steady : s.Steady
  module : Module s ctx c
  slots_eq : c.slots = Array.replicate slots none
  globals : s.globals = some ctx
  output : s.output = ""
  disk_eq : s.disk = disk
  writers : s.heap.Writers []
  moduleName : ∃ v, c.names.get? "__name__" = some v ∧ IsText s.heap v moduleName
  arguments : ∃ v items, c.names.get? "__args__" = some v ∧ s.heap.Has v (.list items) ∧
    AreTexts s.heap items.toList argv

/-- In a new space nothing is open for writing. -/
theorem create_writers {settings : Settings} {disk : Disk}
    (h : create settings disk = .ok s) : s.heap.Writers [] := by
  obtain ⟨-, a, -, hf, hs⟩ := create_new h
  have key : ∀ b, Heap.Sown Object.Permanent a b → b.Writers [] := by
    intro b hb
    induction hb with
    | refl =>
      intro d i x o hx hv
      rw [hf d i x hx] at hv
      cases hv
    | place _ ho p ih =>
      refine (ih.placed p).drop p.has_self ?_
      rintro ⟨f, w, rfl, -⟩
      exact ho
  exact key _ hs

theorem create_steady {settings : Settings} {disk : Disk}
    (h : create settings disk = .ok s) : s.Steady := by
  obtain ⟨n, -⟩ := create_new h
  refine ⟨ordered_of_liveRun (.start h), n.nothing, n.types, n.methods, fun e he => ?_,
    fun e he => ?_⟩
  · rw [n.integers] at he
    cases he
  · rw [n.texts] at he
    cases he

/-- Runs on live handles lead to steady spaces. -/
theorem steady_of_liveRun {settings : Settings} {disk : Disk} (r : LiveRun settings disk s) :
    s.Steady := by
  induction r with
  | start h => exact create_steady h
  | turn t _ ht ih => exact ih.turn t ht

/-- Making a context the module context. -/
theorem Steady.withGlobals (i : s.Steady) (hc : s.heap.isLive ctx = true) :
    Steady { s with globals := some ctx } := by
  obtain ⟨hordered, hnone, htypes, hmethods, hints, htexts⟩ := i
  refine ⟨hordered.of_heap rfl fun g hg => ?_, hnone, htypes, hmethods, hints, htexts⟩
  by_cases hgc : g = ctx
  · exact .inr (hgc ▸ hc)
  · refine .inl ?_
    simp only [permanentRoots, Option.toList_some, List.mem_append, List.mem_singleton, hgc,
      or_false] at hg ⊢
    exact .inl hg

/-- The standard names are bound in an empty context. -/
theorem bindStandard (i : s.Steady) (hc : s.heap.Has ctx (.context c)) (hg : c.globals = []) :
    ∃ s₁ s₂ c', Builtin.standard.forM (fun f => bindFunction ctx f.name f f.keywords) s =
        .ok () s₁ ∧
      Kind.named.forM (fun k => bindType ctx k) s₁ = .ok () s₂ ∧ Frame [ctx] s s₂ ∧
      Module s₂ ctx c' ∧ c'.slots = c.slots := by
  obtain ⟨s₁, c₁, h₁, f₁, hc₁, hg₁, hslots₁, -, hb₁⟩ :=
    bindAll _ Builtin.name (fun f => .function f.name (.builtin f f.keywords)) (fun f _ h => h)
      (fun f s c => bindFunction_frame f) (l := Builtin.standard) (by decide) i hc hg
  obtain ⟨s₂, c₂, h₂, f₂, hc₂, hg₂, hslots₂, hother, hb₂⟩ :=
    bindAll _ Kind.name (fun k => .type k) (fun k _ h => h)
      (fun k s c => bindType_frame k) (l := Kind.named) (by decide) f₁.steady hc₁ hg₁
  refine ⟨s₁, s₂, c₂, h₁, h₂, f₁.again f₂, ⟨hc₂, hg₂, fun f hf => ?_, hb₂⟩,
    hslots₂.trans hslots₁⟩
  obtain ⟨h, hget, hh⟩ := hb₁ f hf
  have hapart : ∀ f ∈ Builtin.standard, f.name ∉ Kind.named.map Kind.name := by decide
  exact ⟨h, (hother _ (hapart f hf)).trans hget, f₂.fixed hh fun _ h => h⟩

/-- A fresh context becomes a module context with the name and the arguments of the program. -/
theorem initContext_module (i : s.Steady) (hc : s.heap.Has ctx (.context c)) (hg : c.globals = [])
    (argv : List String) :
    ∃ s' c' name args items, initContext ctx argv s = .ok () s' ∧
      Frame [ctx] { s with globals := some ctx } s' ∧ Module s' ctx c' ∧ c'.slots = c.slots ∧
      c'.names.get? "__name__" = some name ∧ IsText s'.heap name s.moduleName ∧
      c'.names.get? "__args__" = some args ∧ s'.heap.Has args (.list items) ∧
      AreTexts s'.heap items.toList argv := by
  obtain ⟨s₁, s₂, c₂, h₁, h₂, f₂, m₂, hslots⟩ := bindStandard (i.withGlobals hc.1) hc hg
  obtain ⟨name, s₃, h₃, f₃, hname⟩ := newStr_frame f₂.steady s₂.moduleName
  obtain ⟨s₄, h₄, f₄, m₄⟩ :=
    (m₂.frame f₃).storeName f₃.steady "__name__" (by decide) hname.1
  obtain ⟨l, s₅, h₅, f₅, hl⟩ := newTexts_frame f₄.steady argv
  have hlive : ∀ v ∈ l.toArray.toList, s₅.heap.isLive v = true := hl.live
  obtain ⟨args, s₆, h₆, f₆, hargs⟩ := newList_frame f₅.steady hlive
  have m₆ := (m₄.frame f₅).frame f₆
  obtain ⟨s₇, h₇, f₇, m₇⟩ := m₆.storeName f₆.steady "__args__" (by decide) hargs.1
  have hname₇ := f₇.isText (f₆.isText (f₅.isText (f₄.isText ⟨none, hname⟩)))
  rw [f₂.moduleName] at hname₇
  refine ⟨s₇, _, name, args, l.toArray, ?_, ?_, m₇, hslots, ?_, hname₇, ?_, ?_, ?_⟩
  · rw [initContext, bind_of_ok (modify_apply _ s), bind_of_ok h₁, bind_of_ok h₂,
      bind_of_ok (get_apply s₂), bind_of_ok h₃, bind_of_ok h₄, bind_of_ok h₅, bind_of_ok h₆, h₇]
  · exact (((((f₂.trans f₃).trans f₄).trans f₅).trans f₆).trans f₇).mono (by simp)
  · simp
  · simp
  · exact f₇.other m₆.has hargs nofun
  · exact f₇.areTexts (f₆.areTexts hl)

/-- **The start of a program.** It runs in a module context, whatever the settings are. -/
theorem execute_started {settings : Settings} {disk : Disk} (h : create settings disk = .ok s)
    (hook : Hook) (p : Program) (argv : List String) :
    ∃ s' ctx c, p.executeWith hook argv s = p.script hook ctx s' ∧
      Started settings.moduleName disk argv p.slots s' ctx c := by
  obtain ⟨n, -⟩ := create_new h
  obtain ⟨ctx, s₁, h₁, f₁, hc₁⟩ := alloc_frame (create_steady h)
    (o := .context { slots := Array.replicate p.slots none, parent := none }) trivial
    (by simp [Object.children, Context.children, Bindings.handles]) nofun
  obtain ⟨s₂, c₂, name, args, items, h₂, f₂, m₂, hslots, hname, hname₂, hargs, hargs₂, hitems⟩ :=
    initContext_module f₁.steady hc₁ rfl argv
  obtain ⟨hwriters, hdisk⟩ := f₁.dry [] (create_writers h)
  obtain ⟨hwriters₂, hdisk₂⟩ := f₂.dry [] hwriters
  rw [f₁.moduleName, n.moduleName] at hname₂
  have hnew : newContext none p.slots s = .ok ctx s₁ := h₁
  refine ⟨s₂, ctx, c₂, ?_, ?_⟩
  · rw [Program.executeWith, bind_of_ok hnew, bind_of_ok h₂]
  · exact
      { steady := f₂.steady
        module := m₂
        slots_eq := hslots
        globals := f₂.globals
        output := f₂.output.trans (f₁.output.trans n.output)
        disk_eq := hdisk₂.trans (hdisk.trans n.disk)
        writers := hwriters₂
        moduleName := ⟨name, hname, hname₂⟩
        arguments := ⟨args, items, hargs, hargs₂, hitems⟩ }

end ObjectSpace.Space
