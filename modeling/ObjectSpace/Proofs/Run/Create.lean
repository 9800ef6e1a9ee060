import ObjectSpace.Proofs.Run.Trust

/-!
# A new space

A new space holds None, the two Booleans, the type objects and the functions of the methods, and
nothing else. They refer to nothing and are placed one after the other, so all of them are live
(`create_sown`).
-/

namespace ObjectSpace

/-- The objects that are made once, when the space is. -/
def Object.Permanent : Object → Prop
  | .nothing | .bool _ | .type _ | .function _ (.method _) => True
  | _ => False

/-- The objects of which there is one: None and each Boolean. -/
def Object.Single : Object → Prop
  | .nothing | .bool _ => True
  | _ => False

/-- A permanent object refers to nothing. -/
theorem Object.Permanent.children_eq {o : Object} (h : o.Permanent) : o.children = [] := by
  cases o with
  | nothing | bool | type | function => rfl
  | _ => exact h.elim

namespace Heap

/-- What placing objects with `P` makes of a heap. -/
inductive Sown (P : Object → Prop) (a : Heap) : Heap → Prop
  | refl : Sown P a a
  | place {b d : Heap} {o : Object} {h : Handle} {old : Option Object} :
      Sown P a b → P o → Arena.Placed b o.sizeClass o h old d → Sown P a d

variable {P Q : Object → Prop}

theorem Sown.trans {a b d : Heap} (h₁ : Sown P a b) (h₂ : Sown P b d) : Sown P a d := by
  induction h₂ with
  | refl => exact h₁
  | place _ ho hp ih => exact .place ih ho hp

theorem Sown.mono {a b : Heap} (h : Sown P a b) (hPQ : ∀ o, P o → Q o) : Sown Q a b := by
  induction h with
  | refl => exact .refl
  | place _ ho hp ih => exact .place ih (hPQ _ ho) hp

theorem Sown.roomy {a b : Heap} (h : Sown P a b) (hr : a.Roomy) : b.Roomy := by
  induction h with
  | refl => exact hr
  | place _ _ hp ih => exact hp.roomy ih

theorem Sown.has {a b : Heap} (h : Sown P a b) {g : Handle} {o : Object} (hg : a.Has g o) :
    b.Has g o := by
  induction h with
  | refl => exact hg
  | place _ _ hp ih => exact hp.has ih

variable {α β γ : Type}

/-- What can be read was there before, or it was sown. -/
theorem Sown.get? {a b : Heap} (hs : Sown P a b) {v : Handle} {o : Object}
    (h : b.get? v = some o) : a.get? v = some o ∨ P o := by
  induction hs generalizing v o with
  | refl => exact .inl h
  | place _ ho hp ih =>
    rcases hp.get?_eq h with ⟨-, rfl⟩ | ⟨-, hv⟩
    · exact .inr ho
    · exact ih hv

/-- What was sown in an arena with nothing in it is permanent. -/
theorem Sown.permanent {a b : Heap} (hf : a.AllFresh) (hs : Sown Object.Permanent a b)
    {v : Handle} {o : Object} (h : b.get? v = some o) : o.Permanent := by
  refine (hs.get? h).resolve_left fun ha => ?_
  obtain ⟨x, hx, hxv⟩ := Arena.get?_eq_some.1 ha
  rw [hf _ _ x (Arena.cellAt?_of_cell? hx)] at hxv
  cases hxv

/-- From a heap with room, a computation places objects with `P` and ends as `post` says. -/
def Sows (P : Object → Prop) (a : Heap) (n : Nat) (act : StateM (Heap × Nat) α)
    (post : α → Heap → Prop) : Prop :=
  a.Roomy → Sown P a (act (a, n)).2.1 ∧ post (act (a, n)).1 (act (a, n)).2.1

variable {a : Heap} {n : Nat} {act : StateM (Heap × Nat) α} {post : α → Heap → Prop}

theorem sows_place {o : Object} (ho : P o) :
    Sows P a n (place o) fun h b => b.Has h o := fun hr => by
  have hp := Arena.allocateIn_placed hr o.sizeClass o
  exact ⟨.place .refl ho hp, hp.has_self⟩

theorem sows_bind {f : α → StateM (Heap × Nat) β} {post' : β → Heap → Prop}
    (ha : Sows P a n act post)
    (hf : ∀ x b m, Sown P a b → post x b → Sows P b m (f x) post') :
    Sows P a n (act >>= f) post' := fun hr => by
  obtain ⟨h₁, hx⟩ := ha hr
  obtain ⟨h₂, hy⟩ := hf _ _ (act (a, n)).2.2 h₁ hx (h₁.roomy hr)
  exact ⟨h₁.trans h₂, hy⟩

theorem sows_mapM {l : List γ} {obj : γ → Object} (ho : ∀ x, P (obj x)) :
    Sows P a n (l.mapM fun x => place (obj x)) fun hs b =>
      List.Forall₂ (fun x h => b.Has h (obj x)) l hs := by
  induction l generalizing a n with
  | nil =>
    rw [List.mapM_nil]
    exact fun _ => ⟨.refl, .nil⟩
  | cons x l ih =>
    rw [List.mapM_cons]
    refine sows_bind (sows_place (ho x)) fun h b m _ hh => sows_bind ih fun hs d k hsown hl _ => ?_
    exact ⟨.refl, .cons (hsown.has hh) hl⟩

/-- Going through a vector is going through its list. -/
theorem sows_vector {k : Nat} {v : Vector γ k} {obj : γ → Object}
    (ho : ∀ x, P (obj x)) :
    Sows P a n (v.mapM fun x => place (obj x)) fun hs b =>
      ∀ i : Fin k, b.Has (hs.get i) (obj (v.get i)) := by
  have he : (Vector.toArray <$> v.mapM fun x => place (obj x)) (a, n) =
      (v.toArray.mapM fun x => place (obj x)) (a, n) := congrFun Vector.toArray_mapM (a, n)
  rw [Array.mapM_eq_mapM_toList] at he
  obtain ⟨h₁, h₂⟩ : ((v.mapM fun x => place (obj x)) (a, n)).1.toArray =
      ((v.toList.mapM fun x => place (obj x)) (a, n)).1.toArray ∧
    ((v.mapM fun x => place (obj x)) (a, n)).2 =
      ((v.toList.mapM fun x => place (obj x)) (a, n)).2 := Prod.mk.inj he
  intro hr
  obtain ⟨hs, hl⟩ := sows_mapM (P := P) (l := v.toList) (a := a) (n := n) ho hr
  rw [h₂]
  refine ⟨hs, fun i => ?_⟩
  have hi : i < v.toList.length := by simp
  have hget := (List.forall₂_iff_get.1 hl).2 i hi (hl.length_eq ▸ hi)
  simpa [Vector.get, h₁] using hget

/-- A computation that places an object first goes on from the heap with that object. -/
theorem of_place {o : Object} {f : Handle → StateM (Heap × Nat) α} {x : α} (hr : a.Roomy)
    (hx : ((place o >>= f).run (a, n)).1 = x) :
    ∃ h old b, Arena.Placed a o.sizeClass o h old b ∧ ((f h).run (b, n + 1)).1 = x :=
  ⟨_, _, _, Arena.allocateIn_placed hr o.sizeClass o, hx⟩

theorem of_sows (P : Object → Prop) (post : α → Heap → Prop) {x : α} (hr : a.Roomy)
    (hx : (act.run (a, n)).1 = x) (hs : Sows P a n act post) : ∃ b, Sown P a b ∧ post x b :=
  ⟨_, (hs hr).1, hx ▸ (hs hr).2⟩

end Heap

namespace Space

/-- What a space holds right after it was made. -/
structure New (settings : Settings) (disk : Disk) (s : Space) : Prop where
  nothing : s.heap.Has s.noneValue .nothing
  boolean : ∀ b, s.heap.Has (if b then s.trueValue else s.falseValue) (.bool b)
  types : ∀ i, s.heap.Has (s.types.get i) (.type (Kind.all.get i))
  methods : ∀ i, s.heap.Has (s.methods.get i)
    (.function (Method.all.get i).qualifiedName (.method (Method.all.get i)))
  integers : s.integers = []
  texts : s.texts = []
  globals : s.globals = none
  output : s.output = ""
  disk : s.disk = disk
  moduleName : s.moduleName = settings.moduleName

/-- A new space is made of None, the Booleans and other permanent objects. -/
theorem create_placed {settings : Settings} {disk : Disk} {s : Space}
    (h : create settings disk = .ok s) :
    s.New settings disk ∧ ∃ (a b₁ b₂ b₃ : Heap) (old₁ old₂ old₃ : Option Object), a.Roomy ∧
      a.AllFresh ∧ Arena.Placed a Object.nothing.sizeClass .nothing s.noneValue old₁ b₁ ∧
      Arena.Placed b₁ (Object.bool true).sizeClass (.bool true) s.trueValue old₂ b₂ ∧
      Arena.Placed b₂ (Object.bool false).sizeClass (.bool false) s.falseValue old₃ b₃ ∧
      Heap.Sown (fun o => o.Permanent ∧ ¬ o.Single) b₃ s.heap := by
  unfold create at h
  split at h
  · cases h
  rename_i a ha
  obtain ⟨hr, hf⟩ := Arena.create_start ha
  obtain ⟨g₁, old₁, b₁, p₁, h₁⟩ := Heap.of_place hr (Except.ok.inj h)
  obtain ⟨g₂, old₂, b₂, p₂, h₂⟩ := Heap.of_place (p₁.roomy hr) h₁
  obtain ⟨g₃, old₃, b₃, p₃, h₃⟩ := Heap.of_place (p₂.roomy (p₁.roomy hr)) h₂
  have hsows := Heap.of_sows (fun o => o.Permanent ∧ ¬ o.Single)
    (fun (s : Space) b => s.heap = b ∧ s.noneValue = g₁ ∧ s.trueValue = g₂ ∧ s.falseValue = g₃ ∧
      s.New settings disk) (p₃.roomy (p₂.roomy (p₁.roomy hr))) h₃
  suffices hrest : _ by
    obtain ⟨-, hs, rfl, rfl, rfl, rfl, hn⟩ := hsows hrest
    exact ⟨hn, a, b₁, b₂, b₃, old₁, old₂, old₃, hr, hf, p₁, p₂, p₃, hs⟩
  refine Heap.sows_bind (Heap.sows_vector fun _ => ⟨trivial, id⟩) fun types _ _ s₄ h₄ => ?_
  refine Heap.sows_bind (Heap.sows_vector fun _ => ⟨trivial, id⟩) fun methods b m s₅ h₅ => ?_
  have hs := s₄.trans s₅
  refine fun _ => ⟨.refl, rfl, rfl, rfl, rfl, ?_⟩
  exact
    { nothing := hs.has (p₃.has (p₂.has p₁.has_self))
      boolean := fun b => by
        cases b
        · exact hs.has p₃.has_self
        · exact hs.has (p₃.has p₂.has_self)
      types := fun i => s₅.has (h₄ i)
      methods := h₅
      integers := rfl
      texts := rfl
      globals := rfl
      output := rfl
      disk := rfl
      moduleName := rfl }

/-- In a new space None and the Booleans have one handle each. -/
theorem create_single {settings : Settings} {disk : Disk} {s : Space}
    (h : create settings disk = .ok s) {v : Handle} {o : Object} (hv : s.heap.get? v = some o)
    (ho : o.Single) :
    (v = s.noneValue ∧ o = .nothing) ∨ (v = s.trueValue ∧ o = .bool true) ∨
      (v = s.falseValue ∧ o = .bool false) := by
  obtain ⟨-, a, b₁, b₂, b₃, old₁, old₂, old₃, -, hf, p₁, p₂, p₃, hs⟩ := create_placed h
  have hv := (hs.get? hv).resolve_right fun hp => hp.2 ho
  rcases p₃.get?_eq hv with hfalse | ⟨-, hv⟩
  · exact .inr (.inr hfalse)
  rcases p₂.get?_eq hv with htrue | ⟨-, hv⟩
  · exact .inr (.inl htrue)
  rcases p₁.get?_eq hv with hnone | ⟨-, hv⟩
  · exact .inl hnone
  obtain ⟨x, hx, hxv⟩ := Arena.get?_eq_some.1 hv
  rw [hf _ _ x (Arena.cellAt?_of_cell? hx)] at hxv
  cases hxv

/-- **A new space.** It is made of permanent objects in an arena with nothing in it. -/
theorem create_new {settings : Settings} {disk : Disk} {s : Space}
    (h : create settings disk = .ok s) :
    s.New settings disk ∧
      ∃ a : Heap, a.Roomy ∧ a.AllFresh ∧ Heap.Sown Object.Permanent a s.heap := by
  obtain ⟨n, a, b₁, b₂, b₃, _, _, _, hr, hf, p₁, p₂, p₃, hs⟩ := create_placed h
  have hfirst : Heap.Sown Object.Permanent a b₃ :=
    ((Heap.Sown.refl.place (by trivial) p₁).place (by trivial) p₂).place (by trivial) p₃
  exact ⟨n, a, hr, hf, hfirst.trans (hs.mono fun _ => And.left)⟩

/-- All roots of a new space are live. -/
theorem create_sown {settings : Settings} {disk : Disk} {s : Space}
    (h : create settings disk = .ok s) :
    ∃ a : Heap, a.Roomy ∧ a.AllFresh ∧ Heap.Sown Object.Permanent a s.heap ∧
      ∀ g ∈ s.permanentRoots, s.heap.isLive g = true := by
  obtain ⟨n, a, hr, hf, hs⟩ := create_new h
  refine ⟨a, hr, hf, hs, fun g hg => ?_⟩
  have hlist : ∀ {k : Nat} {v : Vector Handle k}, g ∈ v.toList → ∃ i, v.get i = g := fun hm => by
    obtain ⟨i, hi, rfl⟩ := List.mem_iff_getElem.1 hm
    exact ⟨⟨i, by simpa using hi⟩, rfl⟩
  simp only [permanentRoots, n.integers, n.texts, n.globals, List.map_nil, Option.toList_none,
    List.append_nil, List.mem_append, List.mem_cons, List.not_mem_nil, or_false] at hg
  obtain ((rfl | rfl | rfl) | hg) | hg := hg
  · exact n.nothing.1
  · exact (n.boolean true).1
  · exact (n.boolean false).1
  · obtain ⟨i, rfl⟩ := hlist hg
    exact (n.types i).1
  · obtain ⟨i, rfl⟩ := hlist hg
    exact (n.methods i).1

end Space

end ObjectSpace
