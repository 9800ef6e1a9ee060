import ObjectSpace.Proofs.Arena.Placing
import ObjectSpace.Proofs.Run.Cursors
import Mathlib.Logic.Relation

/-!
# Primitive steps

Whatever an operation does to a space, it does by primitive steps: it places an object, changes an
object, records an interned value or the global context, or touches output and disk. `Step` lists
them with all that is known when one is taken: which handles the new content may hold, which
objects can be placed at all, and for a table that the key was hashed and compared first.

**What becomes of an object** (`Evolves`). A change keeps the variant of an object, and with it what
is fixed when the object is made: the class of an instance, the parent of a context, what an
iterator draws on, and everything about a value that has a hash. An iterator only moves on.

**What becomes of a handle** (`Kept`). Between two collections a slot is handed out at most once,
since it is live from then on. So a handle either names the same object still, evolved, or its slot
was handed out once and is live under the next generation.
-/

namespace ObjectSpace

/-! ## Changes of an object -/

/-- What an object can become without being replaced. -/
def Object.Evolves : Object → Object → Prop
  | .list _, .list _ => True
  | .dict _, .dict _ => True
  | .set _, .set _ => True
  | .userInstance c _, .userInstance c' _ => c' = c
  | .userClass n _, .userClass n' _ => n' = n
  | .iter c, .iter c' => c.Onward c'
  | .file f, .file f' => f'.path = f.path ∧ f'.binary = f.binary
  | .context k, .context k' => k'.parent = k.parent
  | o, o' => o' = o

/-- The ways in which objects evolve: those of the types that change, and staying the same. -/
inductive Object.Evolution : Object → Object → Prop
  | list (xs ys : Array Handle) : Evolution (.list xs) (.list ys)
  | dict (t u : Table (Handle × Handle)) : Evolution (.dict t) (.dict u)
  | set (t u : Table Handle) : Evolution (.set t) (.set u)
  | userInstance (cls : Handle) (b b' : Bindings) :
      Evolution (.userInstance cls b) (.userInstance cls b')
  | userClass (name : String) (b b' : Bindings) :
      Evolution (.userClass name b) (.userClass name b')
  | iter {c c' : Cursor} : c.Onward c' → Evolution (.iter c) (.iter c')
  | file {f f' : File} : f'.path = f.path → f'.binary = f.binary → Evolution (.file f) (.file f')
  | context {k k' : Context} : k'.parent = k.parent → Evolution (.context k) (.context k')
  | same (o : Object) : Evolution o o

namespace Object.Evolves

variable {o o' p q : Object} {c c' : Cursor}

protected theorem refl (o : Object) : o.Evolves o := by
  cases o with
  | iter c => exact Cursor.Onward.refl c
  | file => exact ⟨rfl, rfl⟩
  | list | dict | set => trivial
  | _ => exact Eq.refl _

theorem evolution (h : o.Evolves o') : o.Evolution o' := by
  cases o with
  | list xs =>
    cases o' with
    | list ys => exact .list xs ys
    | _ => cases h
  | dict t =>
    cases o' with
    | dict u => exact .dict t u
    | _ => cases h
  | set t =>
    cases o' with
    | set u => exact .set t u
    | _ => cases h
  | userInstance cls b =>
    cases o' with
    | userInstance _ b' =>
      cases h
      exact .userInstance cls b b'
    | _ => cases h
  | userClass name b =>
    cases o' with
    | userClass _ b' =>
      cases h
      exact .userClass name b b'
    | _ => cases h
  | iter =>
    cases o' with
    | iter => exact .iter h
    | _ => cases h
  | file =>
    cases o' with
    | file => exact .file h.1 h.2
    | _ => cases h
  | context =>
    cases o' with
    | context => exact .context h
    | _ => cases h
  | _ =>
    cases h
    exact .same _

theorem of_iter (h : (Object.iter c).Evolves o') : ∃ c', o' = .iter c' ∧ c.Onward c' := by
  cases h.evolution with
  | iter hc => exact ⟨_, rfl, hc⟩
  | same => exact ⟨c, rfl, .refl c⟩

protected theorem trans (h₁ : o.Evolves p) (h₂ : p.Evolves q) : o.Evolves q := by
  cases h₁.evolution with
  | list | dict | set | userInstance | userClass =>
    cases h₂.evolution <;> first | exact trivial | exact Eq.refl _
  | iter hc =>
    obtain ⟨c', rfl, hc'⟩ := h₂.of_iter
    exact hc.trans hc'
  | file hpath hbinary =>
    cases h₂.evolution with
    | file hpath' hbinary' => exact ⟨hpath'.trans hpath, hbinary'.trans hbinary⟩
    | same => exact ⟨hpath, hbinary⟩
  | context hparent =>
    cases h₂.evolution with
    | context hparent' => exact hparent'.trans hparent
    | same => exact hparent
  | same => exact h₂

end Object.Evolves

/-- The changes of an object that operations make. -/
inductive Change (heap : Heap) : Object → Object → Prop
  | same (o : Object) : Change heap o o
  | list (xs ys : Array Handle) : Change heap (.list xs) (.list ys)
  /-- A key comes into a dict when it has a hash and no equal key is filed under it. -/
  | dictPush {t : Table (Handle × Handle)} {hash : UInt64} {k v : Handle} :
      Heap.hash k heap = .ok hash →
      (∀ e ∈ t.bucket hash, Heap.equal e.1 k heap = .ok false) →
      Change heap (.dict t) (.dict (t.push hash (k, v)))
  | dictStore (t : Table (Handle × Handle)) (hash : UInt64) (i : Nat) (v : Handle) :
      Change heap (.dict t) (.dict (t.modify hash i fun e => (e.1, v)))
  | dictErase (t : Table (Handle × Handle)) (hash : UInt64) (i : Nat) :
      Change heap (.dict t) (.dict (t.erase hash i))
  | dictClear (t : Table (Handle × Handle)) : Change heap (.dict t) (.dict .empty)
  /-- A member comes into a set as a key comes into a dict. -/
  | setPush {t : Table Handle} {hash : UInt64} {k : Handle} :
      Heap.hash k heap = .ok hash →
      (∀ e ∈ t.bucket hash, Heap.equal e k heap = .ok false) →
      Change heap (.set t) (.set (t.push hash k))
  | setErase (t : Table Handle) (hash : UInt64) (i : Nat) :
      Change heap (.set t) (.set (t.erase hash i))
  | setClear (t : Table Handle) : Change heap (.set t) (.set .empty)
  | attribute (cls : Handle) (b : Bindings) (name : String) (v : Handle) :
      Change heap (.userInstance cls b) (.userInstance cls (b.set name v))
  | member (label : String) (b : Bindings) (name : String) (v : Handle) :
      Change heap (.userClass label b) (.userClass label (b.set name v))
  | advance {c c' : Cursor} : c.Advances heap c' → Change heap (.iter c) (.iter c')
  | stream (f : File) (stream : Stream) : Change heap (.file f) (.file { f with stream })
  | context {k k' : Context} : k'.parent = k.parent → Change heap (.context k) (.context k')

theorem Change.evolves {heap : Heap} {o o' : Object} (c : Change heap o o') : o.Evolves o' := by
  cases c with
  | same => exact .refl o
  | advance h => exact h.onward
  | context hp => exact hp
  | stream => exact ⟨rfl, rfl⟩
  | list | dictPush | dictStore | dictErase | dictClear | setPush | setErase | setClear => trivial
  | _ => exact Eq.refl _

/-- The objects that operations place: not those that are made once, tables empty or as copies of
tables behind `ok` handles, texts with their own hash if they carry one, views of dicts, and
iterators that stand or that start on the dict of a view behind an `ok` handle. -/
def Placeable (ok : Heap → Handle → Prop) (heap : Heap) : Object → Prop
  | .nothing | .bool _ | .type _ | .function _ (.method _) => False
  | .str s (some hash) => hash = Fnv.hashText s
  | .dict t => t = .empty ∨ ∃ h, ok heap h ∧ heap.get? h = some (.dict t)
  | .set t => t = .empty ∨ ∃ h, ok heap h ∧ heap.get? h = some (.set t)
  | .userInstance _ attributes => attributes = {}
  | .view d _ => ∀ o, heap.get? d = some o → ∃ t, o = .dict t
  | .iter c => c.Stands heap ∨ ∃ v d part, ok heap v ∧ heap.get? v = some (.view d part) ∧
      c = .entries d part 0 0 false
  | _ => True

/-! ## Steps of a space -/

/-- A primitive step. Handles that come into an object or a root are `ok`. -/
inductive Step (ok : Heap → Handle → Prop) (s : Space) : Space → Prop
  | alloc {o : Object} {h : Handle} {old : Option Object} {heap : Heap} :
      Arena.Placed s.heap o.sizeClass o h old heap → Placeable ok s.heap o →
      (∀ c ∈ o.children, ok s.heap c) →
      Step ok s { s with heap, pending := s.pending + 1, disk := Space.settle old s.disk }
  | update {h : Handle} {o : Object} {f : Object → Object} :
      s.heap.get? h = some o → ok s.heap h → Change s.heap o (f o) →
      (∀ c ∈ (f o).children, ok s.heap c) → Step ok s { s with heap := s.heap.modify h f }
  | output (text : String) : Step ok s { s with output := text }
  | disk (disk : Disk) : Step ok s { s with disk }
  | integer {n : Int64} {h : Handle} :
      s.heap.get? h = some (.int n) → ok s.heap h → s.integers.lookup n = none →
      Step ok s { s with integers := (n, h) :: s.integers }
  | text {t : String} {hash : UInt64} {h : Handle} :
      s.heap.get? h = some (.str t (some hash)) → ok s.heap h → s.texts.lookup t = none →
      Step ok s { s with texts := (t, h) :: s.texts }
  | globals {ctx : Handle} : ok s.heap ctx → Step ok s { s with globals := some ctx }

/-! ## What becomes of a handle -/

namespace Heap

/-- The slot of a handle is live in the generation after it. -/
def Taken (heap : Heap) (h : Handle) : Prop :=
  heap.isLive { h with generation := h.generation + 1 } = true

/-- Every handle names the same object still, or its slot was handed out once. -/
def Kept (a b : Heap) : Prop :=
  ∀ h x, a.cell? h = some x →
    (∃ y, b.cell? h = some y ∧ y.live = x.live ∧
      ∀ o, x.value = some o → ∃ o', y.value = some o' ∧ o.Evolves o') ∨
    x.live = false ∧ Taken b h

theorem Kept.refl (a : Heap) : Kept a a :=
  fun _ x hx => .inl ⟨x, hx, rfl, fun o ho => ⟨o, ho, .refl o⟩⟩

theorem Kept.live {a b : Heap} (k : Kept a b) {h : Handle} (hl : a.isLive h = true) :
    b.isLive h = true := by
  obtain ⟨x, hx, hlive⟩ := Arena.isLive_iff.1 hl
  rcases k h x hx with ⟨y, hy, hyl, -⟩ | ⟨hdead, -⟩
  · exact Arena.isLive_iff.2 ⟨y, hy, hyl.trans hlive⟩
  · rw [hlive] at hdead
    cases hdead

theorem Kept.trans {a b c : Heap} (h₁ : Kept a b) (h₂ : Kept b c) : Kept a c := by
  intro h x hx
  rcases h₁ h x hx with ⟨y, hy, hyl, hyv⟩ | ⟨hdead, ht⟩
  · rcases h₂ h y hy with ⟨z, hz, hzl, hzv⟩ | ⟨hdead, ht⟩
    · refine .inl ⟨z, hz, hzl.trans hyl, fun o ho => ?_⟩
      obtain ⟨p, hp, hop⟩ := hyv o ho
      obtain ⟨q, hq, hpq⟩ := hzv p hp
      exact ⟨q, hq, hop.trans hpq⟩
    · exact .inr ⟨hyl.symm.trans hdead, ht⟩
  · exact .inr ⟨hdead, h₂.live ht⟩

/-- A slot in the next generation is not what the handle names. -/
theorem cell?_of_taken {a : Heap} {h : Handle} (ht : Taken a h) : a.cell? h = none := by
  obtain ⟨x, hx, -⟩ := Arena.isLive_iff.1 ht
  rcases hy : a.cell? h with _ | y
  · rfl
  · have he := Arena.eq_of_cell? hx hy rfl rfl
    have hgen : h.generation + 1 = h.generation := congrArg Handle.generation he
    simp at hgen

/-- An object that can still be read has evolved. -/
theorem Kept.evolves {a b : Heap} (k : Kept a b) {h : Handle} {o o' : Object}
    (ho : a.get? h = some o) (ho' : b.get? h = some o') : o.Evolves o' := by
  obtain ⟨x, hx, hxv⟩ := Arena.get?_eq_some.1 ho
  obtain ⟨y, hy, hyv⟩ := Arena.get?_eq_some.1 ho'
  rcases k h x hx with ⟨z, hz, -, hzv⟩ | ⟨-, ht⟩
  · obtain ⟨p, hp, hop⟩ := hzv o hxv
    rw [hz, Option.some.injEq] at hy
    rw [hy, hyv, Option.some.injEq] at hp
    rw [hp]
    exact hop
  · rw [cell?_of_taken ht] at hy
    cases hy

end Heap

theorem Arena.Placed.kept {a b : Heap} {c : SizeClass} {v : Object} {g : Handle}
    {old : Option Object} (p : Arena.Placed a c v g old b) : Heap.Kept a b := by
  intro h x hx
  by_cases hp : h.sizeClass = c ∧ a.position h = a.position g
  · have hat := Arena.cellAt?_of_cell? hx
    rw [hp.1, hp.2] at hat
    have hdead := p.dead
    have hgen := p.generation_eq
    rw [hat, Option.getD_some] at hdead hgen
    refine .inr ⟨hdead, ?_⟩
    have hg : { h with generation := h.generation + 1 } = g := by
      have hslot := Arena.slot_lt_of_cell? hx
      obtain ⟨hb, hs⟩ := Arena.block_slot_of_position hslot
        (by rw [p.sizeClass_eq]; exact p.slot_lt) (hp.1.trans p.sizeClass_eq.symm) hp.2
      have hc := p.sizeClass_eq
      rw [Arena.generation_of_cell? hx] at hgen
      cases h
      cases g
      simp_all
    rw [Heap.Taken, hg]
    exact p.isLive_self
  · exact .inl ⟨x, p.cell?_of_position_ne hx hp, rfl, fun o ho => ⟨o, ho, .refl o⟩⟩

theorem Heap.kept_modify {a : Heap} {h : Handle} {o : Object} {f : Object → Object}
    (ho : a.get? h = some o) (hf : o.Evolves (f o)) : Kept a (a.modify h f) := by
  obtain ⟨z, hz, hzv⟩ := Arena.get?_eq_some.1 ho
  intro g x hx
  rw [Arena.cell?_modify hz]
  by_cases hg : g = h
  · subst hg
    rw [hz, Option.some.injEq] at hx
    subst hx
    refine .inl ⟨_, if_pos rfl, rfl, fun p hp => ?_⟩
    rw [hzv, Option.some.injEq] at hp
    subst hp
    exact ⟨f o, by rw [hzv, Option.map_some], hf⟩
  · exact .inl ⟨x, by rw [if_neg hg, hx], rfl, fun p hp => ⟨p, hp, .refl p⟩⟩

theorem Step.kept {ok : Heap → Handle → Prop} {s s' : Space} (st : Step ok s s') :
    Heap.Kept s.heap s'.heap := by
  cases st with
  | alloc p => exact p.kept
  | update ho _ hc => exact Heap.kept_modify ho hc.evolves
  | _ => exact .refl _

theorem Step.roomy {ok : Heap → Handle → Prop} {s s' : Space} (st : Step ok s s')
    (hr : s.heap.Roomy) : s'.heap.Roomy := by
  cases st with
  | alloc p => exact p.roomy hr
  | update => exact hr.modify _ _
  | _ => exact hr

/-- What a handle names after a step was there before, perhaps other, or it was placed. -/
theorem Step.object {ok : Heap → Handle → Prop} {s s' : Space} (st : Step ok s s') {v : Handle}
    {o' : Object} (h : s'.heap.get? v = some o') :
    (∃ o, s.heap.get? v = some o ∧ Change s.heap o o' ∧
      (o' = o ∨ ∀ c ∈ o'.children, ok s.heap c)) ∨
    s.heap.get? v = none ∧ Placeable ok s.heap o' ∧ ∀ c ∈ o'.children, ok s.heap c := by
  cases st with
  | alloc p hp hc =>
    rcases p.get?_eq h with ⟨rfl, rfl⟩ | ⟨-, hv⟩
    · exact .inr ⟨p.get?_new, hp, hc⟩
    · exact .inl ⟨o', hv, .same o', .inl rfl⟩
  | update ho _ hch hc =>
    rw [Arena.get?_modify ho] at h
    split at h
    · rename_i hv
      obtain rfl := Option.some.inj h
      exact .inl ⟨_, hv ▸ ho, hch, .inr hc⟩
    · exact .inl ⟨o', h, .same o', .inl rfl⟩
  | _ => exact .inl ⟨o', h, .same o', .inl rfl⟩

end ObjectSpace
