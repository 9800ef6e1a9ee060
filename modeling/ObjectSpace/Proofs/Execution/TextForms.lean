import ObjectSpace.Proofs.Execution.Lists
import ObjectSpace.Proofs.Safety.Queries
import ObjectSpace.Proofs.Value.Forms

/-!
# Text forms that end

Text forms are written from left to right at the end of one text, and the containers that have been
gone into are kept on one stack. A `Drafting` does that.

**Theorem (`adds_write`).** Writing a value adds its text form to what has been written, and leaves
the stack as it was, whatever was on it.

**Theorem (`repr_unfolds`).** Together with the structure of text forms: writing ends, and what it
writes is the structure of the value.
-/

namespace ObjectSpace

open Heap (bracketed isContainer activeMark dict outlineOf reprWithin)

/-! ## Writing -/

/-- What has been written, and the containers that are being written. -/
structure Draft where
  text : String
  active : List Handle

/-- A computation that writes. -/
abbrev Drafting := StateT Draft Query

namespace Drafting

/-- Write a text. -/
def put (text : String) : Drafting Unit := modify fun d => { d with text := d.text ++ text }

/-- Go into a container. -/
def enter (v : Handle) : Drafting Unit := modify fun d => { d with active := v :: d.active }

/-- Leave the container that was gone into last. -/
def leave : Drafting Unit := modify fun d => { d with active := d.active.tail }

/-- Write elements with commas between them. -/
def row {α : Type} (part : α → Drafting Unit) : List α → Drafting Unit
  | [] => return
  | [x] => part x
  | x :: rest => do
    part x
    put ", "
    row part rest

/-- Write an entry that a view shows. -/
def entry (shown : ViewPart) (part : Handle → Drafting Unit) (k w : Handle) : Drafting Unit :=
  match shown with
  | .keys => part k
  | .values => part w
  | .items => do
    put "("
    row part [k, w]
    put ")"

/-- Write the object of a value with its parts. -/
def contents (part : Handle → Drafting Unit) (v : Handle) : Object → Drafting Unit
  | .list items => do
    put "["
    row part items.toList
    put "]"
  | .tuple items => do
    put "("
    row part items.toList
    if items.size = 1 then put ",)" else put ")"
  | .dict t => do
    put "\x7b"
    row (fun e => do
      part e.1
      put ": "
      part e.2) t.toList
    put "\x7d"
  | .set t => do
    if t.isEmpty then put "set()" else
      put "\x7b"
      row part t.toList
      put "\x7d"
  | .view d shown => do
    let t ← dict d
    put shown.kind.name
    put "(["
    row (fun e => entry shown part e.1 e.2) t.toList
    put "])"
  | o => do
    let (head, _) ← outlineOf v o
    put (head.render [])

/-- Write a value, to a bounded depth. A container that is being written is marked. -/
def write : Nat → Handle → Drafting Unit
  | 0, v => violate (.endless v)
  | n + 1, v => do
    let o ← Heap.get v
    if isContainer o then
      if (← get).active.contains v then put (activeMark o) else
        enter v
        contents (write n) v o
        leave
    else
      contents (write n) v o

/-- A writer adds the text that a query gives, and leaves what is being written. -/
def Adds (heap : Heap) (active : List Handle) (w : Drafting Unit) (q : Query String) : Prop :=
  ∀ text, w ⟨text, active⟩ heap = (q heap).map fun t => ((), ⟨text ++ t, active⟩)

section Rules

variable {heap : Heap} {active : List Handle} {w w' : Drafting Unit} {q q' : Query String}
  {α : Type}

theorem Adds.congr (h : Adds heap active w q) (hq : q heap = q' heap) : Adds heap active w q' := by
  intro text
  rw [h text, hq]

theorem adds_put (text : String) : Adds heap active (put text) (pure text) := fun _ => rfl

theorem Adds.seq (h : Adds heap active w q) (h' : Adds heap active w' q') :
    Adds heap active (do w; w') (do return (← q) ++ (← q')) := by
  intro text
  have hw := h text
  simp only [bind, StateT.bind, ReaderT.bind, Except.bind] at hw ⊢
  rw [hw]
  cases hq : q heap with
  | error e => rfl
  | ok t =>
    simp only [Except.map]
    rw [h' (text ++ t)]
    cases hq' : q' heap with
    | error e => rfl
    | ok t' => simp [Except.map, pure, ReaderT.pure, Except.pure, String.append_assoc]

theorem ask_eq (q : Query α) (f : α → Drafting Unit) (d : Draft) :
    (do f (← q) : Drafting Unit) d heap = (q heap).bind fun a => f a d heap := by
  change (((q >>= fun a => pure (a, d)) >>= fun p => f p.1 p.2 : Query _)) heap = _
  rw [bind_assoc]
  simp only [pure_bind]
  rfl

/-- A drafting may read the heap first. -/
theorem adds_ask {q : Query α} {f : α → Drafting Unit} {g : α → Query String}
    (h : ∀ a, q heap = .ok a → Adds heap active (f a) (g a)) :
    Adds heap active (do f (← q)) (q >>= g) := by
  intro text
  rw [ask_eq]
  cases hq : q heap with
  | error e =>
    rw [Heap.bind_of_error hq]
    rfl
  | ok a =>
    rw [Heap.bind_of_ok hq]
    exact h a hq text

theorem adds_row {part : α → Drafting Unit} {text : α → Query String}
    (h : ∀ x, Adds heap active (part x) (text x)) (l : List α) :
    Adds heap active (row part l) (", ".intercalate <$> l.mapM text) := by
  induction l with
  | nil =>
    intro t
    change Except.ok ((), Draft.mk t active) = .ok ((), Draft.mk (t ++ "") active)
    rw [String.append_empty]
  | cons x l ih =>
    cases l with
    | nil =>
      refine (h x).congr (congrFun ?_ heap)
      simp [List.mapM_cons]
    | cons y l =>
      refine ((h x).seq ((adds_put ", ").seq ih)).congr (congrFun ?_ heap)
      simp [List.mapM_cons, String.append_assoc, String.intercalate_cons_cons]

theorem adds_bracketed {part : α → Drafting Unit} {text : α → Query String}
    (h : ∀ x, Adds heap active (part x) (text x)) (opening closing : String) (l : List α) :
    Adds heap active (do put opening; row part l; put closing)
      (bracketed opening closing <$> l.mapM text) := by
  have hput : bracketed opening closing = fun texts =>
      opening ++ (", ".intercalate texts ++ closing) := by
    funext texts
    rw [bracketed, String.append_assoc]
  refine ((adds_put opening).seq ((adds_row h l).seq (adds_put closing))).congr (congrFun ?_ heap)
  simp [hput]

theorem adds_entry {part : Handle → Drafting Unit} {text : Handle → Query String}
    (h : ∀ p, Adds heap active (part p) (text p)) (shown : ViewPart) (k w : Handle) :
    Adds heap active (entry shown part k w) (shown.entry text k w) := by
  cases shown with
  | keys => exact h k
  | values => exact h w
  | items => exact adds_bracketed h "(" ")" [k, w]

theorem adds_leaf {v : Handle} {o : Object} {text : Handle → Query String}
    (ho : isContainer o = false) :
    Adds heap active (do let (head, _) ← outlineOf v o; put (head.render []))
      (do let (head, parts) ← outlineOf v o; head.render <$> parts.mapM text) := by
  refine adds_ask fun (head, parts) hout => ?_
  have hnil : parts = [] := by
    rw [List.eq_nil_iff_forall_not_mem]
    intro p hp
    have hc := Heap.isContainer_of_outlineOf hout hp
    exact absurd (ho.symm.trans hc) Bool.false_ne_true
  subst hnil
  exact adds_put _

/-- What is written of an object is what its head makes of its parts. -/
theorem adds_contents {part : Handle → Drafting Unit} {text : Handle → Query String}
    {o : Object} (h : isContainer o = true → ∀ p, Adds heap active (part p) (text p))
    (v : Handle) :
    Adds heap active (contents part v o) (do
      let (head, parts) ← outlineOf v o
      head.render <$> parts.mapM text) := by
  cases o with
  | list items =>
    refine (adds_bracketed (h rfl) "[" "]" items.toList).congr ?_
    exact Heap.render_eq .list items.toList fun _ _ => rfl
  | tuple items =>
    have hput : ∀ closing, (∀ texts : List String, texts.length = items.toList.length →
        bracketed "(" closing texts = Head.tuple.render texts) →
        Adds heap active (do put "("; row part items.toList; put closing)
          (Head.tuple.render <$> items.toList.mapM text) := fun closing hclosing =>
      (adds_bracketed (h rfl) "(" closing items.toList).congr (Heap.render_eq .tuple _ hclosing)
    by_cases hone : items.size = 1
    · simp only [contents, hone, if_true]
      refine hput ",)" fun texts htexts => ?_
      rw [Head.render_tuple, htexts, Array.length_toList, if_pos hone]
    · simp only [contents, hone, if_false]
      refine hput ")" fun texts htexts => ?_
      rw [Head.render_tuple, htexts, Array.length_toList, if_neg hone]
  | dict t =>
    have hentry : ∀ e : Handle × Handle, Adds heap active
        (do part e.1; put ": "; part e.2)
        (do let k ← text e.1; return k ++ ": " ++ (← text e.2)) := by
      intro e
      refine ((h rfl e.1).seq ((adds_put ": ").seq (h rfl e.2))).congr (congrFun ?_ heap)
      simp [String.append_assoc]
    refine (adds_bracketed hentry "\x7b" "\x7d" t.toList).congr ?_
    rw [Heap.mapM_pairs, Functor.map_map]
    rfl
  | set t =>
    by_cases ht : t.isEmpty = true
    · simp only [contents, ht, if_true]
      refine (adds_put "set()").congr ?_
      simp only [outlineOf, ht, if_true]
      rfl
    · simp only [contents, outlineOf, ht]
      refine (adds_bracketed (h rfl) "\x7b" "\x7d" t.toList).congr ?_
      exact Heap.render_eq .set t.toList fun _ _ => rfl
  | view d shown =>
    simp only [outlineOf, bind_assoc]
    refine adds_ask fun t _ => ?_
    have hentries := adds_bracketed (fun e : Handle × Handle => adds_entry (h rfl) shown e.1 e.2)
      "([" "])" t.toList
    refine ((adds_put shown.kind.name).seq hentries).congr (congrFun ?_ heap)
    rw [Heap.mapM_entries, Functor.map_map]
    simp only [bind_pure_comp, pure_bind, Functor.map_map]
    rfl
  | _ => exact adds_leaf rfl

theorem adds_get {f : Draft → Drafting Unit}
    (h : ∀ text, Adds heap active (f ⟨text, active⟩) q) :
    Adds heap active (do f (← get)) q := fun text => h text text

theorem Adds.within {v : Handle} (h : Adds heap (v :: active) w q) :
    Adds heap active (do enter v; w; leave) q := by
  intro text
  have hw := h text
  change ((w ⟨text, v :: active⟩ >>= fun p => pure ((), { p.2 with active := p.2.active.tail }) :
    Query _)) heap = _
  cases hq : q heap with
  | error e =>
    rw [hq] at hw
    rw [Heap.bind_of_error hw]
    rfl
  | ok t =>
    rw [hq] at hw
    rw [Heap.bind_of_ok hw]
    rfl

/-- **One text.** Writing a value adds its text form and leaves what is being written, whatever
that is. -/
theorem adds_write (n : Nat) (active : List Handle) (v : Handle) :
    Adds heap active (write n v) (reprWithin n active v) := by
  induction n generalizing active v with
  | zero => exact fun _ => rfl
  | succ n ih =>
    refine Adds.congr ?_ (Heap.reprWithin_succ n active v).symm
    refine adds_ask fun o _ => ?_
    by_cases hc : isContainer o = true
    · simp only [hc, if_true, Bool.true_and]
      refine adds_get fun _ => ?_
      by_cases hactive : active.contains v = true
      · simp only [hactive, if_true]
        exact adds_put _
      · simp only [hactive]
        exact (adds_contents (fun _ => ih (v :: active)) v).within
    · rw [Bool.not_eq_true] at hc
      simp only [hc, Bool.false_and]
      exact adds_contents (fun h => absurd (hc.symm.trans h) Bool.false_ne_true) v

end Rules

end Drafting

/-! ## Text forms in runs -/

open Heap (Displays Unfolds LeadsRound Dangles)

theorem Space.Firm.repr_total {s : Space} {v : Handle} (i : s.Firm)
    (hv : s.heap.isLive v = true) : ∃ text, Heap.repr v s.heap = .ok text := by
  cases h : Heap.repr v s.heap with
  | ok text => exact ⟨text, rfl⟩
  | error e =>
    have hproper := (i.calm_repr (E := False) hv).proper e h
    rw [Heap.repr, Heap.bind_of_ok (Heap.depth_eq_ok.2 rfl)] at h
    obtain ⟨g, rfl | rfl⟩ := Heap.reprWithin_ends (Nat.lt_succ_self _) h <;> cases hproper

/-- **Text forms.** Writing a value of any heap ends, whatever contains itself and whatever is
being written already: only a broken handle stops it, and in a run nothing does. It leaves what is
being written as it was. The text is that of a structure, which has a mark just where the text form
leads to a value that contains itself; otherwise it is the structure of the value in full, and then
every value with the same structure, in any heap, has the same text form. -/
theorem repr_unfolds (heap : Heap) (v : Handle) :
    (∀ n active e, heap.capacity < n → reprWithin n active v heap = .error e → Dangles e) ∧
    (∀ n (d : Draft), Drafting.write n v d heap =
      (reprWithin n d.active v heap).map fun t => ((), { d with text := d.text ++ t })) ∧
    (∀ settings disk s, LiveRun settings disk s → s.heap = heap → heap.isLive v = true →
      ∃ text, Heap.repr v heap = .ok text) ∧
    (∀ text, Heap.repr v heap = .ok text → ∃ form : Form, text = form.text ∧
      (form.Marked ↔ LeadsRound heap v) ∧ (¬ LeadsRound heap v → Unfolds heap v form)) ∧
    ∀ form, Unfolds heap v form → Heap.repr v heap = .ok form.text ∧ ¬ form.Marked ∧
      ∀ (heap' : Heap) (w : Handle), Unfolds heap' w form →
        Heap.repr w heap' = Heap.repr v heap := by
  refine ⟨fun n active e => Heap.reprWithin_ends, fun n d => ?_, ?_, fun text h => ?_, ?_⟩
  · exact Drafting.adds_write n d.active v d.text
  · rintro settings disk s r rfl hv
    exact r.firm.repr_total hv
  · rw [Heap.repr, Heap.bind_of_ok (Heap.depth_eq_ok.2 rfl), Heap.reprWithin_eq_text] at h
    cases hform : Heap.sketch (heap.capacity + 1) [] v heap with
    | error e =>
      rw [hform] at h
      cases h
    | ok form =>
      rw [hform] at h
      exact ⟨form, (Except.ok.inj h).symm, Heap.marked_iff hform⟩
  · intro form h
    refine ⟨h.repr_eq, h.not_marked, fun heap' w hw => hw.repr_eq.trans h.repr_eq.symm⟩

/-- A list that contains itself, and two lists of empty lists, one of which has the same list
twice. -/
theorem repr_unfolds_knot :
    ∃ s l a b x y, LiveRun {} {} s ∧ s.heap.Has l (.list #[l]) ∧ s.heap.Has a (.list #[x, x]) ∧
      s.heap.Has b (.list #[x, y]) ∧ x ≠ y ∧
      Heap.repr a s.heap = .ok "[[], []]" ∧ Heap.repr b s.heap = .ok "[[], []]" ∧
      ∃ form : Form, Heap.repr l s.heap = .ok form.text ∧ form.Marked := by
  obtain ⟨s₀, h₀⟩ := Space.create_ok {} rfl {}
  obtain ⟨zero, s₁, r₁, -, hzero⟩ := (LiveRun.start h₀).newInt 0
  have hlone : ∀ g ∈ (#[zero] : Array Handle).toList, s₁.heap.isLive g = true := by
    simpa using hzero.1
  obtain ⟨l, s₂, r₂, f₂, hl⟩ := r₁.newList hlone
  replace hzero := f₂.keep hzero
  -- the list is put into itself
  have hplace : place? 0 1 = some 0 := by decide
  have hset : (ListOp.setItem zero l).Effect s₂ [zero] [] ([zero].set 0 l) :=
    .setItem (n := 0) ⟨_, 0, hzero, rfl, rfl⟩ hplace
  have hlist : s₂.heap.Has l (.list [zero].toArray) := hl
  obtain ⟨s₃, hs₃, hleaves⟩ := (Space.refines_setItem (Space.steady_of_liveRun r₂) hlist
    hzero.1 hl.1).complete hset
  obtain ⟨_, hs₃, -⟩ := Space.exists_of_returned hs₃
  have hgiven : ∀ h ∈ (Operation.setItem l zero l).handles, s₂.heap.isLive h = true := by
    simp [Operation.handles, hl.1, hzero.1]
  have r₃ := r₂.after (.setItem l zero l) rfl hgiven hs₃
  replace hl : s₃.heap.Has l (.list #[l]) := hleaves.list
  -- two empty lists
  have hnone : ∀ g ∈ (#[] : Array Handle).toList, s₃.heap.isLive g = true := List.forall_mem_nil _
  obtain ⟨x, s₄, r₄, f₄, hx⟩ := r₃.newList hnone
  have hnone : ∀ g ∈ (#[] : Array Handle).toList, s₄.heap.isLive g = true := List.forall_mem_nil _
  obtain ⟨y, s₅, hs₅, hfresh, f₅, hy⟩ :=
    Space.makes_newList (Space.steady_of_liveRun r₄) hnone
  have r₅ := r₄.after (.newList #[]) rfl (List.forall_mem_nil _) hs₅
  have hxy : x ≠ y := by
    rintro rfl
    cases hfresh.symm.trans hx.2
  replace hx := f₅.keep hx
  -- the lists of them
  have hxx : ∀ g ∈ (#[x, x] : Array Handle).toList, s₅.heap.isLive g = true := by
    simpa using hx.1
  obtain ⟨a, s₆, r₆, f₆, ha⟩ := r₅.newList hxx
  have hlive : ∀ g ∈ (#[x, y] : Array Handle).toList, s₆.heap.isLive g = true := by
    simp [(f₆.keep hx).1, (f₆.keep hy).1]
  obtain ⟨b, s₇, r₇, f₇, hb⟩ := r₆.newList hlive
  replace hx := f₇.keep (f₆.keep hx)
  replace hy := f₇.keep (f₆.keep hy)
  replace ha := f₇.keep ha
  replace hl := f₇.keep (f₆.keep (f₅.keep (f₄.keep hl)))
  have hout : ∀ {v items}, s₇.heap.Has v (.list items) →
      Heap.outline v s₇.heap = .ok (.list, items.toList) := fun hv =>
    Heap.outline_eq_ok.2 ⟨_, hv.2, rfl⟩
  have hempty : ∀ {v}, s₇.heap.Has v (.list #[]) → Unfolds s₇.heap v (.node .list []) :=
    fun hv => .node (hout hv) .nil
  have hform : Unfolds s₇.heap a (.node .list [.node .list [], .node .list []]) :=
    .node (hout ha) (.cons (hempty hx) (.cons (hempty hx) .nil))
  have hsame : Unfolds s₇.heap b (.node .list [.node .list [], .node .list []]) :=
    .node (hout hb) (.cons (hempty hx) (.cons (hempty hy) .nil))
  obtain ⟨-, -, -, -, hfull⟩ := repr_unfolds s₇.heap a
  obtain ⟨htext, -, hothers⟩ := hfull _ hform
  obtain ⟨-, -, htotal, hround, -⟩ := repr_unfolds s₇.heap l
  obtain ⟨text, hrepr⟩ := htotal {} {} s₇ r₇ rfl hl.1
  obtain ⟨form, rfl, hmarked, -⟩ := hround text hrepr
  have hself : Displays s₇.heap l l := ⟨.list, [l], hout hl, List.mem_singleton_self l⟩
  exact ⟨s₇, l, a, b, x, y, r₇, hl, ha, hb, hxy, htext, (hothers s₇.heap b hsame).trans htext,
    form, hrepr, hmarked.2 ⟨l, .refl, .single hself⟩⟩

end ObjectSpace
