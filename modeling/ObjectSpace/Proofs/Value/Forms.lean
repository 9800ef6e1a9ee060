import ObjectSpace.Proofs.Heap.Depth
import ObjectSpace.Proofs.Heap.Query
import ObjectSpace.Proofs.Table.Entries
import ObjectSpace.Repr

/-!
# The structure of text forms

The text form of a value shows a head and parts, its `outline`. Followed through all parts, that
makes a tree, a `Form`, with a mark where a container is met again that is being written.

**Theorem (`reprWithin_eq_text`).** A text form is the text of a tree, whatever the heap.

**Theorem (`marked_iff`).** There is a mark in the tree just where the outlines lead to a value that
contains itself. Otherwise the tree is the value in full (`Unfolds`), and it alone determines the
text (`Unfolds.repr_eq`): not which parts are the same object.

**Theorem (`reprWithin_ends`).** Writing goes deeper only into a container that is not active. So
the containers on the way are different cells, and the depth is enough for all of them. What stops
writing is a broken handle.
-/

namespace ObjectSpace

open Relation (ReflTransGen TransGen)

/-- What the text form of a value shows besides its parts. -/
inductive Head where
  | nothing
  | bool (b : Bool)
  | int (n : Int64)
  | str (s : String)
  | bytes (bs : Array UInt8)
  | list
  | tuple
  | dict
  | emptySet
  | set
  | view (part : ViewPart)
  | range (p : Progression)
  | type (k : Kind)
  | userClass (name : String)
  /-- An instance or an iterator. -/
  | object (type : String)
  | compiled (name : String)
  | builtin (name : String)
  | method (m : Method)
  | boundMethod (receiver label : String)
  | file (path : String)
  | context

/-- Texts taken two by two. -/
def inPairs (join : String → String → String) : List String → List String
  | k :: w :: rest => join k w :: inPairs join rest
  | _ => []

open Heap (bracketed)

/-- The texts of the entries that a view shows. -/
def ViewPart.texts (part : ViewPart) (parts : List String) : List String :=
  match part with
  | .keys | .values => parts
  | .items => inPairs (fun k w => bracketed "(" ")" [k, w]) parts

/-- The text of a head with the texts of the parts. -/
def Head.render (parts : List String) : Head → String
  | nothing => "None"
  | bool b => if b then "True" else "False"
  | int n => Numeral.decimal n
  | str s => Literal.ofText s
  | bytes bs => Literal.ofBytes bs
  | list => bracketed "[" "]" parts
  | tuple => bracketed "(" (if parts.length = 1 then ",)" else ")") parts
  | dict => bracketed "\x7b" "\x7d" (inPairs (fun k w => k ++ ": " ++ w) parts)
  | emptySet => "set()"
  | set => bracketed "\x7b" "\x7d" parts
  | view part => part.kind.name ++ bracketed "([" "])" (part.texts parts)
  | range p =>
    "range" ++ bracketed "(" ")"
      (([p.start, p.stop] ++ if p.step = 1 then [] else [p.step]).map Numeral.decimal)
  | type k => "<class '" ++ k.name ++ "'>"
  | userClass name => "<class '" ++ name ++ "'>"
  | object kind => "<" ++ kind ++ " object>"
  | compiled name => "<function " ++ name ++ ">"
  | builtin name => "<built-in function " ++ name ++ ">"
  | method m => "<method '" ++ m.name ++ "' of '" ++ m.owner.name ++ "' objects>"
  | boundMethod receiver label => "<bound method " ++ receiver ++ "." ++ label ++ ">"
  | file path => "<file '" ++ path ++ "'>"
  | context => "<context>"

theorem Head.render_tuple (texts : List String) :
    tuple.render texts = bracketed "(" (if texts.length = 1 then ",)" else ")") texts := rfl

/-- The structure of a text form, with a mark where an active container is met again. -/
inductive Form where
  | mark (text : String)
  | node (head : Head) (parts : List Form)

namespace Form

mutual

/-- The text of a structure. -/
def text : Form → String
  | mark text => text
  | node head parts => head.render (texts parts)

/-- The texts of structures. -/
def texts : List Form → List String
  | [] => []
  | f :: forms => f.text :: texts forms

end

theorem texts_eq_map (forms : List Form) : texts forms = forms.map text := by
  induction forms with
  | nil => rfl
  | cons f forms ih => exact congrArg _ ih

/-- There is a mark in a structure. -/
inductive Marked : Form → Prop
  | mark (text : String) : Marked (mark text)
  | part {head : Head} {parts : List Form} {f : Form} : f ∈ parts → Marked f →
      Marked (node head parts)

end Form

/-- The text of an entry in a view. -/
def ViewPart.entry (part : ViewPart) (text : Handle → Query String) (k w : Handle) :
    Query String :=
  match part with
  | .keys => text k
  | .values => text w
  | .items => return bracketed "(" ")" (← [k, w].mapM text)

/-- The handles of an entry that a view shows. -/
def ViewPart.handles (part : ViewPart) (k w : Handle) : List Handle :=
  match part with
  | .keys => [k]
  | .values => [w]
  | .items => [k, w]

namespace Heap

/-- What the text form of a value with the given object shows, and the parts that are written in
it. -/
def outlineOf (v : Handle) : Object → Query (Head × List Handle)
  | .nothing => return (.nothing, [])
  | .bool b => return (.bool b, [])
  | .int n => return (.int n, [])
  | .str s _ => return (.str s, [])
  | .bytes bs => return (.bytes bs, [])
  | .list items => return (.list, items.toList)
  | .tuple items => return (.tuple, items.toList)
  | .dict t => return (.dict, t.toList.flatMap fun e => [e.1, e.2])
  | .set t => return if t.isEmpty then (.emptySet, []) else (.set, t.toList)
  | .view d part => return (.view part, (← dict d).toList.flatMap fun e => part.handles e.1 e.2)
  | .range p => return (.range p, [])
  | .type k => return (.type k, [])
  | .userClass name _ => return (.userClass name, [])
  | .userInstance .. | .iter _ => return (.object (← typeName v), [])
  | .function name (.compiled _) => return (.compiled name, [])
  | .function name (.builtin ..) => return (.builtin name, [])
  | .function _ (.method m) => return (.method m, [])
  | .boundMethod receiver function => do
    let label := functionLabel (← get function)
    return (.boundMethod (← typeName receiver) label, [])
  | .file f => return (.file f.path, [])
  | .context _ => return (.context, [])

/-- What the text form of a value shows, and the parts that are written in it. -/
def outline (v : Handle) : Query (Head × List Handle) := do outlineOf v (← get v)

/-- The structure of the text form of a value inside the `active` containers. -/
def sketch : Nat → List Handle → Handle → Query Form
  | 0, _, v => violate (.endless v)
  | n + 1, active, v => do
    let o ← get v
    if isContainer o && active.contains v then return .mark (activeMark o)
    let (head, parts) ← outlineOf v o
    return .node head (← parts.mapM (sketch n (v :: active)))

/-- A part is written in the text form of a value. -/
def Displays (heap : Heap) (v p : Handle) : Prop :=
  ∃ head parts, outline v heap = .ok (head, parts) ∧ p ∈ parts

/-- The structure of a value in full: what each value shows, with its parts in their places. -/
inductive Unfolds (heap : Heap) : Handle → Form → Prop
  | node {v : Handle} {head : Head} {parts : List Handle} {forms : List Form} :
    outline v heap = .ok (head, parts) → List.Forall₂ (Unfolds heap) parts forms →
    Unfolds heap v (.node head forms)

/-- Following the text form of a value leads to a value that contains itself. -/
def LeadsRound (heap : Heap) (v : Handle) : Prop :=
  ∃ w, ReflTransGen (Displays heap) v w ∧ TransGen (Displays heap) w w

/-! ## The text of a structure -/

section Text

variable {heap : Heap} {α β : Type} {active parts : List Handle} {v : Handle} {n : Nat}

theorem map_apply (g : α → β) (q : Query α) : (g <$> q) heap = (q heap).map g := rfl

theorem mapM_pairs (join : String → String → String) (q : Handle → Query String)
    (l : List (Handle × Handle)) :
    (l.mapM fun e => do
      let k ← q e.1
      return join k (← q e.2)) =
      inPairs join <$> (l.flatMap fun e => [e.1, e.2]).mapM q := by
  induction l with
  | nil => rfl
  | cons e l ih =>
    simp only [List.flatMap_cons, List.cons_append, List.nil_append, List.mapM_cons, ih,
      bind_assoc, pure_bind, map_eq_pure_bind, inPairs]

theorem mapM_entries (part : ViewPart) (q : Handle → Query String)
    (l : List (Handle × Handle)) :
    (l.mapM fun e => part.entry q e.1 e.2) =
      part.texts <$> (l.flatMap fun e => part.handles e.1 e.2).mapM q := by
  cases part with
  | items =>
    refine Eq.trans ?_ (mapM_pairs (fun k w => bracketed "(" ")" [k, w]) q l)
    simp only [ViewPart.entry, List.mapM_cons, List.mapM_nil, bind_assoc, pure_bind]
  | _ =>
    change _ = id <$> List.mapM q _
    simp only [id_map, ViewPart.entry, ViewPart.handles]
    induction l with
    | nil => rfl
    | cons e l ih =>
      simp only [List.flatMap_cons, List.cons_append, List.nil_append, List.mapM_cons, ih]

theorem mapM_eq_ok {f : α → Query β} {l : List α} {bs : List β} :
    l.mapM f heap = .ok bs ↔ List.Forall₂ (fun a b => f a heap = .ok b) l bs := by
  induction l generalizing bs with
  | nil =>
    rw [List.mapM_nil, pure_eq_ok, List.forall₂_nil_left_iff, eq_comm]
  | cons a l ih =>
    rw [List.mapM_cons, bind_eq_ok, List.forall₂_cons_left_iff]
    simp only [bind_eq_ok, pure_eq_ok, ih]
    constructor
    · rintro ⟨b, hb, bs, hbs, rfl⟩
      exact ⟨b, bs, hb, hbs, rfl⟩
    · rintro ⟨b, bs, hb, hbs, rfl⟩
      exact ⟨b, hb, bs, hbs, rfl⟩

theorem render_eq {q : Handle → Query String} (head : Head) (parts : List Handle)
    {put : List String → String}
    (hput : ∀ texts, texts.length = parts.length → put texts = head.render texts) :
    (put <$> parts.mapM q) heap = (head.render <$> parts.mapM q) heap := by
  rw [map_apply, map_apply]
  cases hl : parts.mapM q heap with
  | error e => rfl
  | ok texts => exact congrArg Except.ok (hput texts (mapM_eq_ok.1 hl).length_eq.symm)

/-- **Writing a value.** The text form of a value that is not active is put together from those of
its parts, for which it is active. -/
theorem reprWithin_succ (n : Nat) (active : List Handle) (v : Handle) :
    reprWithin (n + 1) active v heap = (do
      let o ← get v
      if isContainer o && active.contains v then return activeMark o
      let (head, parts) ← outlineOf v o
      head.render <$> parts.mapM (reprWithin n (v :: active)) : Query String) heap := by
  rw [reprWithin]
  refine Heap.bind_congr rfl fun o => ?_
  by_cases hactive : (isContainer o && active.contains v) = true
  · simp only [if_pos hactive]
  simp only [if_neg hactive]
  cases o with
  | list items => exact render_eq .list items.toList fun _ _ => rfl
  | tuple items =>
    refine render_eq .tuple items.toList fun texts h => ?_
    rw [Head.render_tuple, h, Array.length_toList]
  | dict t =>
    have hpairs := mapM_pairs (fun k w => k ++ ": " ++ w) (reprWithin n (v :: active)) t.toList
    refine Eq.trans (congrFun (congrArg (bracketed "\x7b" "\x7d" <$> ·) hpairs) heap) ?_
    rw [Functor.map_map]
    exact render_eq .dict (t.toList.flatMap fun e => [e.1, e.2]) fun _ _ => rfl
  | set t =>
    by_cases ht : t.isEmpty = true
    · simp only [ht, if_true, outlineOf]
      rfl
    · simp only [ht, outlineOf]
      exact render_eq .set t.toList fun _ _ => rfl
  | view d shown =>
    simp only [outlineOf, bind_assoc]
    refine Heap.bind_congr rfl fun t => ?_
    have hentries := mapM_entries shown (reprWithin n (v :: active)) t.toList
    refine Eq.trans (congrFun (congrArg
      ((fun texts => shown.kind.name ++ bracketed "([" "])" texts) <$> ·) hentries) heap) ?_
    rw [Functor.map_map]
    exact render_eq (.view shown) (t.toList.flatMap fun e => shown.handles e.1 e.2) fun _ _ => rfl
  | userInstance | iter =>
    simp only [outlineOf, bind_assoc]
    exact Heap.bind_congr rfl fun _ => rfl
  | boundMethod receiver function =>
    simp only [outlineOf, bind_assoc]
    exact Heap.bind_congr rfl fun _ => Heap.bind_congr rfl fun _ => rfl
  | function name entry => cases entry <;> rfl
  | _ => rfl

theorem mapM_text {q : Handle → Query String} {f : Handle → Query Form}
    (h : ∀ p, q p heap = (f p heap).map Form.text) :
    parts.mapM q heap = (parts.mapM f heap).map (List.map Form.text) := by
  induction parts with
  | nil => rfl
  | cons p parts ih =>
    rw [List.mapM_cons, List.mapM_cons]
    cases hf : f p heap with
    | error e =>
      rw [bind_of_error hf, bind_of_error ((h p).trans (congrArg _ hf))]
      rfl
    | ok form =>
      rw [bind_of_ok hf, bind_of_ok ((h p).trans (congrArg _ hf))]
      cases hl : parts.mapM f heap with
      | error e =>
        rw [bind_of_error hl, bind_of_error (ih.trans (congrArg _ hl))]
        rfl
      | ok forms =>
        rw [bind_of_ok hl, bind_of_ok (ih.trans (congrArg _ hl))]
        rfl

/-- **The text form of a value is the text of its structure.** -/
theorem reprWithin_eq_text (n : Nat) (active : List Handle) (v : Handle) :
    reprWithin n active v heap = (sketch n active v heap).map Form.text := by
  induction n generalizing active v with
  | zero => rfl
  | succ n ih =>
    rw [reprWithin_succ, sketch]
    cases ho : get v heap with
    | error e =>
      rw [bind_of_error ho, bind_of_error ho]
      rfl
    | ok o =>
      rw [bind_of_ok ho, bind_of_ok ho]
      by_cases hactive : (isContainer o && active.contains v) = true
      · simp only [if_pos hactive]
        rfl
      simp only [if_neg hactive]
      cases hout : outlineOf v o heap with
      | error e =>
        rw [bind_of_error hout, bind_of_error hout]
        rfl
      | ok p =>
        obtain ⟨head, parts⟩ := p
        rw [bind_of_ok hout, bind_of_ok hout]
        simp only [map_apply, mapM_text (ih (v :: active))]
        cases hl : parts.mapM (sketch n (v :: active)) heap with
        | error e =>
          rw [bind_of_error hl]
          rfl
        | ok forms =>
          rw [bind_of_ok hl]
          refine congrArg Except.ok ?_
          rw [Form.text, Form.texts_eq_map]

end Text

/-! ## Values within themselves -/

section Rounds

variable {heap : Heap} {active : List Handle} {v : Handle} {n : Nat} {form : Form}

theorem outline_eq_ok {head : Head} {parts : List Handle} :
    outline v heap = .ok (head, parts) ↔
      ∃ o, heap.get? v = some o ∧ outlineOf v o heap = .ok (head, parts) := by
  rw [outline, bind_eq_ok]
  simp only [get_eq_ok]

theorem sketch_eq_ok : sketch (n + 1) active v heap = .ok form ↔
    ∃ o, heap.get? v = some o ∧
      ((isContainer o = true ∧ v ∈ active ∧ form = .mark (activeMark o)) ∨
        ¬ (isContainer o = true ∧ v ∈ active) ∧ ∃ head parts forms,
          outlineOf v o heap = .ok (head, parts) ∧
          List.Forall₂ (fun p f => sketch n (v :: active) p heap = .ok f) parts forms ∧
          form = .node head forms) := by
  rw [sketch, bind_eq_ok]
  simp only [get_eq_ok]
  refine exists_congr fun o => and_congr_right fun _ => ?_
  by_cases hactive : isContainer o = true ∧ v ∈ active
  · have hcond : (isContainer o && active.contains v) = true := by simpa using hactive
    rw [if_pos hcond, pure_eq_ok]
    grind
  · have hcond : ¬ (isContainer o && active.contains v) = true := by simpa using hactive
    rw [if_neg hcond, bind_eq_ok]
    simp only [bind_eq_ok, pure_eq_ok, mapM_eq_ok, Prod.exists]
    grind

/-- A mark stands for a value that was met on the way to it. -/
theorem leadsRound_of_marked (h : sketch n active v heap = .ok form) (hm : form.Marked) :
    ∃ w, ReflTransGen (Displays heap) v w ∧ (w ∈ active ∨ TransGen (Displays heap) w w) := by
  induction n generalizing active v form with
  | zero => cases h
  | succ n ih =>
    obtain ⟨o, ho, ⟨-, hmem, rfl⟩ | ⟨-, head, parts, forms, hout, hforms, rfl⟩⟩ := sketch_eq_ok.1 h
    · exact ⟨v, .refl, .inl hmem⟩
    · cases hm with
      | part hf hm =>
        obtain ⟨p, hp, hpart⟩ := exists_of_forall₂ hforms.flip hf
        have hvp : Displays heap v p := ⟨head, parts, outline_eq_ok.2 ⟨o, ho, hout⟩, hp⟩
        obtain ⟨w, hpw, hw | hround⟩ := ih hpart hm
        · rcases List.mem_cons.1 hw with rfl | hw
          · exact ⟨w, .refl, .inr (.head' hvp hpw)⟩
          · exact ⟨w, .head hvp hpw, .inl hw⟩
        · exact ⟨w, .head hvp hpw, .inr hround⟩

/-- Without a mark, the structure is the whole structure. -/
theorem unfolds_of_not_marked (h : sketch n active v heap = .ok form) (hm : ¬ form.Marked) :
    Unfolds heap v form := by
  induction n generalizing active v form with
  | zero => cases h
  | succ n ih =>
    obtain ⟨o, ho, ⟨-, -, rfl⟩ | ⟨-, head, parts, forms, hout, hforms, rfl⟩⟩ := sketch_eq_ok.1 h
    · exact absurd (.mark _) hm
    · refine .node (outline_eq_ok.2 ⟨o, ho, hout⟩) ?_
      exact forall₂_mono hforms fun p _ f hf hpart => ih hpart fun hmf => hm (.part hf hmf)

/-- A structure that is written out in full has an end everywhere. -/
theorem Unfolds.acc {form : Form} {v : Handle} (h : Unfolds heap v form) :
    Acc (flip (Displays heap)) v := by
  cases h with
  | @node _ head parts forms hout hforms =>
    refine .intro v fun p ⟨head', parts', hout', hp⟩ => ?_
    obtain ⟨-, rfl⟩ := Prod.mk.inj (Except.ok.inj (hout.symm.trans hout'))
    obtain ⟨f, hf, hpart⟩ := exists_of_forall₂ hforms hp
    exact hpart.acc
termination_by form

theorem Unfolds.not_leadsRound (h : Unfolds heap v form) : ¬ LeadsRound heap v := by
  rintro ⟨w, hvw, hround⟩
  refine not_transGen_self ?_ hround
  clear hround
  induction hvw with
  | refl => exact h.acc
  | tail _ hstep ih => exact ih.inv hstep

theorem Unfolds.unique {form' : Form} (h : Unfolds heap v form) (h' : Unfolds heap v form') :
    form = form' := by
  induction h.acc generalizing form form' with
  | intro v _ ih =>
    cases h with
    | node hout hforms =>
      cases h' with
      | node hout' hforms' =>
        obtain ⟨rfl, rfl⟩ := Prod.mk.inj (Except.ok.inj (hout.symm.trans hout'))
        congr 1
        refine eq_of_forall₂ hforms hforms' fun p hp f f' hf hf' => ?_
        exact ih p ⟨_, _, hout, hp⟩ hf hf'

theorem Unfolds.not_marked (h : Unfolds heap v form) : ¬ form.Marked := by
  intro hm
  induction h.acc generalizing form with
  | intro v _ ih =>
    cases h with
    | node hout hforms =>
      cases hm with
      | part hf hm =>
        obtain ⟨p, hp, hpart⟩ := exists_of_forall₂ hforms.flip hf
        exact ih p ⟨_, _, hout, hp⟩ hpart hm

/-- **Marks.** There is a mark just where following the text form leads to a value that contains
itself; and otherwise the structure is the whole structure. -/
theorem marked_iff (h : sketch n [] v heap = .ok form) :
    (form.Marked ↔ LeadsRound heap v) ∧ (¬ LeadsRound heap v → Unfolds heap v form) := by
  have hround : form.Marked → LeadsRound heap v := fun hm => by
    obtain ⟨w, hvw, hw | hround⟩ := leadsRound_of_marked h hm
    · cases hw
    · exact ⟨w, hvw, hround⟩
  have hfull : ¬ form.Marked → Unfolds heap v form := unfolds_of_not_marked h
  refine ⟨⟨hround, fun hr => ?_⟩, fun hr => hfull (mt hround hr)⟩
  by_contra hm
  exact (hfull hm).not_leadsRound hr

/-! ## How deep writing goes -/

theorem Unfolds.isCurrent (h : Unfolds heap v form) {w : Handle}
    (hvw : ReflTransGen (Displays heap) v w) : heap.isCurrent w = true := by
  obtain ⟨form, h⟩ : ∃ form, Unfolds heap w form := by
    induction hvw with
    | refl => exact ⟨form, h⟩
    | tail _ hstep ih =>
      obtain ⟨form, h⟩ := ih
      obtain ⟨hout, hforms⟩ := h
      obtain ⟨head, parts, hout', hp⟩ := hstep
      obtain ⟨-, rfl⟩ := Prod.mk.inj (Except.ok.inj (hout.symm.trans hout'))
      obtain ⟨f, -, hf⟩ := exists_of_forall₂ hforms hp
      exact ⟨f, hf⟩
  obtain ⟨hout, -⟩ := h
  obtain ⟨o, ho, -⟩ := outline_eq_ok.1 hout
  exact Arena.isCurrent_iff.2 ⟨o, ho⟩

theorem Unfolds.sketch_eq (h : Unfolds heap v form) (hn : Nested (Displays heap) n v)
    (hactive : ∀ a ∈ active, TransGen (Displays heap) a v) :
    sketch n active v heap = .ok form := by
  induction n generalizing active v form with
  | zero => exact hn.elim
  | succ n ih =>
    have hacc := h.acc
    obtain ⟨hout, hforms⟩ := h
    rename_i head parts forms
    obtain ⟨o, ho, hout'⟩ := outline_eq_ok.1 hout
    refine sketch_eq_ok.2 ⟨o, ho, .inr ⟨fun hmem => ?_, head, parts, forms, hout', ?_, rfl⟩⟩
    · exact not_transGen_self hacc (hactive v hmem.2)
    · refine forall₂_mono hforms fun p hp f _ hf => ?_
      have hvp : Displays heap v p := ⟨head, parts, hout, hp⟩
      refine ih hf (hn p hvp) fun a ha => ?_
      rcases List.mem_cons.1 ha with rfl | ha
      · exact .single hvp
      · exact (hactive a ha).tail hvp

/-- **Structure.** A value that can be written out in full has the text form of its structure. -/
theorem Unfolds.repr_eq (h : Unfolds heap v form) : repr v heap = .ok form.text := by
  have hn : Nested (Displays heap) (heap.capacity + 1) v :=
    (nested_of_acc h.acc fun w => h.isCurrent).le (Nat.le_succ _)
  rw [repr, bind_of_ok (depth_eq_ok.2 rfl), reprWithin_eq_text,
    h.sketch_eq hn (List.forall_mem_nil _)]
  rfl

/-- What stops a query at a handle that cannot be read, or that is no dict where one is needed. -/
def Dangles (e : Halt) : Prop :=
  ∃ h, e = .violation (.staleHandle h) ∨ e = .violation (.notDict h)

variable {e : Halt}

theorem dangles_get {h : Handle} (he : get h heap = .error e) : Dangles e := by
  unfold get Arena.fetch at he
  cases ho : heap.get? h with
  | some o => simp only [ho] at he; cases he
  | none =>
    simp only [ho, Except.error.injEq] at he
    exact ⟨h, .inl he.symm⟩

theorem dangles_dict {h : Handle} (he : dict h heap = .error e) : Dangles e := by
  rcases bind_eq_error.1 he with he | ⟨o, -, he⟩
  · exact dangles_get he
  · split at he
    · cases he
    · exact ⟨h, .inr (Except.error.inj he).symm⟩

theorem dangles_typeName {h : Handle} (he : typeName h heap = .error e) : Dangles e := by
  rcases bind_eq_error.1 he with he | ⟨o, -, he⟩
  · exact dangles_get he
  · split at he
    · rcases bind_eq_error.1 he with he | ⟨o', -, he⟩
      · exact dangles_get he
      · split at he <;> cases he
    all_goals cases he

theorem dangles_outlineOf {o : Object} (he : outlineOf v o heap = .error e) : Dangles e := by
  unfold outlineOf at he
  split at he
  case h_10 =>
    rcases bind_eq_error.1 he with he | ⟨t, -, he⟩
    · exact dangles_dict he
    · cases he
  case h_14 | h_15 =>
    rcases bind_eq_error.1 he with he | ⟨t, -, he⟩
    · exact dangles_typeName he
    · cases he
  case h_19 =>
    rcases bind_eq_error.1 he with he | ⟨f, -, he⟩
    · exact dangles_get he
    · rcases bind_eq_error.1 he with he | ⟨f, -, he⟩
      · exact dangles_typeName he
      · cases he
  all_goals cases he

theorem isContainer_of_outlineOf {o : Object} {head : Head} {parts : List Handle} {p : Handle}
    (h : outlineOf v o heap = .ok (head, parts)) (hp : p ∈ parts) : isContainer o = true := by
  have hnone : ∀ {shown : Head}, (pure (shown, []) : Query (Head × List Handle)) heap ≠
      .ok (head, parts) := fun h => by
    obtain ⟨-, rfl⟩ := Prod.mk.inj (pure_eq_ok.1 h)
    cases hp
  cases o with
  | list | tuple | dict | set | view => rfl
  | userInstance | iter =>
    obtain ⟨_, -, h⟩ := bind_eq_ok.1 h
    exact absurd h hnone
  | boundMethod =>
    obtain ⟨_, -, h⟩ := bind_eq_ok.1 h
    obtain ⟨_, -, h⟩ := bind_eq_ok.1 h
    exact absurd h hnone
  | function _ entry => cases entry <;> exact absurd h hnone
  | _ => exact absurd h hnone

/-- **Termination.** However the values of a heap contain each other, writing stops only where it
meets a broken handle: the containers that it has gone into are different cells. -/
theorem sketch_ends {entered : List Handle} (hnodup : entered.Nodup)
    (hcur : ∀ h ∈ entered, heap.isCurrent h = true) (hsub : entered ⊆ active)
    (hn : heap.capacity < entered.length + n) (he : sketch n active v heap = .error e) :
    Dangles e := by
  induction n generalizing active entered v with
  | zero => exact absurd (heap.length_le_capacity hnodup hcur) (Nat.not_le.2 hn)
  | succ n ih =>
    rcases bind_eq_error.1 he with he | ⟨o, ho, he⟩
    · exact dangles_get he
    · split at he
      · cases he
      · rename_i hactive
        rcases bind_eq_error.1 he with he | ⟨⟨head, parts⟩, hout, he⟩
        · exact dangles_outlineOf he
        rcases bind_eq_error.1 he with he | ⟨forms, -, he⟩
        · obtain ⟨p, hp, he⟩ := error_of_mapM he
          have hc := isContainer_of_outlineOf hout hp
          have hv : v ∉ active := by simpa [hc] using hactive
          refine ih (List.nodup_cons.2 ⟨fun hm => hv (hsub hm), hnodup⟩) ?_
            (List.cons_subset_cons v hsub) ?_ he
          · exact List.forall_mem_cons.2 ⟨Arena.isCurrent_iff.2 ⟨o, get_eq_ok.1 ho⟩, hcur⟩
          · rw [List.length_cons]
            omega
        · cases he

/-- The same for text forms, inside any containers. -/
theorem reprWithin_ends (hn : heap.capacity < n) (he : reprWithin n active v heap = .error e) :
    Dangles e := by
  rw [reprWithin_eq_text] at he
  cases h : sketch n active v heap with
  | ok form =>
    rw [h] at he
    cases he
  | error e' =>
    rw [h] at he
    obtain rfl := Except.error.inj he
    refine sketch_ends List.nodup_nil (List.forall_mem_nil _) (List.nil_subset active) ?_ h
    rwa [List.length_nil, Nat.zero_add]

end Rounds

end Heap

end ObjectSpace
