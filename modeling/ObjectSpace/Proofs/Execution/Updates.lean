import ObjectSpace.Proofs.Effects.Refilling
import ObjectSpace.Proofs.Execution.Draining
import ObjectSpace.Proofs.Execution.Enumerating
import ObjectSpace.Proofs.Execution.Evaluations
import ObjectSpace.Proofs.Execution.SetAlgebra
import ObjectSpace.Proofs.Run.Atomic
import ObjectSpace.Proofs.Safety.Methods
import ObjectSpace.Proofs.Value.DictEdits

/-!
# Changes of dicts and sets that fail

A change of one entry, member or item has no effect when it fails. An update of a dict or a set from
other values does what it can: it goes through them in order and stops at the first that is not
iterable or has no hash, and all before that is done (`DictUpdated`, `SetUpdated`).

**Theorem (`failures_leave_prefix`).** This holds in all runs on live handles. An update of a dict
reads its source whole before it begins. From a dict or a set, so also from itself, an update never
fails.

The loops are alike: each step files a value under a key, and it fails when the key has no hash and
only then (`Filing`). Which keys have a hash stays the same as the container is filled, so the first
without one can be told before the loop begins (`Filing.ends`).
-/

namespace ObjectSpace

open Space

/-- An item that is a list or tuple of two elements. -/
def Heap.IsPair (heap : Heap) (item : Handle) (p : Handle × Handle) : Prop :=
  ∃ o, heap.Has item o ∧ o.asSequence? = some #[p.1, p.2]

namespace Space

/-! ## How an update ends -/

/-- A loop stops at the first value whose key has no hash. Those before it are done. -/
def StopsAt {γ : Type} (step : γ → Action Unit) (key : γ → Handle) (l : List γ) (s : Space)
    (e : Halt) (s' : Space) : Prop :=
  ∃ done x rest, l = done ++ x :: rest ∧ (∀ y ∈ done, s.Hashable (key y)) ∧
    Heap.hash (key x) s.heap = .error e ∧ done.forM step s = .ok () s'

/-- The pairs that a source has, and the space once they are read. -/
inductive HasPairs (source : Handle) (s : Space) : List (Handle × Handle) → Space → Prop
  | dict {t : Table (Handle × Handle)} : s.heap.Has source (.dict t) →
      HasPairs source s t.toList s
  | other {items : Array Handle} {pairs : List (Handle × Handle)} {s₁ : Space} :
      ¬ s.IsDict source → collect source s = .ok items s₁ →
      List.Forall₂ s₁.heap.IsPair items.toList pairs → HasPairs source s pairs s₁

/-- How an update of a dict ends, where `value` is what it gives. -/
inductive DictUpdated {α : Type} (value : Space → α) (d source : Handle) (s : Space) :
    EStateM.Result Halt Space α → Prop
  | notIterable {o : Object} {name : String} : s.heap.Has source o → ¬ o.Iterable →
      DictUpdated value d source s (.error (.fatal (.notIterable name)) s)
  /-- Nothing but iterators has changed. -/
  | notPair {items : Array Handle} {s₁ : Space} {x : Handle} {e : Diagnostic} :
      ¬ s.IsDict source → collect source s = .ok items s₁ → x ∈ items.toList →
      (∀ p, ¬ s₁.heap.IsPair x p) → Spares s s₁ →
      DictUpdated value d source s (.error (.fatal e) s₁)
  | noHash {pairs : List (Handle × Handle)} {s₁ s' : Space} {e : Halt} :
      HasPairs source s pairs s₁ → Spares s s₁ →
      StopsAt (fun p => dictInsert d p.1 p.2) Prod.fst pairs s₁ e s' →
      DictUpdated value d source s (.error e s')
  | done {pairs : List (Handle × Handle)} {s₁ s' : Space} :
      HasPairs source s pairs s₁ → (∀ p ∈ pairs, s₁.Hashable p.1) →
      insertPairs d pairs s₁ = .ok () s' → DictUpdated value d source s (.ok (value s') s')

/-- How a set is changed by each item of some sources. -/
inductive SetUpdated (step : Handle → Action Unit) :
    List Handle → Space → EStateM.Result Halt Space Handle → Prop
  | nil {s : Space} : SetUpdated step [] s (.ok s.noneValue s)
  | notIterable {source : Handle} {rest : List Handle} {s : Space} {o : Object} {name : String} :
      s.heap.Has source o → ¬ o.Iterable →
      SetUpdated step (source :: rest) s (.error (.fatal (.notIterable name)) s)
  | noHash {source : Handle} {rest : List Handle} {s s₁ s' : Space} {items : Array Handle}
      {e : Halt} : collect source s = .ok items s₁ → StopsAt step id items.toList s₁ e s' →
      SetUpdated step (source :: rest) s (.error e s')
  | next {source : Handle} {rest : List Handle} {s s₁ s₂ : Space} {items : Array Handle}
      {r : EStateM.Result Halt Space Handle} : collect source s = .ok items s₁ →
      (∀ x ∈ items.toList, s₁.Hashable x) → items.toList.forM step s₁ = .ok () s₂ →
      SetUpdated step rest s₂ r → SetUpdated step (source :: rest) s r

variable {γ : Type} {s s₁ s' : Space} {d u v key value x source : Handle}
  {step : γ → Action Unit} {l : List γ} {e : Halt}

/-! ## Loops that file values -/

/-- Each step fails when the key has no hash, and only then. `Ready` is what it asks of the space,
and it stays as steps are done. -/
structure Filing (step : γ → Action Unit) (key : γ → Handle) (Ready : Space → γ → Prop) : Prop where
  live : ∀ {s x}, Ready s x → s.heap.isLive (key x) = true
  fails : ∀ {s x e}, Heap.hash (key x) s.heap = .error e → step x s = .error e s
  succeeds : ∀ {s x}, Ready s x → s.Hashable (key x) → ∃ s', step x s = .ok () s' ∧
    Heap.Refilled s.heap s'.heap ∧ ∀ y, Ready s y → Ready s' y

/-- A loop does all values, or it stops at the first whose key has no hash. -/
theorem Filing.ends {key : γ → Handle} {Ready : Space → γ → Prop} (f : Filing step key Ready)
    (hr : ∀ x ∈ l, Ready s x) :
    ((∀ x ∈ l, s.Hashable (key x)) ∧
      ∃ s', l.forM step s = .ok () s' ∧ ∀ y, Ready s y → Ready s' y) ∨
      ∃ e s', StopsAt step key l s e s' ∧ l.forM step s = .error e s' := by
  induction l generalizing s with
  | nil => exact .inl ⟨List.forall_mem_nil _, s, rfl, fun _ => id⟩
  | cons x l ih =>
    rw [List.forall_mem_cons] at hr
    obtain ⟨hx, hl⟩ := hr
    cases hhash : Heap.hash (key x) s.heap with
    | error e =>
      have hstop : (x :: l).forM step s = .error e s := bind_of_error (f.fails hhash)
      exact .inr ⟨e, s, ⟨[], x, l, rfl, List.forall_mem_nil _, hhash, rfl⟩, hstop⟩
    | ok h =>
      have hkey : s.Hashable (key x) := ⟨f.live hx, h, hhash⟩
      obtain ⟨s₁, hstep, hfill, hready⟩ := f.succeeds hx hkey
      -- hashes are the same before and after the step
      have hback : ∀ y ∈ l, s₁.Hashable (key y) → s.Hashable (key y) := fun y hy ⟨_, h, hh⟩ =>
        ⟨f.live (hl y hy), h, (hfill.hash_eq _).trans hh⟩
      rcases ih fun y hy => hready y (hl y hy) with
        ⟨hall, s', hs', hready'⟩ | ⟨e, s', ⟨done, y, rest, rfl, hdone, hy, hs'⟩, herror⟩
      · refine .inl ⟨List.forall_mem_cons.2 ⟨hkey, fun y hy => hback y hy (hall y hy)⟩, s', ?_⟩
        exact ⟨(bind_of_ok hstep).trans hs', fun y hy => hready' y (hready y hy)⟩
      · refine .inr ⟨e, s', ⟨x :: done, y, rest, rfl, ?_, (hfill.hash_eq _).trans hy, ?_⟩, ?_⟩
        · refine List.forall_mem_cons.2 ⟨hkey, fun z hz => hback z ?_ (hdone z hz)⟩
          exact List.mem_append_left _ hz
        · exact (bind_of_ok hstep).trans hs'
        · exact (bind_of_ok hstep).trans herror

/-! ## Steps -/

theorem dictPlace_error {heap : Heap} (h : Heap.hash key heap = .error e) :
    Heap.dictPlace d key heap = .error e :=
  Heap.bind_of_error h

theorem setPlace_error {heap : Heap} (h : Heap.hash key heap = .error e) :
    Heap.setPlace u key heap = .error e :=
  Heap.bind_of_error h

namespace Firm

open Trust

variable (i : s.Firm)

include i

/-- A key with a hash has a place in a dict or is missing. -/
theorem dictPlace_total {t : Table (Handle × Handle)} (hd : s.heap.Has d (.dict t))
    (hkey : s.Hashable key) : ∃ p, Heap.dictPlace d key s.heap = .ok p := by
  obtain ⟨hlive, h, hh⟩ := hkey
  have htest : ∀ y ∈ t.bucket h,
      ∃ r, (fun e => Heap.equal e.1 key : Handle × Handle → Query Bool) y s.heap = .ok r :=
    fun y hy => i.equal_stored hd (Table.mem_filings.2 ⟨y, hy, rfl⟩) hlive hh
  rcases Heap.findPlace_ok htest with ⟨j, y, hj, -, -⟩ | ⟨hnone, -⟩
  · exact ⟨_, Heap.dictPlace_eq_ok.2 ⟨hh, t, hd.2, hj⟩⟩
  · exact ⟨_, Heap.dictPlace_eq_ok.2 ⟨hh, t, hd.2, hnone⟩⟩

theorem setPlace_total {t : Table Handle} (hu : s.heap.Has u (.set t)) (hkey : s.Hashable key) :
    ∃ p, Heap.setPlace u key s.heap = .ok p := by
  obtain ⟨hlive, h, hh⟩ := hkey
  have htest : ∀ y ∈ t.bucket h, ∃ r, Heap.equal y key s.heap = .ok r :=
    fun y hy => i.equal_stored hu (Table.mem_filings.2 ⟨y, hy, rfl⟩) hlive hh
  rcases Heap.findPlace_ok htest with ⟨j, y, hj, -, -⟩ | ⟨hnone, -⟩
  · exact ⟨_, Heap.setPlace_eq_ok.2 ⟨hh, t, hu.2, hj⟩⟩
  · exact ⟨_, Heap.setPlace_eq_ok.2 ⟨hh, t, hu.2, hnone⟩⟩

omit i in
theorem updateDict_total {t : Table (Handle × Handle)} (hd : s.heap.Has d (.dict t))
    (f : Table (Handle × Handle) → Table (Handle × Handle)) : Succeeds s (updateDict d f) :=
  ⟨(), _, (ask_bind_of_ok (Heap.dict_eq_ok.2 hd.2)).trans (update_eq hd.2 _)⟩

omit i in
theorem updateSet_total {t : Table Handle} (hu : s.heap.Has u (.set t))
    (f : Table Handle → Table Handle) : Succeeds s (updateSet u f) :=
  ⟨(), _, (ask_bind_of_ok (Heap.set_eq_ok.2 hu.2)).trans (update_eq hu.2 _)⟩

theorem dictInsert_total {t : Table (Handle × Handle)} (hd : s.heap.Has d (.dict t))
    (hkey : s.Hashable key) : Succeeds s (dictInsert d key value) := by
  obtain ⟨⟨h, place⟩, hp⟩ := i.dictPlace_total hd hkey
  rw [dictInsert, Succeeds, ask_bind_of_ok hp]
  cases place with
  | none => exact updateDict_total hd _
  | some j => exact updateDict_total hd _

theorem setInsert_total {t : Table Handle} (hu : s.heap.Has u (.set t)) (hkey : s.Hashable key) :
    Succeeds s (setInsert u key) := by
  obtain ⟨⟨h, place⟩, hp⟩ := i.setPlace_total hu hkey
  rw [setInsert, Succeeds, ask_bind_of_ok hp]
  cases place with
  | none =>
    obtain ⟨_, s', hs'⟩ := updateSet_total hu fun members => members.push h key
    exact ⟨_, _, bind_of_ok hs'⟩
  | some j => exact ⟨_, _, rfl⟩

theorem setRemove_total {t : Table Handle} (hu : s.heap.Has u (.set t)) (hkey : s.Hashable key) :
    Succeeds s (setRemove u key) := by
  obtain ⟨⟨h, place⟩, hp⟩ := i.setPlace_total hu hkey
  rw [setRemove, Succeeds, ask_bind_of_ok hp]
  cases place with
  | none => exact ⟨_, _, rfl⟩
  | some j =>
    obtain ⟨_, s', hs'⟩ := updateSet_total hu fun members => members.erase h j
    exact ⟨_, _, bind_of_ok hs'⟩

end Firm

/-- A dict that pairs can be put into. -/
def TakesPair (d : Handle) (s : Space) (p : Handle × Handle) : Prop :=
  s.Firm ∧ s.IsDict d ∧ s.heap.isLive p.1 = true ∧ s.heap.isLive p.2 = true

/-- A set that values can be put into. -/
def TakesItem (u : Handle) (s : Space) (x : Handle) : Prop :=
  s.Firm ∧ s.IsSet u ∧ s.heap.isLive x = true

theorem filing_dictInsert (d : Handle) :
    Filing (fun p => dictInsert d p.1 p.2) Prod.fst (TakesPair d) where
  live h := h.2.2.1
  fails h := bind_of_error (ask_of_error (dictPlace_error h))
  succeeds := by
    intro s p ⟨i, ⟨t, hd⟩, hkey, hvalue⟩ hhash
    obtain ⟨⟨⟩, s', hs'⟩ : Succeeds s (dictInsert d p.1 p.2) := i.dictInsert_total hd hhash
    have hr := (Trust.runs_dictInsert (T := firmTrust) hd.1 hkey hvalue).result i
    have hfill := keeps_dictInsert (refilled_fill s.heap d) p.1 p.2 s (.refl _)
    rw [hs'] at hr hfill
    obtain ⟨l, -⟩ := hr
    refine ⟨s', hs', hfill, fun q hq => ⟨l.holds, l.kept.dict hd, ?_, ?_⟩⟩
    · exact l.ok_mono _ hq.2.2.1
    · exact l.ok_mono _ hq.2.2.2

theorem filing_set {change : Handle → Action Bool}
    (hfails : ∀ {s x e}, Heap.hash x s.heap = .error e → change x s = .error e s)
    (htotal : ∀ {s : Space} (_ : s.Firm) {t x}, s.heap.Has u (.set t) → s.Hashable x →
      Succeeds s (change x))
    (hruns : ∀ {s : Space} {x}, s.heap.isLive u = true → s.heap.isLive x = true →
      firmTrust.Runs s (change x))
    (hfill : ∀ a x, Keeps (fun s => Heap.Refilled a s.heap) (change x)) :
    Filing (fun x => do let _ ← change x) id (TakesItem u) where
  live h := h.2.2
  fails h := bind_of_error (hfails h)
  succeeds := by
    intro s x ⟨i, ⟨t, hu⟩, hx⟩ hhash
    obtain ⟨b, s', hs'⟩ : Succeeds s (change x) := htotal i hu hhash
    have hr := (hruns hu.1 hx).result i
    have hfill := hfill s.heap x s (.refl _)
    rw [hs'] at hr hfill
    obtain ⟨l, -⟩ := hr
    refine ⟨s', bind_of_ok hs', hfill, fun y hy => ⟨l.holds, l.kept.set hu, ?_⟩⟩
    exact l.ok_mono _ hy.2.2

theorem filing_setInsert (u : Handle) :
    Filing (fun x => do let _ ← setInsert u x) id (TakesItem u) :=
  filing_set (fun h => bind_of_error (ask_of_error (setPlace_error h)))
    (fun i _ _ hu hx => i.setInsert_total hu hx) (fun hu hx => Trust.runs_setInsert hu hx)
    fun a x => keeps_setInsert (refilled_fill a u) x

theorem filing_setRemove (u : Handle) :
    Filing (fun x => do let _ ← setRemove u x) id (TakesItem u) :=
  filing_set (fun h => bind_of_error (ask_of_error (setPlace_error h)))
    (fun i _ _ hu hx => i.setRemove_total hu hx) (fun hu hx => Trust.runs_setRemove hu hx)
    fun a x => keeps_setRemove (refilled_fill a u) x

/-! ## Updates of dicts -/

theorem pairOf_eq_ok {p : Handle × Handle} (hx : s.heap.isLive x = true) :
    pairOf x s.heap = .ok p ↔ s.heap.IsPair x p := by
  constructor
  · intro h
    obtain ⟨o, ho, hrest⟩ := Heap.bind_eq_ok.1 h
    rw [Heap.get_eq_ok] at ho
    generalize hlist : o.asSequence?.map (·.toList) = l at hrest
    rcases l with _ | _ | ⟨k, _ | ⟨w, _ | ⟨y, l⟩⟩⟩
    case some.cons.cons.nil =>
      obtain ⟨items, hseq, hkw⟩ := Option.map_eq_some_iff.1 hlist
      obtain rfl : (k, w) = p := Heap.pure_eq_ok.1 hrest
      obtain rfl : items = #[k, w] := Array.toList_inj.1 hkw
      exact ⟨o, ⟨hx, ho⟩, hseq⟩
    all_goals
      obtain ⟨text, -, hfatal⟩ := Heap.bind_eq_ok.1 hrest
      cases hfatal
  · rintro ⟨o, ho, hseq⟩
    rw [pairOf, Heap.bind_of_ok (Heap.get_eq_ok.2 ho.2), hseq]
    rfl

/-- What is no pair is refused. -/
theorem pairOf_ends (i : s.Firm) (hx : s.heap.isLive x = true) :
    (∃ p, s.heap.IsPair x p ∧ pairOf x s.heap = .ok p) ∨
      (∀ p, ¬ s.heap.IsPair x p) ∧ ∃ e, pairOf x s.heap = .error (.fatal e) := by
  cases hresult : pairOf x s.heap with
  | ok p => exact .inl ⟨p, (pairOf_eq_ok hx).1 hresult, rfl⟩
  | error e =>
    refine .inr ⟨fun p hp => ?_, ?_⟩
    · rw [(pairOf_eq_ok hx).2 hp] at hresult
      cases hresult
    · cases (i.calm_pairOf (E := False) hx).proper e hresult with
      | fatal e => exact ⟨e, rfl⟩
      | endless h => exact h.elim

theorem mapM_pairOf_ends (i : s.Firm) {items : List Handle}
    (hi : ∀ x ∈ items, s.heap.isLive x = true) :
    (∃ pairs, List.Forall₂ s.heap.IsPair items pairs ∧
      (items.mapM fun item => (liftM (pairOf item) : Action _)) s = .ok pairs s) ∨
    ∃ x ∈ items, (∀ p, ¬ s.heap.IsPair x p) ∧
      ∃ e, (items.mapM fun item => (liftM (pairOf item) : Action _)) s = .error (.fatal e) s := by
  induction items with
  | nil => exact .inl ⟨[], .nil, by rw [List.mapM_nil]; rfl⟩
  | cons x items ih =>
    rw [List.forall_mem_cons] at hi
    rw [List.mapM_cons]
    rcases pairOf_ends i hi.1 with ⟨p, hp, hread⟩ | ⟨hnone, e, hread⟩
    · rcases ih hi.2 with ⟨pairs, hpairs, hrest⟩ | ⟨y, hy, hnone, e, hrest⟩
      · refine .inl ⟨p :: pairs, .cons hp hpairs, ?_⟩
        rw [ask_bind_of_ok hread, bind_of_ok hrest]
        rfl
      · refine .inr ⟨y, List.mem_cons_of_mem x hy, hnone, e, ?_⟩
        rw [ask_bind_of_ok hread, bind_of_error hrest]
    · exact .inr ⟨x, List.mem_cons_self, hnone, e, bind_of_error (ask_of_error hread)⟩

theorem live_of_isPair (i : s.Firm) {p : Handle × Handle} (h : s.heap.IsPair x p) :
    s.heap.isLive p.1 = true ∧ s.heap.isLive p.2 = true := by
  obtain ⟨o, ho, hseq⟩ := h
  obtain ⟨o', ho', hlive⟩ := i.sound.get? ho.1
  obtain rfl : o = o' := Option.some.inj (ho.2.symm.trans ho')
  cases o with
  | list items | tuple items =>
    obtain rfl := Option.some.inj hseq
    exact ⟨hlive _ (by simp [Object.children]), hlive _ (by simp [Object.children])⟩
  | _ => cases hseq

theorem live_of_pairs (i : s.Firm) {items : List Handle} {pairs : List (Handle × Handle)}
    (h : List.Forall₂ s.heap.IsPair items pairs) :
    ∀ p ∈ pairs, s.heap.isLive p.1 = true ∧ s.heap.isLive p.2 = true := by
  induction h with
  | nil => exact List.forall_mem_nil _
  | cons hp _ ih => exact List.forall_mem_cons.2 ⟨live_of_isPair i hp, ih⟩

section Dicts

variable (i : s.Firm) {t : Table (Handle × Handle)} (hd : s.heap.Has d (.dict t))

include i hd

theorem takes_entries (hu : s.IsDict u) : ∀ p ∈ t.toList, TakesPair u s p := by
  intro p hp
  obtain ⟨o, ho, hlive⟩ := i.sound.get? hd.1
  obtain rfl : .dict t = o := Option.some.inj (hd.2.symm.trans ho)
  refine ⟨i, hu, hlive _ ?_, hlive _ ?_⟩
  · exact List.mem_flatMap.2 ⟨p, hp, List.mem_cons_self⟩
  · exact List.mem_flatMap.2 ⟨p, hp, List.mem_cons_of_mem _ List.mem_cons_self⟩

omit i in
theorem pairsOf_dict : pairsOf d s = .ok t.toList s := by
  rw [pairsOf, get_bind_of_has hd]
  rfl

omit i hd in
theorem insertPairs_ends {pairs : List (Handle × Handle)} (hp : HasPairs source s pairs s₁)
    (hspare : Spares s s₁) (hread : pairsOf source s = .ok pairs s₁)
    (hr : ∀ p ∈ pairs, TakesPair d s₁ p) :
    DictUpdated (fun _ => ()) d source s (dictUpdate d source s) := by
  have hupdate : dictUpdate d source s = insertPairs d pairs s₁ := bind_of_ok hread
  rw [hupdate]
  rcases (filing_dictInsert d).ends hr with ⟨hall, s', hs', -⟩ | ⟨e, s', hstop, herror⟩
  · have hs' : insertPairs d pairs s₁ = .ok () s' := hs'
    rw [hs']
    exact .done hp hall hs'
  · have herror : insertPairs d pairs s₁ = .error e s' := herror
    rw [herror]
    exact .noHash hp hspare hstop

/-- How an update of a dict from a live value ends. -/
theorem dictUpdate_ends (hv : s.heap.isLive source = true) :
    DictUpdated (fun _ => ()) d source s (dictUpdate d source s) := by
  obtain ⟨o, ho, -⟩ := i.sound.get? hv
  have hsource : s.heap.Has source o := ⟨hv, ho⟩
  by_cases hdict : s.IsDict source
  · obtain ⟨u, hu⟩ := hdict
    exact insertPairs_ends (.dict hu) (.refl i.sound.roomy) (pairsOf_dict hu)
      (takes_entries i hu ⟨t, hd⟩)
  · have hother : pairsOf source s = (do
        (← collect source).toList.mapM fun item => (liftM (pairOf item) : Action _)) s := by
      rw [pairsOf, get_bind_of_has hsource]
      cases o with
      | dict u => exact absurd ⟨u, hsource⟩ hdict
      | _ => rfl
    rcases i.collect_ends hsource with ⟨-, items, s₁, hitems⟩ | ⟨hno, name, herror⟩
    · obtain ⟨l₁, hlive⟩ := later_collect i hv hitems
      have hspares := spares_collect i hitems
      rw [bind_of_ok hitems] at hother
      rcases mapM_pairOf_ends l₁.holds hlive with
        ⟨pairs, hpairs, hread⟩ | ⟨x, hx, hnone, e, hread⟩
      · refine insertPairs_ends (.other hdict hitems hpairs) hspares (hother.trans hread) ?_
        intro p hp
        exact ⟨l₁.holds, l₁.kept.dict hd, live_of_pairs l₁.holds hpairs p hp⟩
      · have herror : dictUpdate d source s = .error (.fatal e) s₁ :=
          bind_of_error (hother.trans hread)
        rw [herror]
        exact .notPair hdict hitems hx hnone hspares
    · rw [bind_of_error herror] at hother
      have herror : dictUpdate d source s = .error (.fatal (.notIterable name)) s :=
        bind_of_error hother
      rw [herror]
      exact .notIterable hsource hno

omit i hd in
theorem DictUpdated.nothing {act : Action Unit} (h : DictUpdated (fun _ => ()) d source s (act s)) :
    DictUpdated Space.noneValue d source s ((act >>= fun _ => Space.nothing) s) := by
  generalize hact : act s = result at h
  cases h with
  | notIterable ho hno =>
    rw [bind_of_error hact]
    exact .notIterable ho hno
  | notPair hdict hitems hx hnone hspares =>
    rw [bind_of_error hact]
    exact .notPair hdict hitems hx hnone hspares
  | noHash hp hspares hstop =>
    rw [bind_of_error hact]
    exact .noHash hp hspares hstop
  | done hp hall hs' =>
    rw [bind_of_ok hact]
    exact .done hp hall hs'

/-- An update from a dict never fails. -/
theorem dictUpdate_dict (hu : s.IsDict u) : Succeeds s (dictUpdate u d) := by
  have hupdate : dictUpdate u d s = insertPairs u t.toList s := bind_of_ok (pairsOf_dict hd)
  rcases (filing_dictInsert u).ends (takes_entries i hd hu) with ⟨-, s', hs', -⟩ |
    ⟨e, s', ⟨done, p, rest, hl, -, hhash, -⟩, -⟩
  · exact ⟨(), s', hupdate.trans hs'⟩
  · obtain ⟨κ, k⟩ := entry_keyed i.toOrdered hd (hl ▸ List.mem_append_right _ List.mem_cons_self)
    obtain ⟨-, h, hh⟩ := i.toOrdered.hashable_of_keyed k
    rw [hh] at hhash
    cases hhash

end Dicts

/-! ## Updates of sets -/

/-- Change a set by every item of a source. -/
def each (step : Handle → Action Unit) (source : Handle) : Action Unit := do
  (← collect source).toList.forM step

section Sets

variable {step : Handle → Action Unit} (f : Filing step id (TakesItem u))

include f

/-- How a set is changed by each item of some live values. -/
theorem setUpdated_ends (sources : List Handle) (hs : ∀ x ∈ sources, TakesItem u s x) :
    SetUpdated step sources s ((sources.forM (each step) >>= fun _ => nothing) s) := by
  induction sources generalizing s with
  | nil => exact .nil
  | cons source sources ih =>
    rw [List.forall_mem_cons] at hs
    obtain ⟨⟨i, ⟨t, hu⟩, hv⟩, hrest⟩ := hs
    obtain ⟨o, ho, -⟩ := i.sound.get? hv
    have hforM : ((source :: sources).forM (each step) >>= fun _ => nothing) =
        each step source >>= fun _ => sources.forM (each step) >>= fun _ => nothing :=
      bind_assoc ..
    rw [hforM]
    rcases i.collect_ends ⟨hv, ho⟩ with ⟨-, items, s₁, hitems⟩ | ⟨hno, name, herror⟩
    · obtain ⟨l₁, hlive⟩ := later_collect i hv hitems
      have htakes : ∀ x, s₁.heap.isLive x = true → TakesItem u s₁ x := fun x hx =>
        ⟨l₁.holds, l₁.kept.set hu, hx⟩
      have heach : each step source s = items.toList.forM step s₁ := bind_of_ok hitems
      rcases f.ends fun x hx => htakes x (hlive x hx) with
        ⟨hall, s₂, hs₂, hready⟩ | ⟨e, s₂, hstop, herror⟩
      · rw [bind_of_ok (heach.trans hs₂)]
        refine .next hitems hall hs₂ (ih fun x hx => hready x (htakes x ?_))
        exact l₁.ok_mono x (hrest x hx).2.2
      · rw [bind_of_error (heach.trans herror)]
        exact .noHash hitems hstop
    · have heach : each step source s = .error (.fatal (.notIterable name)) s :=
        bind_of_error herror
      rw [bind_of_error heach]
      exact .notIterable ⟨hv, ho⟩ hno

/-- Going through the members of the set itself never fails. -/
theorem setUpdated_self (i : s.Firm) (hu : s.IsSet u) {sources : List Handle}
    (hs : ∀ x ∈ sources, x = u) : Succeeds s (sources.forM (each step)) := by
  induction sources generalizing s with
  | nil => exact succeeds_pure ()
  | cons source sources ih =>
    rw [List.forall_mem_cons] at hs
    obtain ⟨rfl, hs⟩ := hs
    obtain ⟨t, ht⟩ := hu
    obtain ⟨o, ho, hlive⟩ := i.sound.get? ht.1
    obtain rfl : .set t = o := Option.some.inj (ht.2.symm.trans ho)
    have heach : each step source s = t.toList.forM step s := bind_of_ok (collect_set ht)
    rcases f.ends (l := t.toList) fun x hx => ⟨i, ⟨t, ht⟩, hlive x hx⟩ with
      ⟨-, s', hs', hready⟩ | ⟨e, s', ⟨done, x, rest, hl, -, hhash, -⟩, -⟩
    · obtain ⟨i', hu', -⟩ := hready source ⟨i, ⟨t, ht⟩, ht.1⟩
      obtain ⟨a, s₁, hs₁⟩ := ih i' hu' hs
      exact ⟨a, s₁, (bind_of_ok (heach.trans hs')).trans hs₁⟩
    · obtain ⟨κ, k⟩ := member_keyed i.toOrdered ht (hl ▸ List.mem_append_right _ List.mem_cons_self)
      obtain ⟨-, h, hh⟩ := i.toOrdered.hashable_of_keyed k
      rw [id, hh] at hhash
      cases hhash

end Sets

/-! ## Failures in runs -/

end Space

/-- The mutations of one item, entry or member. -/
def Mutation.Single : Mutation → Prop
  | setItem .. | deleteItem _ | dictInsert .. | dictRemove _ | setInsert _ | setRemove _
  | dict .pop _ | set .add _ | set .discard _ | set .remove _ => True
  | _ => False

namespace Space

variable {s s' : Space} {settings : Settings} {disk : Disk}

theorem atomic_single {m : Mutation} (hm : m.Single) (w : Handle) : Atomic s (m.run w) := by
  cases m with
  | setItem key value => exact atomic_returned (atomic_setItem w key value)
  | deleteItem key => exact atomic_returned (atomic_deleteItem w key)
  | dictInsert key value => exact atomic_returned (atomic_dictInsert w key value)
  | dictRemove key => exact atomic_returned (atomic_dictRemove w key)
  | setInsert member => exact atomic_returned (atomic_setInsert w member)
  | setRemove member => exact atomic_returned (atomic_setRemove w member)
  | dict m args =>
    refine atomic_returned (atomic_ask_bind fun o _ => ?_)
    cases o with
    | dict t =>
      refine atomic_dictMethod ?_ w t args
      rintro rfl
      exact hm
    | _ => exact atomic_ask _
  | set m args =>
    refine atomic_returned (atomic_ask_bind fun o _ => ?_)
    cases o with
    | set t =>
      refine atomic_setMethod ⟨?_, ?_⟩ w t args
      · rintro rfl
        exact hm
      · rintro rfl
        exact hm
    | _ => exact atomic_ask _
  | setAttribute | dictUpdate | list => exact hm.elim

/-- **Failures leave the completed prefix.** In a run on live handles a failing change of one item,
entry or member leaves the space as it is. An update of a dict from a live value and an update or
difference of a set with live values go through them in order and stop at the first that is not
iterable, is no pair or has no hash. Updating a dict from a dict, or a set from itself, succeeds. -/
theorem failures_leave_prefix (r : LiveRun settings disk s) :
    (∀ w (m : Mutation), m.Single → ∀ e s', m.run w s = .error e s' → s' = s) ∧
    (∀ d source, s.IsDict d → s.heap.isLive source = true →
      DictUpdated (fun _ => ()) d source s (dictUpdate d source s) ∧
      DictUpdated noneValue d source s (runMethod (.dict .update) d [source] s)) ∧
    (∀ u sources, s.IsSet u → (∀ x ∈ sources, s.heap.isLive x = true) →
      SetUpdated (fun x => do let _ ← setInsert u x) sources s
        (runMethod (.set .update) u sources s) ∧
      SetUpdated (fun x => do let _ ← setRemove u x) sources s
        (runMethod (.set .differenceUpdate) u sources s)) ∧
    (∀ d source, s.IsDict d → s.IsDict source → Succeeds s (dictUpdate d source) ∧
      Succeeds s (runMethod (.dict .update) d [source])) ∧
    ∀ u sources, s.IsSet u → (∀ x ∈ sources, x = u) →
      Succeeds s (runMethod (.set .update) u sources) ∧
      Succeeds s (runMethod (.set .differenceUpdate) u sources) := by
  have i := LiveRun.firm r
  have hdict : ∀ {d source}, s.IsDict d → runMethod (.dict .update) d [source] s =
      (dictUpdate d source >>= fun _ => nothing) s := fun ⟨_, hd⟩ => get_bind_of_has hd
  have hadd : ∀ {u sources}, s.IsSet u → runMethod (.set .update) u sources s =
      (sources.forM (each fun x => do let _ ← setInsert u x) >>= fun _ => nothing) s :=
    fun ⟨_, hu⟩ => get_bind_of_has hu
  have hremove : ∀ {u sources}, s.IsSet u → runMethod (.set .differenceUpdate) u sources s =
      (sources.forM (each fun x => do let _ ← setRemove u x) >>= fun _ => nothing) s :=
    fun ⟨_, hu⟩ => get_bind_of_has hu
  refine ⟨fun w m hm => atomic_single hm w, fun d source hd hv => ?_, fun u sources hu hs => ?_,
    fun d source hd hsource => ?_, fun u sources hu hs => ?_⟩
  · obtain ⟨t, ht⟩ := id hd
    have hends := dictUpdate_ends i ht hv
    rw [hdict hd]
    exact ⟨hends, hends.nothing⟩
  · rw [hadd hu, hremove hu]
    have htakes : ∀ x ∈ sources, TakesItem u s x := fun x hx => ⟨i, hu, hs x hx⟩
    exact ⟨setUpdated_ends (filing_setInsert u) sources htakes,
      setUpdated_ends (filing_setRemove u) sources htakes⟩
  · obtain ⟨t, ht⟩ := hsource
    obtain ⟨a, s', hs'⟩ := dictUpdate_dict i ht hd
    exact ⟨⟨a, s', hs'⟩, _, s', (hdict hd).trans (bind_of_ok hs')⟩
  · obtain ⟨a, s₁, h₁⟩ := setUpdated_self (filing_setInsert u) i hu hs
    obtain ⟨b, s₂, h₂⟩ := setUpdated_self (filing_setRemove u) i hu hs
    exact ⟨⟨_, s₁, (hadd hu).trans (bind_of_ok h₁)⟩, _, s₂, (hremove hu).trans (bind_of_ok h₂)⟩

theorem hash_list {heap : Heap} {l : Handle} {items : Array Handle}
    (h : heap.Has l (.list items)) : Heap.hash l heap = .error (.fatal (.unhashable "list")) := by
  rw [Heap.hash, Heap.bind_of_ok (Heap.depth_eq_ok.2 rfl), Heap.hashWithin,
    Heap.bind_of_ok (Heap.get_eq_ok.2 h.2)]
  exact Heap.unhashable_eq (Heap.typeName_of_kind h.2 rfl)

/-- An update of a new set with the items 1 and []: it stops at the list, and 1 is a member. -/
theorem failures_leave_prefix_list :
    ∃ s u source one l s', LiveRun {} {} s ∧ s.IsSet u ∧ s.heap.Has source (.list #[one, l]) ∧
      s.heap.Has one (.int 1) ∧ s.heap.Has l (.list #[]) ∧
      runMethod (.set .update) u [source] s = .error (.fatal (.unhashable "list")) s' ∧
      s'.keysOf u = {.number 1} := by
  obtain ⟨s₀, h₀⟩ := Space.create_ok {} rfl {}
  obtain ⟨one, s₁, r₁, -, hone⟩ := LiveRun.newInt (.start h₀) 1
  have hnil : ∀ g ∈ (#[] : Array Handle).toList, s₁.heap.isLive g = true := nofun
  obtain ⟨l, s₂, r₂, f₂, hl⟩ := r₁.newList hnil
  have hlive : ∀ g ∈ (#[one, l] : Array Handle).toList, s₂.heap.isLive g = true := by
    simpa using ⟨(f₂.keep hone).1, hl.1⟩
  obtain ⟨source, s₃, r₃, f₃, hsource⟩ := r₂.newList hlive
  have hempty : ∀ x ∈ ([] : List Handle), ∃ κ, s₃.heap.Keyed x κ := nofun
  obtain ⟨u, s, r, f, hu, hkeys⟩ := r₃.newSet hempty
  replace hone := f.keep (f₃.keep (f₂.keep hone))
  replace hl := f.keep (f₃.keep hl)
  replace hsource := f.keep hsource
  obtain ⟨-, -, hsets, -⟩ := failures_leave_prefix r
  obtain ⟨hupdated, -⟩ := hsets u [source] hu (List.forall_mem_singleton.2 hsource.1)
  have hitems := collect_sequence hsource rfl
  have hlist := hash_list hl
  generalize hresult : runMethod (.set .update) u [source] s = result at hupdated
  cases hupdated with
  | notIterable ho hno =>
    obtain rfl := hsource.unique ho
    exact absurd trivial hno
  | next hcollect hall _ _ =>
    obtain ⟨rfl, rfl⟩ := EStateM.Result.ok.inj (hitems.symm.trans hcollect)
    obtain ⟨-, h, hh⟩ := hall l (by simp)
    rw [hlist] at hh
    cases hh
  | @noHash _ _ _ _ s' _ e hcollect hstop =>
    obtain ⟨rfl, rfl⟩ := EStateM.Result.ok.inj (hitems.symm.trans hcollect)
    obtain ⟨done, x, rest, hsplit, -, hhash, hdone⟩ := hstop
    have i := steady_of_liveRun r
    have k := keyed_int hone
    rcases done with _ | ⟨y, done⟩
    · -- 1 has a hash
      obtain ⟨rfl, -⟩ := List.cons.inj hsplit
      obtain ⟨-, h, hh⟩ := i.ordered.hashable_of_keyed k
      rw [id, hh] at hhash
      cases hhash
    · -- so the first value without one is the list
      obtain ⟨rfl, hrest⟩ := List.cons.inj hsplit
      obtain ⟨rfl, rfl⟩ : done = [] ∧ x = l := by
        rcases List.append_eq_singleton_iff.1 hrest.symm with ⟨hdone, hx⟩ | ⟨-, hx⟩
        · exact ⟨hdone, (List.cons.inj hx).1⟩
        · cases hx
      obtain rfl : .fatal (.unhashable "list") = e := Except.error.inj (hlist.symm.trans hhash)
      refine ⟨s, u, source, one, x, s', r, hu, hsource, hone, hl, hresult, ?_⟩
      obtain ⟨t, ht⟩ := hu
      obtain ⟨b, t', s₁, hs₁, -, ht', -, hinserted⟩ := setInsert_keyed i ht k
      have hinsert : [one].forM (fun x => do let _ ← setInsert u x : Handle → Action Unit) s =
          .ok () s₁ := bind_of_ok (bind_of_ok hs₁)
      obtain ⟨-, rfl⟩ := EStateM.Result.ok.inj (hinsert.symm.trans hdone)
      rw [keysOf_eq ht', hinserted, ← keysOf_eq ht, hkeys, Heap.keySet_nil, insert_empty_eq]

end Space

end ObjectSpace
