import ObjectSpace.Items
import ObjectSpace.Proofs.Mirroring.Queries
import ObjectSpace.Proofs.Run.Containers

/-!
# Changes in twin spaces

Iterating and changing lists, dicts and sets does the same in twin spaces: what is made on the way
are integers, texts, pairs and iterators, and none of these is placed in the class where twins
differ.
-/

namespace ObjectSpace

open Space Trust

variable {J : List Handle} {spare : SizeClass → Nat → Prop} {s t : Space}
  {d it key u v value : Handle} (w : s.Twins J spare t)

include w

/-! ## Iteration -/

omit w in
/-- The bound on depths is the one thing that twins read otherwise. -/
theorem mirror_depth {α : Type} [Carries α] {f f' : Nat → Action α}
    (hf : ∀ n n', Mirror J spare s t (f n) (f' n')) :
    Mirror J spare s t (liftM Heap.depth >>= f) (liftM Heap.depth >>= f') :=
  hf _ _

theorem mirror_emit {y : Yield} (hy : Known J s y) : Mirror J spare s t (emit y) (emit y) := by
  cases y with
  | handle h => exact mirror_pure w ((ok_handle h).2 ((ok_yieldHandle h).1 hy))
  | int n => exact mirror_alloc w trivial (List.forall_mem_nil _)
  | str text => exact mirror_alloc w trivial (List.forall_mem_nil _)
  | pair a b => exact mirror_alloc w trivial hy
  | numbered n h =>
    have hint : Mirror J spare s t (newInt n) (newInt n) :=
      mirror_alloc w trivial (List.forall_mem_nil _)
    refine mirror_bind hint fun i s₁ t₁ l₁ hi => mirror_alloc l₁.twins trivial ?_
    have hh := l₁.known ((ok_handle h).2 ((ok_yieldNumbered n h).1 hy))
    exact List.forall_mem_cons.2 ⟨(ok_handle i).1 hi, hh⟩

theorem mirror_iter (hv : Known J s v) : Mirror J spare s t (iter v) (iter v) := by
  refine mirror_get_bind w hv fun o _ ho => ?_
  split
  · exact mirror_pure w hv
  · split
    · rename_i c hc
      exact mirror_alloc w trivial (ok_ofObject? ((ok_handle v).1 hv) ho hc)
    · exact mirror_ask_bind w (reflect_typeName w hv) fun _ _ _ => mirror_fatal w _

/-- Writing an iterator back and making what it gave. -/
theorem mirror_moveTo {c : Cursor} {y : Option Yield} (hit : Known J s it) (hc : Known J s c)
    (hy : Known J s y) :
    Mirror J spare s t
      (do
        update it (Object.moveTo c)
        y.mapM emit)
      (do
        update it (Object.moveTo c)
        y.mapM emit) := by
  refine mirror_bind (mirror_update w hit fun o _ ho => ?_) fun _ s₁ t₁ l₁ _ => ?_
  · cases o with
    | iter => exact ⟨hc, rfl⟩
    | _ => exact ⟨ho, rfl⟩
  · exact mirror_optionMapM l₁.twins fun z hz =>
      mirror_emit l₁.twins (l₁.known (ok_option.1 hy z hz))

theorem mirror_nextWithin (n n' : Nat) (hit : Known J s it) :
    Mirror J spare s t (nextWithin n it) (nextWithin n' it) := by
  induction n generalizing n' s t it with
  | zero => exact mirror_violate _ _
  | succ n ih =>
    cases n' with
    | zero => exact mirror_violated _ _
    | succ n' =>
      unfold nextWithin
      refine mirror_ask_bind w (reflect_cursor w hit) fun c hcursor hc => ?_
      dsimp only
      split
      · rename_i inner count
        have hinner : Known J s inner := known_sequence hc List.mem_cons_self
        refine mirror_bind (ih w n' hinner) fun r s₁ t₁ l₁ hr => ?_
        cases r with
        | some x =>
          refine mirror_moveTo l₁.twins (y := some (.numbered count x)) (l₁.known hit)
            (l₁.known hc) ?_
          simpa using hr
        | none => exact mirror_moveTo l₁.twins (y := none) (l₁.known hit) (l₁.known hc) ok_none
      · rename_i left right
        have hleft : Known J s left := known_sequence hc List.mem_cons_self
        have hright : Known J s right :=
          known_sequence hc (List.mem_cons_of_mem _ List.mem_cons_self)
        refine mirror_bind (ih w n' hleft) fun r s₁ t₁ l₁ hr => ?_
        cases r with
        | some a =>
          refine mirror_bind (ih l₁.twins n' (l₁.known hright)) fun q s₂ t₂ l₂ hq => ?_
          have l := l₁.trans l₂
          cases q with
          | some b =>
            refine mirror_moveTo l₂.twins (y := some (.pair a b)) (l.known hit) (l.known hc) ?_
            have ha := l₂.known hr
            simp only [ok_some, ok_handle] at ha hq
            simp [ha, hq]
          | none => exact mirror_moveTo l₂.twins (y := none) (l.known hit) (l.known hc) ok_none
        | none => exact mirror_moveTo l₁.twins (y := none) (l₁.known hit) (l₁.known hc) ok_none
      · refine mirror_ask_bind w (reflect_step w hc) fun p _ hyc => ?_
        obtain ⟨y, c'⟩ := p
        obtain ⟨hy, hc'⟩ := (ok_pair y c').1 hyc
        exact mirror_moveTo w hit hc' hy

theorem mirror_next (hit : Known J s it) : Mirror J spare s t (next it) (next it) :=
  mirror_depth fun n n' => mirror_nextWithin w n n' hit

theorem mirror_drain (n : Nat) {done : Array Handle} (hit : Known J s it)
    (hd : Known J s done) : Mirror J spare s t (drain it done n) (drain it done n) := by
  induction n generalizing s t done with
  | zero => exact mirror_violate _ _
  | succ n ih =>
    refine mirror_bind (mirror_next w hit) fun r s₁ t₁ l₁ hr => ?_
    cases r with
    | none => exact mirror_pure l₁.twins (l₁.known hd)
    | some x =>
      refine ih l₁.twins (l₁.known hit) ?_
      rw [← Array.append_singleton]
      exact ok_append (l₁.known hd) (by simpa using hr)

theorem mirror_collect (hv : Known J s v) : Mirror J spare s t (collect v) (collect v) := by
  refine mirror_get_bind w hv fun o _ ho => ?_
  split
  · exact mirror_pure w ((ok_listObject _).1 ho)
  · exact mirror_pure w ((ok_tupleObject _).1 ho)
  · exact mirror_pure w (by simpa using ho)
  · refine mirror_bind (mirror_iter w hv) fun it s₁ t₁ l₁ hit => mirror_depth fun n n' => ?_
    refine mirror_ask_bind l₁.twins (reflect_stepsWithin l₁.twins n n' hit) fun steps _ _ => ?_
    exact mirror_drain l₁.twins _ hit (by simp)

/-! ## Lists -/

theorem mirror_updateList (hv : Known J s v) {f : Array Handle → Array Handle}
    (hf : ∀ items : Array Handle, Known J s items → Known J s (f items)) :
    Mirror J spare s t (updateList v f) (updateList v f) := by
  refine mirror_ask_bind w (reflect_list w hv) fun _ _ _ => mirror_update w hv fun o _ ho => ?_
  cases o with
  | list items => exact ⟨(ok_listObject _).2 (hf items ((ok_listObject items).1 ho)), rfl⟩
  | _ => exact ⟨ho, rfl⟩

/-! ## Dicts -/

theorem mirror_updateDict (hd : Known J s d)
    {f : Table (Handle × Handle) → Table (Handle × Handle)}
    (hf : ∀ e : Table (Handle × Handle), Known J s e → Known J s (f e)) :
    Mirror J spare s t (updateDict d f) (updateDict d f) := by
  refine mirror_ask_bind w (reflect_dict w hd) fun _ _ _ => mirror_update w hd fun o _ ho => ?_
  cases o with
  | dict e => exact ⟨(ok_dictObject _).2 (hf e ((ok_dictObject e).1 ho)), rfl⟩
  | _ => exact ⟨ho, rfl⟩

theorem mirror_dictInsert (hd : Known J s d) (hk : Known J s key) (hv : Known J s value) :
    Mirror J spare s t (dictInsert d key value) (dictInsert d key value) := by
  refine mirror_ask_bind w (reflect_dictPlace w hd hk) fun (hash, place) _ _ => ?_
  cases place with
  | some i =>
    exact mirror_updateDict w hd fun e he => ok_store he ((ok_handle value).1 hv) hash i
  | none => exact mirror_updateDict w hd fun e he => ok_push he ((ok_pair _ _).2 ⟨hk, hv⟩) hash

theorem mirror_dictRemove (hd : Known J s d) (hk : Known J s key) :
    Mirror J spare s t (dictRemove d key) (dictRemove d key) := by
  refine mirror_ask_bind w (reflect_dictPlace w hd hk) fun (hash, place) _ _ => ?_
  cases place with
  | some i =>
    refine mirror_ask_bind w (reflect_dict w hd) fun e _ he => ?_
    refine mirror_bind (mirror_updateDict w hd fun e' he' => ok_erase he' hash i)
      fun _ s₁ t₁ l₁ _ => mirror_pure l₁.twins (ok_option.2 fun x hx => l₁.known ?_)
    obtain ⟨f, hf, rfl⟩ := Option.map_eq_some_iff.1 hx
    have hf := (ok_table _).1 he f (Table.mem_toList.2 ⟨hash, Table.mem_of_entryAt? hf⟩)
    exact ((ok_pair _ _).1 hf).2
  | none => exact mirror_pure w ok_none

theorem mirror_insertPairs (hd : Known J s d) {pairs : List (Handle × Handle)}
    (hp : Known J s pairs) : Mirror J spare s t (insertPairs d pairs) (insertPairs d pairs) := by
  refine mirror_forM w fun (k, x) hkx s₁ t₁ l₁ => ?_
  obtain ⟨hk, hx⟩ := (ok_pair k x).1 ((ok_list _).1 (l₁.known hp) (k, x) hkx)
  exact mirror_dictInsert l₁.twins (l₁.known hd) hk hx

theorem reflect_pairOf (hv : Known J s v) : Reflect J s t (pairOf v) (pairOf v) := by
  refine reflect_get_bind w hv fun o _ ho => ?_
  have hseq := ok_asSequence? ho
  split
  · rename_i k x heq
    obtain ⟨items, hitems, hkx⟩ := Option.map_eq_some_iff.1 heq
    rw [hitems, ok_some, ok_array, hkx] at hseq
    exact reflect_pure ((ok_pair k x).2 ⟨hseq k (by simp), hseq x (by simp)⟩)
  · exact reflect_bind (reflect_repr w hv) fun _ _ _ => reflect_fatal _

theorem mirror_pairsOf (hv : Known J s v) : Mirror J spare s t (pairsOf v) (pairsOf v) := by
  refine mirror_get_bind w hv fun o _ ho => ?_
  split
  · exact mirror_pure w (by simpa using ho)
  · refine mirror_bind (mirror_collect w hv) fun items s₁ t₁ l₁ hi => ?_
    refine mirror_mapM l₁.twins fun x hx s₂ t₂ l₂ => mirror_ask l₂.twins ?_
    exact reflect_pairOf l₂.twins (l₂.known ((ok_array _).1 hi x hx))

theorem mirror_dictUpdate (hd : Known J s d) (hv : Known J s v) :
    Mirror J spare s t (dictUpdate d v) (dictUpdate d v) :=
  mirror_bind (mirror_pairsOf w hv) fun _ _ _ l hp =>
    mirror_insertPairs l.twins (l.known hd) hp

/-! ## Sets -/

theorem mirror_updateSet (hu : Known J s u) {f : Table Handle → Table Handle}
    (hf : ∀ e : Table Handle, Known J s e → Known J s (f e)) :
    Mirror J spare s t (updateSet u f) (updateSet u f) := by
  refine mirror_ask_bind w (reflect_set w hu) fun _ _ _ => mirror_update w hu fun o _ ho => ?_
  cases o with
  | set e => exact ⟨(ok_setObject _).2 (hf e ((ok_setObject e).1 ho)), rfl⟩
  | _ => exact ⟨ho, rfl⟩

theorem mirror_setInsert (hu : Known J s u) (hk : Known J s key) :
    Mirror J spare s t (setInsert u key) (setInsert u key) := by
  refine mirror_ask_bind w (reflect_setPlace w hu hk) fun (hash, place) _ _ => ?_
  cases place with
  | some i => exact mirror_pure w (ok_plain _)
  | none =>
    exact mirror_bind (mirror_updateSet w hu fun e he => ok_push he hk hash) fun _ _ _ l _ =>
      mirror_pure l.twins (ok_plain _)

theorem mirror_setRemove (hu : Known J s u) (hk : Known J s key) :
    Mirror J spare s t (setRemove u key) (setRemove u key) := by
  refine mirror_ask_bind w (reflect_setPlace w hu hk) fun (hash, place) _ _ => ?_
  cases place with
  | some i =>
    exact mirror_bind (mirror_updateSet w hu fun e he => ok_erase he hash i) fun _ _ _ l _ =>
      mirror_pure l.twins (ok_plain _)
  | none => exact mirror_pure w (ok_plain _)

/-- Changing a set by everything that an iterable gives, one value after the other. -/
theorem mirror_setAll (hu : Known J s u) (hv : Known J s v)
    {change : Handle → Handle → Action Bool}
    (hc : ∀ {s t : Space} {x : Handle}, s.Twins J spare t → Known J s u → Known J s x →
      Mirror J spare s t (change u x) (change u x)) :
    Mirror J spare s t
      (do
        let items ← collect v
        items.toList.forM fun x => do
          let _ ← change u x)
      (do
        let items ← collect v
        items.toList.forM fun x => do
          let _ ← change u x) := by
  refine mirror_bind (mirror_collect w hv) fun items s₁ t₁ l₁ hi => ?_
  refine mirror_forM l₁.twins fun x hx s₂ t₂ l₂ => ?_
  have hx := l₂.known ((ok_array _).1 hi x hx)
  exact mirror_bind (hc l₂.twins (l₂.known (l₁.known hu)) hx) fun _ _ _ l _ =>
    mirror_pure l.twins (ok_plain _)

end ObjectSpace
