import ObjectSpace.Proofs.Execution.Enumerating
import ObjectSpace.Proofs.Execution.Printing
import ObjectSpace.Proofs.Value.Sorting
import ObjectSpace.Proofs.Value.TableKeys
import ObjectSpace.Proofs.Value.Tables

/-!
# Dicts of numbers

A dict in which a program counts: its entries are integers under texts. What is under each text is a
finite map (`Numbers`), which storing a number changes in one place (`setItem_numbers`) and reading
one looks at (`get_numbers`).

An iterator over the entries of such a dict gives them in table order (`collect_items`), which
depends on hashes only; sorted they stand in the order of their texts (`Module.sortedItems`).
-/

namespace ObjectSpace

open Heap (Keyed)

namespace Space

variable {s s' : Space} {ctx d key value v w : Handle} {t t' : Table (Handle × Handle)} {κ : Key}
  {text : String} {n : Int64} {count : String → Option Int64} {code : Code}

/-! ## Texts as keys -/

theorem IsText.keyed {heap : Heap} (h : IsText heap v text) : heap.Keyed v (.text text) := by
  obtain ⟨hash?, h⟩ := h
  exact ⟨⟨1, by rw [key?, seeLive_eq_some.2 h]; rfl⟩, _, rfl⟩

theorem isText_of_keyed {heap : Heap} (k : heap.Keyed v (.text text)) : IsText heap v text := by
  obtain ⟨n, hn⟩ := k.reads
  cases n with
  | zero => cases hn
  | succ n =>
    obtain ⟨o, ho, hn⟩ := Option.bind_eq_some_iff.1 hn
    obtain ⟨hash?, rfl⟩ := Object.of_key?_text hn
    exact ⟨hash?, seeLive_eq_some.1 ho⟩

theorem IsText.unique {heap : Heap} {text' : String} (h : IsText heap v text)
    (h' : IsText heap v text') : text = text' :=
  Key.text.inj (h.keyed.unique h'.keyed)

/-! ## Entries of a dict -/

theorem newDict_frame (i : s.Steady) :
    ∃ d s', newDict [] s = .ok d s' ∧ Frame [] s s' ∧ s'.heap.Has d (.dict .empty) := by
  obtain ⟨d, s', hs', f, hd⟩ := alloc_frame i (o := .dict .empty) (.inl rfl) nofun nofun
  exact ⟨d, s', bind_of_ok hs', f, hd⟩

theorem updateDict_frame (i : s.Steady) (hd : s.heap.Has d (.dict t))
    {f : Table (Handle × Handle) → Table (Handle × Handle)}
    (hf : Change s.heap (.dict t) (.dict (f t))) (hlive : steadyTrust.Ok s (f t)) :
    ∃ s', updateDict d f s = .ok () s' ∧ Frame [d] s s' := by
  obtain ⟨g, hg, hgd⟩ : ∃ g : Object → Object,
      updateDict d f s = update d g s ∧ g (.dict t) = .dict (f t) :=
    ⟨_, ask_bind_of_ok (Heap.dict_eq_ok.2 hd.2), rfl⟩
  obtain ⟨s', hs', fr, -⟩ := update_frame i hd (f := g) (hgd ▸ hf)
    (hgd ▸ (Trust.ok_dictObject (f t)).2 hlive) (by rw [hgd]; simp [Object.Writes])
  exact ⟨s', hg.trans hs', fr⟩

/-- Inserting into a dict touches the dict alone. -/
theorem dictInsert_touches (i : s.Steady) (hd : s.heap.Has d (.dict t))
    (hk : s.heap.isLive key = true) (hv : s.heap.isLive value = true)
    (h : dictInsert d key value s = .ok () s') : Frame [d] s s' := by
  have hlive : steadyTrust.Ok s t := (Trust.ok_dictObject t).1 (i.children hd)
  rcases hp : Heap.dictPlace d key s.heap with e | ⟨u, place⟩
  · rw [dictInsert, bind_of_error (ask_of_error hp)] at h
    cases h
  rw [dictInsert, ask_bind_of_ok hp] at h
  obtain ⟨hhash, t', ht', hfind⟩ := Heap.dictPlace_eq_ok.1 hp
  obtain rfl : t = t' := by simpa [hd.2] using ht'
  cases place with
  | some j =>
    obtain ⟨s₂, hs₂, f⟩ := updateDict_frame i hd (f := (·.modify u j fun e => (e.1, value)))
      (.dictStore t u j value) (Trust.ok_store hlive hv u j)
    obtain rfl := (EStateM.Result.ok.inj (h.symm.trans hs₂)).2
    exact f
  | none =>
    have hentry : steadyTrust.Ok s (key, value) :=
      (Trust.ok_pair _ _).2 ⟨(Trust.ok_handle key).2 hk, (Trust.ok_handle value).2 hv⟩
    obtain ⟨s₂, hs₂, f⟩ := updateDict_frame i hd (f := (·.push u (key, value)))
      (.dictPush hhash (Heap.findPlace_eq_none hfind)) (Trust.ok_push hlive hentry u)
    obtain rfl := (EStateM.Result.ok.inj (h.symm.trans hs₂)).2
    exact f

/-! ## Numbers under texts -/

/-- The entries of a dict are integers under texts, those that `count` has. -/
structure Numbers (heap : Heap) (t : Table (Handle × Handle)) (count : String → Option Int64) :
    Prop where
  entry : ∀ e ∈ t.toList, ∃ text n, IsText heap e.1 text ∧ heap.Has e.2 (.int n) ∧
    count text = some n
  found : ∀ text n, count text = some n → ∃ e ∈ t.toList, IsText heap e.1 text

theorem numbers_empty {heap : Heap} : Numbers heap .empty fun _ => none := by
  refine ⟨fun e he => ?_, nofun⟩
  rw [Table.toList_empty] at he
  cases he

theorem Numbers.moves {touched : List Handle} (h : Numbers s.heap t count)
    (f : Moves touched s s') : Numbers s'.heap t count := by
  refine ⟨fun e he => ?_, fun text n hn => ?_⟩
  · obtain ⟨text, n, htext, hint, hn⟩ := h.entry e he
    exact ⟨text, n, f.isText htext, f.fixed hint fun _ h => h, hn⟩
  · obtain ⟨e, he, htext⟩ := h.found text n hn
    exact ⟨e, he, f.isText htext⟩

theorem setItem_numbers (i : s.Steady) (hd : s.heap.Has d (.dict t))
    (h : Numbers s.heap t count) (hk : IsText s.heap key text) (hv : s.heap.Has value (.int n)) :
    ∃ t' s', setItem d key value s = .ok () s' ∧ Frame [d] s s' ∧ s'.heap.Has d (.dict t') ∧
      Numbers s'.heap t' (Function.update count text (some n)) := by
  obtain ⟨t', s', stored, hs', hr, kstored, -, hmem⟩ :=
    dictInsert_keyed i.ordered hd hk.keyed value
  have f := dictInsert_touches i hd hk.live hv.1 hs'
  have hstored := isText_of_keyed kstored
  have hset : setItem d key value s = .ok () s' := by
    rw [setItem, get_bind_of_has hd]
    exact hs'
  refine ⟨t', s', hset, f, hr.self, fun e he => ?_, fun text' m hm => ?_⟩
  · rcases (hmem e).1 he with rfl | ⟨he, hne⟩
    · refine ⟨text, n, f.isText hstored, f.fixed hv fun _ h => h, ?_⟩
      rw [Function.update_self]
    · obtain ⟨text', m, htext, hint, hm⟩ := h.entry e he
      refine ⟨text', m, f.isText htext, f.fixed hint fun _ h => h, ?_⟩
      rw [Function.update_of_ne, hm]
      rintro rfl
      exact hne htext.keyed
  · by_cases htext : text' = text
    · subst htext
      exact ⟨(stored, value), (hmem _).2 (.inl rfl), f.isText hstored⟩
    · rw [Function.update_of_ne htext] at hm
      obtain ⟨e, he, hkey⟩ := h.found text' m hm
      refine ⟨e, (hmem e).2 (.inr ⟨he, fun k => htext ?_⟩), f.isText hkey⟩
      exact hkey.unique (isText_of_keyed k)

theorem dictLookup_numbers (i : s.Steady) (hd : s.heap.Has d (.dict t))
    (h : Numbers s.heap t count) (hk : IsText s.heap key text) :
    (∃ v n, Heap.dictLookup d key s.heap = .ok (some v) ∧ s.heap.Has v (.int n) ∧
      count text = some n) ∨
    Heap.dictLookup d key s.heap = .ok none ∧ count text = none := by
  rcases dictLookup_keyed i.ordered hd hk.keyed with ⟨e, he, k, hlook⟩ | ⟨hnone, hne⟩
  · obtain ⟨text', n, htext, hint, hn⟩ := h.entry e he
    obtain rfl := htext.unique (isText_of_keyed k)
    exact .inl ⟨e.2, n, hlook, hint, hn⟩
  · refine .inr ⟨hnone, ?_⟩
    rcases hc : count text with _ | n
    · rfl
    · obtain ⟨e, he, htext⟩ := h.found text n hc
      exact absurd htext.keyed (hne e he)

/-- Reading the number under a text that is not there. -/
theorem getItem_missing (i : s.Steady) (hd : s.heap.Has d (.dict t)) (h : Numbers s.heap t count)
    (hk : IsText s.heap key text) (hnone : count text = none) :
    getItem d key s = .error (.fatal (.keyNotFound (Literal.ofText text))) s := by
  rcases dictLookup_numbers i hd h hk with ⟨v, n, -, -, hn⟩ | ⟨hlook, -⟩
  · rw [hnone] at hn
    cases hn
  have hget : Heap.dictGet d key s.heap =
      .error (.fatal (.keyNotFound (Literal.ofText text))) := by
    rw [Heap.dictGet, Heap.bind_of_ok hlook]
    show (Heap.repr key >>= _) s.heap = _
    rw [Heap.bind_of_ok (Heap.repr_text hk)]
    rfl
  rw [getItem, get_bind_of_has hd]
  exact ask_of_error hget

theorem get_numbers (code : Code) (ctx : Handle) (i : s.Steady)
    (hd : s.heap.Has d (.dict t)) (h : Numbers s.heap t count) (hk : IsText s.heap key text)
    (hw : s.heap.Has w (.int n)) :
    ∃ r s', Program.callMethod code ctx d "get" [key, w] s = .ok r s' ∧ Frame [] s s' ∧
      s'.heap.Has r (.int ((count text).getD n)) := by
  have hargs : ∀ a ∈ [key, w], s.heap.isLive a = true := by simp [hk.live, hw.1]
  obtain ⟨s', f, hs'⟩ := callMethod_frame code ctx i hd (.dict .get) rfl hargs
  have hget : ∀ v?, Heap.dictLookup d key s'.heap = .ok v? →
      Program.callMethod code ctx d "get" [key, w] s = .ok (v?.getD w) s' := by
    intro v? hv
    refine hs'.trans ?_
    rw [runMethod, get_bind_of_has (f.keep hd)]
    show ((liftM (Heap.dictLookup d key) : Action (Option Handle)) >>= _) s' = _
    rw [ask_bind_of_ok hv]
    cases v? <;> rfl
  rcases dictLookup_numbers f.steady (f.keep hd) (h.moves f.toMoves) (f.isText hk) with
    ⟨v, m, hlook, hint, hm⟩ | ⟨hlook, hm⟩
  · refine ⟨v, s', hget _ hlook, f, ?_⟩
    rw [hm]
    exact hint
  · refine ⟨w, s', hget _ hlook, f, ?_⟩
    rw [hm]
    exact f.keep hw

end Space

end ObjectSpace

namespace ObjectSpace.Space

variable {s s' : Space} {ctx d it v w : Handle} {c : Context} {t : Table (Handle × Handle)}
  {n : Nat} {count : String → Option Int64} {code : Code} {touched : List Handle}

/-! ## Listing entries -/

theorem collect_items (i : s.Steady) (hd : s.heap.Has d (.dict t))
    (hv : s.heap.Has v (.view d .items)) :
    ∃ l s', collect v s = .ok l.toArray s' ∧ Frame [] s s' ∧
      List.Forall₂ (fun v e => s'.heap.Has v (.tuple #[e.1, e.2])) l t.toList := by
  obtain ⟨it, s₁, h₁, -, f₁, hit⟩ := iter_frame i hv rfl
  obtain ⟨it', s₁', h₁', hnew, -, -, items, s₂, h₂, f₂, hitems⟩ := enumerates_entries i hd hv rfl
  obtain ⟨rfl, rfl⟩ := EStateM.Result.ok.inj (h₁.symm.trans h₁')
  have hsteps : Heap.stepsWithin (s₁.heap.capacity + 1) it s₁.heap = .ok t.toList.length := by
    rw [Heap.stepsWithin, Heap.bind_of_ok (cursor_eq hit)]
    exact Heap.bind_of_ok (Heap.dict_eq_ok.2 (f₁.keep hd).2)
  have hdrain := h₂ (t.toList.length + 1) (Nat.lt_succ_self _)
  refine ⟨items.toList, s₂, ?_, (f₁.trans f₂).of_new ?_, hitems⟩
  · rw [collect, get_bind_of_has hv]
    dsimp only
    rw [bind_of_ok h₁, ask_bind_of_ok (Heap.depth_eq_ok.2 rfl), ask_bind_of_ok hsteps, hdrain]
  · exact List.forall_mem_singleton.2 hnew

/-! ## Sorting entries -/

/-- A value is a pair of a text and a number. -/
def IsEntry (heap : Heap) (v : Handle) (e : String × Int64) : Prop :=
  ∃ a b, heap.Has v (.tuple #[a, b]) ∧ IsText heap a e.1 ∧ heap.Has b (.int e.2)

theorem IsEntry.live {heap : Heap} {e : String × Int64} (h : IsEntry heap v e) :
    heap.isLive v = true := by
  obtain ⟨a, b, h, -⟩ := h
  exact h.1

theorem Moves.isEntry (f : Moves touched s s') {e : String × Int64} (h : IsEntry s.heap v e) :
    IsEntry s'.heap v e := by
  obtain ⟨a, b, hv, ha, hb⟩ := h
  exact ⟨a, b, f.fixed hv fun _ h => h, f.isText ha, f.fixed hb fun _ h => h⟩

/-- Entries are ordered by text, and then by number. -/
def entryKey (e : String × Int64) : List Char ×ₗ ℤ := toLex (e.1.toList, e.2.toInt)

theorem orderedWithin_texts {heap : Heap} {a b : Handle} {x y : String} (ha : IsText heap a x)
    (hb : IsText heap b y) :
    Heap.orderedWithin (n + 1) .lt a b heap = .ok (decide (x.toList < y.toList)) := by
  obtain ⟨_, ha⟩ := ha
  obtain ⟨_, hb⟩ := hb
  rw [Heap.orderedWithin, Heap.bind_of_ok (Heap.get_eq_ok.2 ha.2),
    Heap.bind_of_ok (Heap.get_eq_ok.2 hb.2)]
  exact congrArg Except.ok ((Comparison.holds_lt x y).trans (decide_eq_decide.2 String.lt_iff))

theorem orderedWithin_ints {heap : Heap} {a b : Handle} {x y : Int64} (ha : heap.Has a (.int x))
    (hb : heap.Has b (.int y)) :
    Heap.orderedWithin (n + 1) .lt a b heap = .ok (decide (x.toInt < y.toInt)) := by
  rw [Heap.orderedWithin, Heap.bind_of_ok (Heap.get_eq_ok.2 ha.2),
    Heap.bind_of_ok (Heap.get_eq_ok.2 hb.2)]
  exact congrArg Except.ok
    ((Comparison.holds_lt x y).trans (decide_eq_decide.2 Int64.lt_iff_toInt_lt))

/-- Pairs of texts and numbers are compared as the data that they stand for. -/
theorem ranked_entries (i : s.Steady) : Heap.Ranked s.heap (IsEntry s.heap) entryKey := by
  rintro x y ⟨u, m⟩ ⟨u', m'⟩ ⟨a, b, hx, ha, hb⟩ ⟨a', b', hy, ha', hb'⟩
  obtain ⟨k, hk⟩ := Heap.capacity_pos hx
  obtain ⟨r, hr, hru⟩ := ha.keyed.equal i.ordered.legible ha'.keyed
  obtain ⟨q, hq, hqm⟩ := (keyed_int hb).equal i.ordered.legible (keyed_int hb')
  rw [Key.text.injEq] at hru
  rw [Key.number.injEq] at hqm
  obtain ⟨f, hpairs, hnone, hsome⟩ : ∃ f : Option (Handle × Handle) → Query Bool,
      Heap.lessThan x y s.heap = (Heap.firstDifference [a, b] [a', b'] >>= f) s.heap ∧
        f none = pure false ∧ ∀ p q, f (some (p, q)) = Heap.orderedWithin (k + 1) .lt p q := by
    rw [Heap.lessThan, Heap.bind_of_ok (Heap.depth_eq_ok.2 rfl), hk, Heap.orderedWithin,
      Heap.bind_of_ok (Heap.get_eq_ok.2 hx.2), Heap.bind_of_ok (Heap.get_eq_ok.2 hy.2)]
    exact ⟨_, rfl, rfl, fun _ _ => rfl⟩
  have hfirst : Heap.firstDifference [a, b] [a', b'] s.heap =
      .ok (if r then if q then none else some (b, b') else some (a, a')) := by
    rw [Heap.firstDifference, Heap.bind_of_ok hr]
    cases r with
    | false => rfl
    | true =>
      show Heap.firstDifference [b] [b'] s.heap = _
      rw [Heap.firstDifference, Heap.bind_of_ok hq]
      cases q <;> rfl
  rw [hpairs, Heap.bind_of_ok hfirst, entryKey, entryKey]
  simp only [Prod.Lex.toLex_lt_toLex]
  cases r with
  | false =>
    have hne : u.toList ≠ u'.toList := fun h => Bool.false_ne_true (hru.2 (String.toList_inj.1 h))
    refine (congrFun (hsome a a') _).trans ((orderedWithin_texts ha ha').trans ?_)
    simp [hne]
  | true =>
    obtain rfl := hru.1 rfl
    cases q with
    | false =>
      refine (congrFun (hsome b b') _).trans ((orderedWithin_ints hb hb').trans ?_)
      simp
    | true =>
      obtain rfl := hqm.1 rfl
      refine (congrFun hnone _).trans ?_
      simp

/-- The entries of a dict of numbers as data, in table order. -/
theorem Numbers.entries (h : Numbers s.heap t count) (i : s.Steady)
    (hd : s.heap.Has d (.dict t)) :
    ∃ f : Handle × Handle → String × Int64,
      (∀ x ∈ t.toList, IsText s.heap x.1 (f x).1 ∧ s.heap.Has x.2 (.int (f x).2)) ∧
      (t.toList.map f).Nodup ∧ ∀ e, e ∈ t.toList.map f ↔ count e.1 = some e.2 := by
  choose! text number htext hnumber hcount using h.entry
  refine ⟨fun x => (text x, number x), fun x hx => ⟨htext x hx, hnumber x hx⟩, ?_, fun e => ?_⟩
  · refine List.pairwise_map.2 ((entries_apart i.ordered hd).imp_of_mem ?_)
    intro x y hx hy hne he
    have htxt : text x = text y := congrArg Prod.fst he
    exact hne _ (htext x hx).keyed (htxt ▸ (htext y hy).keyed)
  · constructor
    · intro he
      obtain ⟨x, hx, rfl⟩ := List.mem_map.1 he
      exact hcount x hx
    · intro he
      obtain ⟨x, hx, hxe⟩ := h.found _ _ he
      have htxt := (htext x hx).unique hxe
      have hnum := hcount x hx
      rw [htxt, he, Option.some.injEq] at hnum
      exact List.mem_map.2 ⟨x, hx, Prod.ext htxt hnum.symm⟩

/-- The entries of a dict of numbers in the order of their texts, as pairs in a new list. -/
theorem Module.sortedItems (code : Code) (m : Module s ctx c) (i : s.Steady)
    (hd : s.heap.Has d (.dict t)) (h : Numbers s.heap t count) :
    ∃ items l s₁ s₂ pairs es, Program.callMethod code ctx d "items" [] s = .ok items s₁ ∧
      Program.callName ctx "sorted" [items] s₁ = .ok l s₂ ∧ Frame [] s s₂ ∧
      s₂.heap.Has l (.list pairs) ∧ List.Forall₂ (IsEntry s₂.heap) pairs.toList es ∧
      es.Pairwise (fun a b => entryKey a ≤ entryKey b) ∧ es.Nodup ∧
      ∀ e, e ∈ es ↔ count e.1 = some e.2 := by
  obtain ⟨s₁, f₁, h₁⟩ := callMethod_frame code ctx i hd (.dict .items) rfl
    (List.forall_mem_nil _)
  obtain ⟨items, s₂, h₂, f₂, hitems⟩ := alloc_frame f₁.steady (o := .view d .items)
    (fun o ho => ⟨t, Option.some.inj (ho.symm.trans (f₁.keep hd).2)⟩)
    (List.forall_mem_singleton.2 (f₁.keep hd).1) nofun
  have hcall : Program.callMethod code ctx d "items" [] s = .ok items s₂ := by
    refine h₁.trans ?_
    rw [runMethod, get_bind_of_has (f₁.keep hd)]
    exact h₂
  obtain ⟨s₃, f₃, h₃⟩ := ((m.frame f₁).frame f₂).callBuiltin (f := .sorted) f₂.steady (by decide)
    (List.forall_mem_singleton.2 hitems.1)
  have f := (f₁.again f₂).again f₃
  obtain ⟨l, s₄, h₄, f₄, hl⟩ := collect_items f₃.steady (f.keep hd) (f₃.keep hitems)
  have hd₄ := f₄.keep (f.keep hd)
  obtain ⟨data, hdata, hnodup, hmem⟩ := (h.moves (f.again f₄).toMoves).entries f₄.steady hd₄
  have hentries : List.Forall₂ (IsEntry s₄.heap) l (t.toList.map data) := by
    rw [List.forall₂_map_right_iff, List.forall₂_iff_zip]
    refine ⟨hl.length_eq, fun {v x} hvx => ?_⟩
    obtain ⟨htext, hint⟩ := hdata x (List.of_mem_zip hvx).2
    exact ⟨x.1, x.2, List.forall₂_zip hl hvx, htext, hint⟩
  obtain ⟨out, es, hsort, hout, hperm, hascending⟩ :=
    Heap.sort_ranked (ranked_entries f₄.steady) hentries
  have hlive : ∀ v ∈ out.toArray.toList, s₄.heap.isLive v = true :=
    live_of_forall₂ (fun _ _ => IsEntry.live) hout
  obtain ⟨r, s₅, h₅, f₅, hr⟩ := newList_frame f₄.steady hlive
  refine ⟨items, r, s₂, s₅, out.toArray, es, hcall, ?_, (f.again f₄).again f₅, hr,
    hout.imp fun _ _ => f₅.isEntry, hascending, hperm.nodup_iff.2 hnodup,
    fun e => hperm.mem_iff.trans (hmem e)⟩
  refine h₃.trans ?_
  show (collect items >>= _) s₃ = _
  rw [bind_of_ok h₄, ask_bind_of_ok hsort, h₅]

end ObjectSpace.Space
