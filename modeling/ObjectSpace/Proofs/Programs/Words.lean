import ObjectSpace.Proofs.Execution.Hooks
import ObjectSpace.Proofs.Execution.Numbers
import ObjectSpace.Proofs.Programs.Outcome

/-!
# Counting words

The words program counts in a dict and prints the counts in the order of the words. Its two loops
have an invariant each. While it counts, the dict has the counts of the words before the iterator
(`Counting`); while it prints, the output has the lines of the entries before the iterator
(`Listing`). What an invariant speaks of can be reached from the module context or is permanent, so
that it outlives the hook in every round.
-/

namespace ObjectSpace.Program

open Space

variable {hook : Hook} {s s' : Space} {ctx it l d w : Handle} {items : Array Handle}
  {ws : List String} {j : Nat}

/-! ## Counts -/

/-- How often each word occurs, none for words that do not occur. -/
def tally (ws : List String) (w : String) : Option Int64 :=
  if w ∈ ws then some (Int64.ofNat (ws.count w)) else none

theorem tally_getD (ws : List String) (w : String) :
    (tally ws w).getD 0 = Int64.ofNat (ws.count w) := by
  by_cases h : w ∈ ws
  · rw [tally, if_pos h, Option.getD_some]
  · rw [tally, if_neg h, Option.getD_none, List.count_eq_zero.2 h]
    rfl

theorem tally_append (ws : List String) (w : String) :
    tally (ws ++ [w]) = Function.update (tally ws) w (some (Int64.ofNat (ws.count w + 1))) := by
  funext u
  by_cases hu : u = w
  · subst hu
    simp [tally]
  · rw [Function.update_of_ne hu]
    simp [tally, hu, List.count_append, Ne.symm hu]

/-! ## The loop that counts -/

/-- What the words program does with a word. -/
def countWord (hook : Hook) (ctx w : Handle) : Action Unit := do
  storeName ctx "w" w
  let counts ← loadName ctx "counts"
  let zero ← internInt 0
  let current ← callMethod noCode ctx counts "get" [w, zero]
  let one ← internInt 1
  let bumped ← binary .add current one
  setItem counts w bumped
  hook ctx

/-- Before round `j` of counting the words `ws`. -/
structure Counting (ctx it l d : Handle) (items : Array Handle) (ws : List String) (j : Nat)
    (s : Space) : Prop where
  loop : ∃ c, Looping ctx it (.forward l .listIterator j) c s ∧ c.names.get? "counts" = some d
  list : s.heap.Has l (.list items)
  texts : AreTexts s.heap items.toList ws
  dict : ∃ t, s.heap.Has d (.dict t) ∧ Numbers s.heap t (tally (ws.take j))
  output : s.output = ""

theorem Counting.round (hh : hook.Safe) (h : Counting ctx it l d items ws j s)
    (hj : j < items.size) (hws : ws.length < 2 ^ 63) :
    ∃ v s₁ s₂, Heap.load ctx 0 s.heap = .ok it ∧ next it s = .ok (some v) s₁ ∧
      countWord hook ctx v s₁ = .ok () s₂ ∧ Counting ctx it l d items ws (j + 1) s₂ := by
  obtain ⟨⟨c, L, hcounts⟩, hl, htexts, ⟨t, hd, hn⟩, hout⟩ := h
  have hlen : items.toList.length = ws.length := htexts.length_eq
  have hj' : j < ws.length := by rwa [← hlen, Array.length_toList]
  obtain ⟨s₁, h₁, f₁, hit₁⟩ := next_item L.steady hl L.iterator (Array.getElem?_eq_getElem hj)
  have hw : IsText s.heap items[j] ws[j] := htexts.get (by simpa using hj) hj'
  have hw₁ := f₁.isText hw
  have L₁ := L.advance f₁ hit₁
  have hd₁ := f₁.other L.iterator hd nofun
  obtain ⟨s₂, h₂, f₂, L₂⟩ := L₁.storeName "w" (by decide) hw₁.live
  have hcounts₂ := Context.get?_bind_of_ne "w" items[j] (by decide) hcounts
  have hd₂ := f₂.other L₁.module.has hd₁ nofun
  obtain ⟨zero, s₃, h₃, f₃, hzero, -⟩ := internInt_frame L₂.steady 0
  obtain ⟨current, s₄, h₄, f₄, hcurrent⟩ := get_numbers noCode ctx f₃.steady
    (f₃.keep hd₂) (((hn.moves f₁.toMoves).moves f₂.toMoves).moves f₃.toMoves)
    (f₃.isText (f₂.isText hw₁)) hzero
  rw [tally_getD] at hcurrent
  obtain ⟨one, s₅, h₅, f₅, hone, -⟩ := internInt_frame f₄.steady 1
  have hcount : (ws.take j).count ws[j] + 1 < 2 ^ 63 := by
    have := List.count_le_length (a := ws[j]) (l := ws.take j)
    rw [List.length_take] at this
    omega
  obtain ⟨bumped, s₆, h₆, f₆, hbumped⟩ := binary_frame f₅.steady (f₅.keep hcurrent) hone
    (Integer.binary?_add_one hcount)
  have f := ((f₃.again f₄).again f₅).again f₆
  have hd₆ := f.keep hd₂
  obtain ⟨t', s₇, h₇, f₇, hd₇, hn₇⟩ := setItem_numbers f₆.steady hd₆
    (((hn.moves f₁.toMoves).moves f₂.toMoves).moves f.toMoves) (f.isText (f₂.isText hw₁)) hbumped
  have L₇ := (L₂.frame f).other f₇ hd₆ nofun nofun
  obtain ⟨s₈, h₈, p, L₈⟩ := L₇.hook hh
  have hl₂ := f₂.other L₁.module.has (f₁.other L.iterator hl nofun) nofun
  have hl₇ := f₇.other hd₆ (f.keep hl₂) nofun
  have F := ((f₁.trans f₂).trans f).trans f₇
  -- the list is kept by its iterator, and the dict by its name
  have rl : s₇.heap.Reaches (s₇.roots ctx none) l :=
    .child L₇.reaches L₇.iterator.2 List.mem_cons_self
  have rd : s₇.heap.Reaches (s₇.roots ctx none) d :=
    reaches_name reaches_here L₇.module.has hcounts₂
  rw [← tally_append, ← List.take_succ_eq_append_getElem hj'] at hn₇
  refine ⟨items[j], s₁, s₈, L.load, h₁, ?_,
    { loop := ⟨_, L₈, hcounts₂⟩
      list := p.has l _ rl hl₇
      texts := p.areTexts rl hl₇ (F.areTexts htexts)
      dict := ⟨t', p.has d _ rd hd₇, p.numbers rd hd₇ hn₇⟩
      output := p.output.trans (F.output.trans hout) }⟩
  rw [countWord, bind_of_ok h₂, bind_of_ok (L₂.module.loadName hcounts₂), bind_of_ok h₃,
    bind_of_ok h₄, bind_of_ok h₅, bind_of_ok h₆, bind_of_ok h₇, h₈]

/-- After counting the words `ws`. -/
structure Counted (ctx d : Handle) (ws : List String) (s : Space) : Prop where
  steady : s.Steady
  module : ∃ c, Module s ctx c ∧ c.names.get? "counts" = some d
  dict : ∃ t, s.heap.Has d (.dict t) ∧ Numbers s.heap t (tally ws)
  output : s.output = ""

/-- The loop counts all words. -/
theorem Counting.run (hh : hook.Safe) (h : Counting ctx it l d items ws 0 s)
    (hws : ws.length < 2 ^ 63) :
    ∃ s', eachRound ctx (countWord hook ctx) (items.size + 1) s = .ok () s' ∧
      Counted ctx d ws s' := by
  refine eachRound_rule (Counting ctx it l d items ws) (fun j s hj h => ?_)
    (fun s h => ?_) h
  · obtain ⟨v, s₁, s₂, hr⟩ := h.round hh hj hws
    exact ⟨it, v, s₁, s₂, hr⟩
  · obtain ⟨⟨c, L, hcounts⟩, hl, htexts, ⟨t, hd, hn⟩, hout⟩ := h
    obtain ⟨s', hs', f⟩ := next_none L.steady hl L.iterator
    have hlen : items.size = ws.length := by rw [← Array.length_toList, htexts.length_eq]
    rw [hlen, List.take_length] at hn
    exact ⟨it, s', L.load, hs',
      { steady := f.steady
        module := ⟨c, L.module.other f L.iterator nofun, hcounts⟩
        dict := ⟨t, f.other L.iterator hd nofun, hn.moves f.toMoves⟩
        output := f.output.trans hout }⟩

/-! ## The loop that prints -/

/-- What the words program does with an entry. -/
def printEntry (hook : Hook) (ctx format first second pair : Handle) : Action Unit := do
  let k ← getItem pair first
  storeName ctx "k" k
  let v ← getItem pair second
  storeName ctx "v" v
  let args ← newTuple #[k, v]
  let line ← binary .mod format args
  printAll ctx [line]
  hook ctx

/-- An entry as it is printed. -/
def entryLine (e : String × Int64) : String := e.1 ++ "=" ++ Numeral.decimal e.2 ++ "\n"

/-- The entries as they are printed. -/
def lines (es : List (String × Int64)) : String := String.join (es.map entryLine)

/-- Before round `j` of printing the entries `es`. -/
structure Listing (ctx it l format first second : Handle) (items : Array Handle)
    (es : List (String × Int64)) (j : Nat) (s : Space) : Prop where
  loop : ∃ c, Looping ctx it (.forward l .listIterator j) c s
  list : s.heap.Has l (.list items)
  entries : List.Forall₂ (IsEntry s.heap) items.toList es
  format : Lasting s format (.str "%s=%d" (some (Fnv.hashText "%s=%d")))
  first : Lasting s first (.int 0)
  second : Lasting s second (.int 1)
  output : s.output = lines (es.take j)

theorem Listing.round {format first second : Handle} {es : List (String × Int64)} (hh : hook.Safe)
    (h : Listing ctx it l format first second items es j s) (hj : j < items.size) :
    ∃ v s₁ s₂, Heap.load ctx 0 s.heap = .ok it ∧ next it s = .ok (some v) s₁ ∧
      printEntry hook ctx format first second v s₁ = .ok () s₂ ∧
      Listing ctx it l format first second items es (j + 1) s₂ := by
  obtain ⟨⟨c, L⟩, hl, hes, hformat, hfirst, hsecond, hout⟩ := h
  have hlen : items.toList.length = es.length := hes.length_eq
  have hj' : j < es.length := by rwa [← hlen, Array.length_toList]
  obtain ⟨s₁, h₁, f₁, hit₁⟩ := next_item L.steady hl L.iterator (Array.getElem?_eq_getElem hj)
  obtain ⟨k, v, hpair, hk, hv⟩ : IsEntry s.heap items[j] es[j] := hes.get (by simpa using hj) hj'
  have L₁ := L.advance f₁ hit₁
  have hfirst₁ := hfirst.moves f₁.toMoves
  have hpair₁ : s₁.heap.Has items[j] (.tuple #[k, v]) := f₁.fixed hpair fun _ h => h
  have hget₁ : getItem items[j] first s₁ = .ok k s₁ := getItem_tuple hpair₁ hfirst₁.has rfl
  obtain ⟨s₂, h₂, f₂, L₂⟩ := L₁.storeName "k" (by decide) (f₁.isText hk).live
  have hsecond₂ := (hsecond.moves f₁.toMoves).moves f₂.toMoves
  have hpair₂ : s₂.heap.Has items[j] (.tuple #[k, v]) := f₂.fixed hpair₁ fun _ h => h
  have hget₂ : getItem items[j] second s₂ = .ok v s₂ := getItem_tuple hpair₂ hsecond₂.has rfl
  have hv₂ : s₂.heap.Has v (.int es[j].2) := (f₁.trans f₂).fixed hv fun _ h => h
  obtain ⟨s₃, h₃, f₃, L₃⟩ := L₂.storeName "v" (by decide) hv₂.1
  have f := (f₁.trans f₂).trans f₃
  have hk₃ := f.isText hk
  have hv₃ : s₃.heap.Has v (.int es[j].2) := f.fixed hv fun _ h => h
  have hlive : ∀ x ∈ (#[k, v] : Array Handle).toList, s₃.heap.isLive x = true := by
    simp [hk₃.live, hv₃.1]
  obtain ⟨args, s₄, h₄, f₄, hargs⟩ := newTuple_frame f₃.steady hlive
  obtain ⟨line, s₅, h₅, f₅, hline⟩ := format_frame f₄.steady
    ⟨_, ((hformat.moves f.toMoves).moves f₄.toMoves).has⟩ hargs (f₄.isText hk₃) (f₄.keep hv₃)
  have L₅ := (L₃.frame f₄).frame f₅
  obtain ⟨s₆, f₆, h₆⟩ := L₅.module.printAll f₅.steady (.cons (.text hline) .nil)
  have L₆ := (L₅.frame f₆).say (entryLine es[j])
  have hsay : Program.printAll ctx [line] s₅ = .ok () (s₆.say (entryLine es[j])) := h₆
  obtain ⟨s₇, h₇, p, L₇⟩ := L₆.hook hh
  have F := ((f.trans f₄).trans f₅).trans f₆
  have hl₂ := f₂.other L₁.module.has (f₁.other L.iterator hl nofun) nofun
  have hl₆ := f₆.keep (f₅.keep (f₄.keep (f₃.other L₂.module.has hl₂ nofun)))
  have rl : (s₆.say (entryLine es[j])).heap.Reaches ((s₆.say (entryLine es[j])).roots ctx none) l :=
    .child L₆.reaches L₆.iterator.2 List.mem_cons_self
  refine ⟨items[j], s₁, s₇, L.load, h₁, ?_,
    { loop := ⟨_, L₇⟩
      list := p.has l _ rl hl₆
      entries := p.entries rl hl₆ (hes.imp fun _ _ => F.isEntry)
      format := ((hformat.moves F.toMoves).say _).spared p
      first := ((hfirst.moves F.toMoves).say _).spared p
      second := ((hsecond.moves F.toMoves).say _).spared p
      output := ?_ }⟩
  · rw [printEntry, bind_of_ok hget₁, bind_of_ok h₂, bind_of_ok hget₂, bind_of_ok h₃,
      bind_of_ok h₄, bind_of_ok h₅, bind_of_ok hsay, h₇]
  · rw [p.output]
    show s₆.output ++ entryLine es[j] = _
    rw [F.output, hout, List.take_succ_eq_append_getElem hj', lines, lines, List.map_append]
    simp

/-- The loop prints all entries. -/
theorem Listing.run {format first second : Handle} {es : List (String × Int64)} (hh : hook.Safe)
    (h : Listing ctx it l format first second items es 0 s) :
    ∃ s', eachRound ctx (printEntry hook ctx format first second) (items.size + 1) s =
      .ok () s' ∧ s'.output = lines es := by
  refine eachRound_rule (Listing ctx it l format first second items es)
    (fun j s hj h => ?_) (fun s h => ?_) h
  · obtain ⟨v, s₁, s₂, hr⟩ := h.round hh hj
    exact ⟨it, v, s₁, s₂, hr⟩
  · obtain ⟨⟨c, L⟩, hl, hes, -, -, -, hout⟩ := h
    obtain ⟨s', hs', f⟩ := next_none L.steady hl L.iterator
    have hlen : items.size = es.length := by rw [← Array.length_toList, hes.length_eq]
    rw [hlen, List.take_length] at hout
    exact ⟨it, s', L.load, hs', f.output.trans hout⟩

/-! ## The program -/

theorem words_text : Text.words "the cat and the hat and the bat" =
    ["the", "cat", "and", "the", "hat", "and", "the", "bat"] := by
  decide +kernel

/-- The counts of the words of the text in order. -/
theorem tally_entries {es : List (String × Int64)}
    (hsorted : es.Pairwise fun a b => entryKey a ≤ entryKey b) (hnodup : es.Nodup)
    (hmem : ∀ e, e ∈ es ↔
      tally ["the", "cat", "and", "the", "hat", "and", "the", "bat"] e.1 = some e.2) :
    es = [("and", 2), ("bat", 1), ("cat", 1), ("hat", 1), ("the", 3)] := by
  have hperm : es.Perm [("and", 2), ("bat", 1), ("cat", 1), ("hat", 1), ("the", 3)] := by
    refine (List.perm_ext_iff_of_nodup hnodup (by decide)).2 fun e => (hmem e).trans ?_
    obtain ⟨w, n⟩ := e
    by_cases hw : w ∈ ["the", "cat", "and", "hat", "bat"]
    · simp only [List.mem_cons, List.not_mem_nil, or_false] at hw
      rcases hw with rfl | rfl | rfl | rfl | rfl <;> simp [tally, eq_comm]
    · simp only [List.mem_cons, List.not_mem_nil, or_false, not_or] at hw
      simp [tally, hw]
  refine hperm.eq_of_pairwise (fun a b _ _ hab hba => ?_) hsorted ?_
  · have hkey := Prod.ext_iff.1 (toLex.injective (le_antisymm hab hba))
    exact Prod.ext (String.toList_inj.1 hkey.1) (Int64.toInt_inj.1 hkey.2)
  · decide +kernel

theorem words_settled {moduleName : String} {disk : Disk} {argv : List String} :
    words.Settled moduleName disk argv none "and=2\nbat=1\ncat=1\nhat=1\nthe=3\n" := by
  intro hook s ctx c hh st
  obtain ⟨d, s₁, h₁, f₁, hd⟩ := newDict_frame st.steady
  have m₁ := st.module.frame f₁
  obtain ⟨s₂, h₂, f₂, m₂⟩ := m₁.storeName f₁.steady "counts" (by decide) hd.1
  obtain ⟨text, s₃, h₃, f₃, htext, -⟩ := internStr_frame f₂.steady "the cat and the hat and the bat"
  obtain ⟨l, items, s₄, h₄, f₄, hl, hitems⟩ :=
    split_frame noCode ctx f₃.steady ⟨_, htext⟩
  rw [words_text] at hitems
  obtain ⟨it, s₅, h₅, f₅, hit⟩ := iter_list f₄.steady hl
  have g := (f₃.again f₄).again f₅
  obtain ⟨s₆, h₆, f₆, L₆⟩ := (m₂.frame g).loop f₅.steady hit
  have hl₆ := f₆.other (m₂.frame g).has (f₅.keep hl) nofun
  have hd₆ := f₆.other (m₂.frame g).has (g.keep (f₂.other m₁.has hd nofun)) nofun
  have G := ((f₁.trans f₂).trans g).trans f₆
  have hcounting : Counting ctx it l d items
      ["the", "cat", "and", "the", "hat", "and", "the", "bat"] 0 s₆ :=
    { loop := ⟨_, L₆, c.get?_bind_self "counts" d⟩
      list := hl₆
      texts := f₆.areTexts (f₅.areTexts hitems)
      dict := ⟨_, hd₆, numbers_empty⟩
      output := G.output.trans st.output }
  obtain ⟨s₇, h₇, i₇, ⟨c₇, m₇, hcounts⟩, ⟨t, hd₇, hn⟩, hout₇⟩ := hcounting.run hh (by decide)
  obtain ⟨view, l', s₈, s₉, pairs, es, h₈, h₉, f₉, hl₉, hes, hsorted, hnodup, hmem⟩ :=
    Module.sortedItems noCode m₇ i₇ hd₇ hn
  obtain ⟨it', s₁₀, h₁₀, f₁₀, hit'⟩ := iter_list f₉.steady hl₉
  have m₁₀ := (m₇.frame f₉).frame f₁₀
  obtain ⟨s₁₁, h₁₁, f₁₁, L₁₁⟩ := m₁₀.loop f₁₀.steady hit'
  obtain ⟨format, s₁₂, h₁₂, f₁₂, hformat⟩ := internStr_frame f₁₁.steady "%s=%d"
  obtain ⟨first, s₁₃, h₁₃, f₁₃, hfirst⟩ := internInt_frame f₁₂.steady 0
  obtain ⟨second, s₁₄, h₁₄, f₁₄, hsecond⟩ := internInt_frame f₁₃.steady 1
  have g' := (f₁₂.again f₁₃).again f₁₄
  have hl' := g'.keep (f₁₁.other m₁₀.has (f₁₀.keep hl₉) nofun)
  have hlisting : Listing ctx it' l' format first second pairs es 0 s₁₄ :=
    { loop := ⟨_, L₁₁.frame g'⟩
      list := hl'
      entries := hes.imp fun _ _ h => g'.isEntry (f₁₁.isEntry (f₁₀.isEntry h))
      format := (Lasting.mk hformat.1 hformat.2 fun _ h => h).moves (f₁₃.again f₁₄).toMoves
      first := (Lasting.mk hfirst.1 hfirst.2 fun _ h => h).moves f₁₄.toMoves
      second := ⟨hsecond.1, hsecond.2, fun _ h => h⟩
      output := ((((f₉.trans f₁₀).trans f₁₁).trans g').output.trans hout₇) }
  obtain ⟨s₁₅, h₁₅, hout⟩ := hlisting.run hh
  rw [tally_entries hsorted hnodup hmem] at hout
  have hcount : forEach ctx l (countWord hook ctx) s₄ = .ok () s₇ := by
    rw [forEach, bind_of_ok h₅, bind_of_ok h₆, ask_bind_of_ok (Heap.depth_eq_ok.2 rfl),
      ask_bind_of_ok (stepsWithin_list hl₆ L₆.iterator), h₇]
  have hrun : words.script hook ctx s = .ok () s₁₅ := by
    show (_ >>= _ : Action Unit) s = _
    rw [bind_of_ok h₁, bind_of_ok h₂, bind_of_ok h₃, bind_of_ok h₄]
    show (forEach ctx l (countWord hook ctx) >>= _) s₄ = _
    rw [bind_of_ok hcount, bind_of_ok (m₇.loadName hcounts), bind_of_ok h₈, bind_of_ok h₉,
      bind_of_ok h₁₀, bind_of_ok h₁₁, bind_of_ok h₁₂, bind_of_ok h₁₃, bind_of_ok h₁₄,
      ask_bind_of_ok (Heap.depth_eq_ok.2 rfl),
      ask_bind_of_ok (stepsWithin_list hl' (L₁₁.frame g').iterator)]
    exact h₁₅
  rw [hrun, shown, hout]
  decide +kernel

end ObjectSpace.Program
