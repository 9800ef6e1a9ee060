import ObjectSpace.Proofs.Execution.Hooks
import ObjectSpace.Proofs.Programs.Classes
import ObjectSpace.Proofs.Programs.Files
import ObjectSpace.Proofs.Programs.Outcome
import ObjectSpace.Proofs.Programs.Words

/-!
# Collections do not show

**Theorem (`collections_invisible`).** How a built-in program ends and what it prints does not
depend on how its memory is laid out, nor on when collections run.

Every program has a settled outcome (`exists_settled`), a function of the name of the module, the
disk and the arguments. The last of them is the stress program: it makes ten thousand numbers and
their texts, and keeps every hundredth text in a list. Before each round the list has the texts of
the multiples of hundred so far (`Stressing`); the list is kept by its name, so that it and its
texts outlive the hook in every round.
-/

namespace ObjectSpace.Program

/-! ## The stress program -/

section Stress

open Space

variable {hook : Hook} {s s' : Space} {ctx it keep hundred zero : Handle} {j : Nat}

/-- The texts of the first multiples of hundred. -/
def multiples (m : Nat) : List String :=
  (List.range m).map fun k => Numeral.decimal (Int64.ofNat (100 * k))

theorem multiples_succ (m : Nat) :
    multiples (m + 1) = multiples m ++ [Numeral.decimal (Int64.ofNat (100 * m))] := by
  rw [multiples, List.range_succ, List.map_append]
  rfl

/-- What the stress program does with a number. -/
def keepText (hook : Hook) (ctx hundred zero i : Handle) : Action Unit := do
  storeName ctx "i" i
  let s ← callName ctx "str" [i]
  storeName ctx "s" s
  let rem ← binary .mod i hundred
  if ← Heap.equal rem zero then
    let keep ← loadName ctx "keep"
    let _ ← callMethod noCode ctx keep "append" [s]
  hook ctx

/-- Before round `j`. -/
structure Stressing (ctx it keep hundred zero : Handle) (j : Nat) (s : Space) : Prop where
  loop : ∃ c, Looping ctx it (.range (Int64.ofNat j) 1 (10000 - j)) c s ∧
    c.names.get? "keep" = some keep
  kept : ∃ items, s.heap.Has keep (.list items) ∧
    AreTexts s.heap items.toList (multiples ((j + 99) / 100))
  hundred : Lasting s hundred (.int 100)
  zero : Lasting s zero (.int 0)
  output : s.output = ""

theorem Stressing.round (hh : hook.Safe) (h : Stressing ctx it keep hundred zero j s)
    (hj : j < 10000) :
    ∃ v s₁ s₂, Heap.load ctx 0 s.heap = .ok it ∧ next it s = .ok (some v) s₁ ∧
      keepText hook ctx hundred zero v s₁ = .ok () s₂ ∧
      Stressing ctx it keep hundred zero (j + 1) s₂ := by
  obtain ⟨⟨c, L, hkeep⟩, ⟨items, hitems, htexts⟩, hhundred, hzero, hout⟩ := h
  have hrest : 10000 - j = 10000 - (j + 1) + 1 := by omega
  have hit := L.iterator
  rw [hrest] at hit
  obtain ⟨i, s₁, h₁, f₁, hi, hit₁⟩ := next_term L.steady hit
  have hnext : Int64.ofNat j + 1 = Int64.ofNat (j + 1) := by simp
  rw [hnext] at hit₁
  have L₁ := L.advance f₁ hit₁
  obtain ⟨s₂, h₂, f₂, L₂⟩ := L₁.storeName "i" (by decide) hi.1
  have hi₂ : s₂.heap.Has i (.int (Int64.ofNat j)) := f₂.fixed hi fun _ h => h
  obtain ⟨text, s₃, h₃, f₃, htext⟩ := L₂.module.textOf L₂.steady (.int hi₂)
  have L₃ := L₂.frame f₃
  obtain ⟨s₄, h₄, f₄, L₄⟩ := L₃.storeName "s" (by decide) htext.live
  have f₁₄ := ((f₁.trans f₂).trans f₃).trans f₄
  have hi₄ : s₄.heap.Has i (.int (Int64.ofNat j)) := f₄.fixed (f₃.keep hi₂) fun _ h => h
  obtain ⟨rem, s₅, h₅, f₅, hrem⟩ := binary_frame L₄.steady hi₄ (hhundred.moves f₁₄.toMoves).has
    (Integer.binary?_mod (m := j) (n := 100) (by omega) (by omega) (by omega))
  have L₅ := L₄.frame f₅
  have f₁₅ := f₁₄.trans f₅
  have hzero₅ := hzero.moves f₁₅.toMoves
  have hitems₄ := f₄.other L₃.module.has (f₃.keep (f₂.other L₁.module.has
    (f₁.other hit hitems nofun) nofun)) nofun
  have hitems₅ := f₅.keep hitems₄
  have htexts₅ := f₁₅.areTexts htexts
  have htext₅ := f₅.isText (f₄.isText htext)
  have hkeep₅ : (((c.bind "i" i).bind "s" text)).names.get? "keep" = some keep :=
    Context.get?_bind_of_ne _ _ (by decide) (Context.get?_bind_of_ne _ _ (by decide) hkeep)
  obtain ⟨r, hr, hiff⟩ :=
    (keyed_int hrem).equal L₅.steady.ordered.legible (keyed_int hzero₅.has)
  have hiff : r = true ↔ j % 100 = 0 := by
    rw [hiff, Key.number.injEq, ← Int64.toInt_inj, Int64.toInt_ofNat_of_lt (by omega),
      Int64.toInt_zero]
    omega
  -- whether the text is kept or not, the list has the texts that it should have
  obtain ⟨s₆, h₆, f₆, items', hitems₆, htexts₆⟩ : ∃ s₆, keepText hook ctx hundred zero i s₁ =
      hook ctx s₆ ∧ Space.Frame [keep] s₅ s₆ ∧ ∃ items', s₆.heap.Has keep (.list items') ∧
        AreTexts s₆.heap items'.toList (multiples ((j + 1 + 99) / 100)) := by
    have hstart : keepText hook ctx hundred zero i s₁ = (if r then (do
        let keep ← loadName ctx "keep"
        let _ ← callMethod noCode ctx keep "append" [text]
        hook ctx) else hook ctx : Action Unit) s₅ := by
      rw [keepText, bind_of_ok h₂, bind_of_ok h₃, bind_of_ok h₄, bind_of_ok h₅,
        ask_bind_of_ok hr]
    rw [hstart]
    by_cases hj100 : j % 100 = 0
    · obtain ⟨u, s₆, h₆, f₆, hitems₆⟩ :=
        append_frame noCode ctx L₅.steady hitems₅ htext₅.live
      rw [if_pos (hiff.2 hj100), bind_of_ok (L₅.module.loadName hkeep₅), bind_of_ok h₆]
      have hindex : (j + 1 + 99) / 100 = (j + 99) / 100 + 1 := by omega
      have hvalue : 100 * ((j + 99) / 100) = j := by omega
      refine ⟨s₆, rfl, f₆, _, hitems₆, ?_⟩
      rw [hindex, multiples_succ, hvalue, Array.toList_push]
      exact List.rel_append (f₆.areTexts htexts₅) (.cons (f₆.isText htext₅) .nil)
    · have hindex : (j + 1 + 99) / 100 = (j + 99) / 100 := by omega
      rw [if_neg (mt hiff.1 hj100), hindex]
      exact ⟨s₅, rfl, .refl L₅.steady, items, hitems₅, htexts₅⟩
  have L₆ := L₅.other f₆ hitems₅ nofun nofun
  obtain ⟨s₇, h₇, p, L₇⟩ := L₆.hook hh
  have rkeep : s₆.heap.Reaches (s₆.roots ctx none) keep :=
    reaches_name reaches_here L₆.module.has hkeep₅
  have f₁₆ := f₁₅.trans f₆
  exact ⟨i, s₁, s₇, L.load, h₁, h₆.trans h₇,
    { loop := ⟨_, L₇, hkeep₅⟩
      kept := ⟨items', p.has keep _ rkeep hitems₆, p.areTexts rkeep hitems₆ htexts₆⟩
      hundred := (hhundred.moves f₁₆.toMoves).spared p
      zero := (hzero.moves f₁₆.toMoves).spared p
      output := p.output.trans (f₁₆.output.trans hout) }⟩

/-- After all rounds. -/
structure Stressed (ctx keep : Handle) (s : Space) : Prop where
  steady : s.Steady
  module : ∃ c, Module s ctx c ∧ c.names.get? "keep" = some keep
  kept : ∃ items, s.heap.Has keep (.list items) ∧ AreTexts s.heap items.toList (multiples 100)
  output : s.output = ""

theorem Stressing.run (hh : hook.Safe) (h : Stressing ctx it keep hundred zero 0 s) :
    ∃ s', eachRound ctx (keepText hook ctx hundred zero) (10000 + 1) s = .ok () s' ∧
      Stressed ctx keep s' := by
  refine eachRound_rule (Stressing ctx it keep hundred zero) (fun j s hj h => ?_)
    (fun s h => ?_) h
  · obtain ⟨v, s₁, s₂, hr⟩ := h.round hh hj
    exact ⟨it, v, s₁, s₂, hr⟩
  · obtain ⟨⟨c, L, hkeep⟩, ⟨items, hitems, htexts⟩, -, -, hout⟩ := h
    obtain ⟨s', hs', f⟩ := next_no_term L.steady L.iterator
    exact ⟨it, s', L.load, hs',
      { steady := f.steady
        module := ⟨c, L.module.other f L.iterator nofun, hkeep⟩
        kept := ⟨items, f.other L.iterator hitems nofun, f.areTexts htexts⟩
        output := f.output.trans hout }⟩

theorem gcStress_settled {moduleName : String} {disk : Disk} {argv : List String} :
    gcStress.Settled moduleName disk argv none "100 9900\n" := by
  intro hook s ctx c hh st
  have hempty : ∀ x ∈ (#[] : Array Handle).toList, s.heap.isLive x = true := nofun
  obtain ⟨keep, s₁, h₁, f₁, hkeep⟩ := newList_frame st.steady hempty
  have m₁ := st.module.frame f₁
  obtain ⟨s₂, h₂, f₂, m₂⟩ := m₁.storeName f₁.steady "keep" (by decide) hkeep.1
  obtain ⟨bound, s₃, h₃, f₃, hbound, -⟩ := internInt_frame f₂.steady 10000
  have m₃ := m₂.frame f₃
  obtain ⟨range, s₄, h₄, f₄, hrange⟩ := m₃.range f₃.steady hbound
  obtain ⟨it, s₅, h₅, f₅, hit⟩ := iter_range f₄.steady hrange
  have m₅ := (m₃.frame f₄).frame f₅
  have g := (f₃.again f₄).again f₅
  obtain ⟨s₆, h₆, f₆, L₆⟩ := m₅.loop f₅.steady hit
  have hkeep₆ := f₆.other m₅.has (g.keep (f₂.other m₁.has hkeep nofun)) nofun
  obtain ⟨hundred, s₇, h₇, f₇, hhundred⟩ := internInt_frame f₆.steady 100
  obtain ⟨zero, s₈, h₈, f₈, hzero⟩ := internInt_frame f₇.steady 0
  have g' := f₇.again f₈
  have L₈ := L₆.frame g'
  have hstart : Stressing ctx it keep hundred zero 0 s₈ :=
    { loop := ⟨_, L₈, c.get?_bind_self "keep" keep⟩
      kept := ⟨#[], g'.keep hkeep₆, .nil⟩
      hundred := (Lasting.mk hhundred.1 hhundred.2 fun _ h => h).moves f₈.toMoves
      zero := ⟨hzero.1, hzero.2, fun _ h => h⟩
      output := (((((f₁.trans f₂).trans g).trans f₆).trans g').output.trans st.output) }
  obtain ⟨s₉, h₉, i₉, ⟨c₉, m₉, hget⟩, ⟨items, hitems, htexts⟩, hout⟩ := hstart.run hh
  have hsize : items.size = 100 := by
    rw [← Array.length_toList, htexts.length_eq, multiples, List.length_map, List.length_range]
  have hlen : Integer.checked "len" items.size = .ok 100 := by
    rw [hsize]
    rfl
  obtain ⟨n, s₁₀, h₁₀, f₁₀, hn⟩ := m₉.len i₉ hitems hlen
  obtain ⟨last, s₁₁, h₁₁, f₁₁, hlast, -⟩ := internInt_frame f₁₀.steady (-1)
  have hplace : normalizeIndex (-1) items.size "list" = .ok 99 := by
    rw [hsize]
    rfl
  have hitems₁₁ := (f₁₀.again f₁₁).keep hitems
  have htail : IsText s₁₁.heap (items.getD 99 keep) "9900" := by
    have hlt : 99 < items.size := by omega
    have hlt' : 99 < (multiples 100).length := by simp [multiples]
    have htext := htexts.get (by simpa using hlt) hlt'
    have hvalue : (multiples 100)[99] = "9900" := by
      simp only [multiples, List.getElem_map, List.getElem_range]
      decide +kernel
    rw [List.get_eq_getElem, List.get_eq_getElem, hvalue] at htext
    have hget : items.getD 99 keep = items[99] := by simp [hlt]
    rw [hget]
    exact (f₁₀.again f₁₁).isText htext
  obtain ⟨s₁₂, f₁₂, h₁₂⟩ := ((m₉.frame f₁₀).frame f₁₁).printAll f₁₁.steady
    (.cons (.int (f₁₁.keep hn)) (.cons (.text htail) .nil))
  have hrun : gcStress.script hook ctx s = .ok () (s₁₂.say "100 9900\n") := by
    show (_ >>= _ : Action Unit) s = _
    rw [bind_of_ok h₁, bind_of_ok h₂, bind_of_ok h₃, bind_of_ok h₄, bind_of_ok h₅, bind_of_ok h₆,
      bind_of_ok h₇, bind_of_ok h₈, ask_bind_of_ok (Heap.depth_eq_ok.2 rfl),
      ask_bind_of_ok (stepsWithin_range L₈.iterator)]
    show (eachRound ctx (keepText hook ctx hundred zero) (10000 + 1) >>= _) s₈ = _
    rw [bind_of_ok h₉, bind_of_ok (m₉.loadName hget), bind_of_ok h₁₀, bind_of_ok h₁₁,
      bind_of_ok (getItem_list hitems₁₁ hlast hplace), h₁₂]
    rfl
  rw [hrun, shown_say, f₁₂.output, f₁₁.output, f₁₀.output, hout]
  rfl

end Stress

/-! ## All programs -/

/-- Every built-in program has a settled outcome. -/
theorem exists_settled {p : Program} (hp : p ∈ all) (moduleName : String) (disk : Disk)
    (argv : List String) : ∃ end? output, p.Settled moduleName disk argv end? output := by
  rw [all] at hp
  simp only [List.mem_cons, List.not_mem_nil, or_false] at hp
  rcases hp with rfl | rfl | rfl | rfl | rfl | rfl | rfl | rfl
  · exact ⟨_, _, lists_settled⟩
  · exact ⟨_, _, words_settled⟩
  · exact ⟨_, _, dictMissing_settled⟩
  · exact ⟨_, _, arithError_settled⟩
  · exact ⟨_, _, classes_settled⟩
  · exact ⟨_, _, args_settled⟩
  · exact ⟨_, _, files_settled⟩
  · exact ⟨_, _, gcStress_settled⟩

/-- **Collections do not show.** With any two accepted settings that give the same module name, a
program that starts with the same disk and arguments ends in the same way, by itself or with the
same diagnostic but never with a violation, and has the same output. The same holds with every hook
that keeps no more than what a collection marks in place of the safe points: the programs hold
nothing across a hook that the hook does not mark. -/
theorem collections_invisible {p : Program} (hp : p ∈ all) (argv : List String) (disk : Disk)
    {settings settings' : Settings} (hs : settings.layout.check = .ok ())
    (hs' : settings'.layout.check = .ok ()) (hn : settings'.moduleName = settings.moduleName) :
    ∃ (end? : Option Diagnostic) (output : String),
      p.observe argv settings disk = .ok (end?.map .fatal, output) ∧
      p.observe argv settings' disk = .ok (end?.map .fatal, output) ∧
      ∀ hook : Hook, hook.Safe →
        p.observeWith hook argv settings disk = .ok (end?.map .fatal, output) := by
  obtain ⟨end?, output, h⟩ := exists_settled hp settings.moduleName disk argv
  exact ⟨end?, output, h.observe_eq Space.safePoint_safe hs rfl,
    h.observe_eq Space.safePoint_safe hs' hn, fun hook hh => h.observe_eq hh hs rfl⟩

/-- The stress program with a collection after every allocation, and in small blocks without any. -/
theorem collections_invisible_stress :
    ∃ (end? : Option Diagnostic) (output : String),
      gcStress.observe [] { threshold := 1 } {} = .ok (end?.map .fatal, output) ∧
      gcStress.observe [] { threshold := 1000000, layout := { blockSize := 1024 } } {} =
        .ok (end?.map .fatal, output) ∧
      ∀ hook : Hook, hook.Safe →
        gcStress.observeWith hook [] { threshold := 1 } {} = .ok (end?.map .fatal, output) :=
  collections_invisible (by simp [all]) [] {} rfl rfl rfl

end ObjectSpace.Program
