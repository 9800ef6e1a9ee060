import ObjectSpace.Proofs.Execution.Hooks
import ObjectSpace.Proofs.Execution.Numbers
import ObjectSpace.Proofs.Execution.Operations
import ObjectSpace.Proofs.Execution.Printing
import ObjectSpace.Proofs.Value.Hashing

/-!
# Outcomes of programs

What a run of a program shows to the outside: how it ends, and its output. The outcome of a program
is settled when it follows from the name of the module, the disk and the arguments alone
(`Program.Settled`): whatever the settings are, and with every hook that is safe.
-/

namespace ObjectSpace

/-- How an action ended, none if it completed, and the output by then. -/
def Space.shown : EStateM.Result Halt Space Unit → Option Halt × String
  | .ok _ s => (none, s.output)
  | .error e s => (some e, s.output)

theorem Space.shown_say (s : Space) (text : String) :
    Space.shown (.ok () (s.say text)) = (none, s.output ++ text) := rfl

namespace Program

/-- What a run of a program with a hook shows. -/
def observeWith (hook : Hook) (p : Program) (argv : List String) (settings : Settings)
    (disk : Disk) : Except Diagnostic (Option Halt × String) :=
  (Space.create settings disk).map fun s => Space.shown (p.executeWith hook argv s)

/-- What a run of a program shows. -/
def observe (p : Program) (argv : List String) (settings : Settings) (disk : Disk) :
    Except Diagnostic (Option Halt × String) :=
  (Space.create settings disk).map fun s => Space.shown (p.execute argv s)

/-- From every start with the given module name, disk and arguments a program ends in one way, with
a diagnostic or without, and with the same output. -/
def Settled (p : Program) (moduleName : String) (disk : Disk) (argv : List String)
    (end? : Option Diagnostic) (output : String) : Prop :=
  ∀ ⦃hook : Hook⦄ ⦃s : Space⦄ ⦃ctx : Handle⦄ ⦃c : Context⦄, hook.Safe →
    Space.Started moduleName disk argv p.slots s ctx c →
      Space.shown (p.script hook ctx s) = (end?.map .fatal, output)

variable {p : Program} {moduleName output : String} {disk : Disk} {argv : List String}
  {end? : Option Diagnostic} {hook : Hook} {settings : Settings}

/-- A settled outcome is what a run shows, whatever the settings are. -/
theorem Settled.observe_eq (h : p.Settled moduleName disk argv end? output) (hh : hook.Safe)
    (hl : settings.layout.check = .ok ()) (hn : settings.moduleName = moduleName) :
    p.observeWith hook argv settings disk = .ok (end?.map .fatal, output) := by
  obtain ⟨s, hs⟩ := Space.create_ok settings hl disk
  obtain ⟨s', ctx, c, hrun, hst⟩ := Space.execute_started hs hook p argv
  rw [hn] at hst
  rw [observeWith, hs, Except.map, hrun, h hh hst]

end Program

end ObjectSpace

/-!
## Programs without a hook

The programs that never let the collector run, one by one.
-/

namespace ObjectSpace.Program

open Space

variable {moduleName : String} {disk : Disk} {argv : List String}

theorem lists_settled : lists.Settled moduleName disk argv none "4\n" := by
  intro hook s ctx c _ st
  obtain ⟨items, s₁, h₁, f₁, hitems⟩ := internInts_frame st.steady [1, 2, 3]
  have hlive : ∀ v ∈ items.toArray.toList, s₁.heap.isLive v = true :=
    live_of_forall₂ (fun _ _ h => h.1) hitems
  obtain ⟨xs, s₂, h₂, f₂, hxs⟩ := newList_frame f₁.steady hlive
  have m₂ := (st.module.frame f₁).frame f₂
  obtain ⟨s₃, h₃, f₃, m₃⟩ := m₂.storeName f₂.steady "xs" (by decide) hxs.1
  have hxs₃ := f₃.other m₂.has hxs nofun
  have hload := Context.get?_bind_self c "xs" xs
  obtain ⟨four, s₄, h₄, f₄, hfour, -⟩ := internInt_frame f₃.steady 4
  obtain ⟨r, s₅, h₅, f₅, hxs₅⟩ :=
    append_frame noCode ctx f₄.steady (f₄.keep hxs₃) hfour.1
  have m₅ := (m₃.frame f₄).other f₅ (f₄.keep hxs₃) nofun
  have hsize : Integer.checked "len" (items.toArray.push four).size = .ok 4 := by
    rw [Array.size_push, List.size_toArray, hitems.length_eq]
    rfl
  obtain ⟨n, s₆, h₆, f₆, hn⟩ := m₅.len f₅.steady hxs₅ hsize
  obtain ⟨s₇, f₇, h₇⟩ := (m₅.frame f₆).printAll f₆.steady (.cons (.int hn) .nil)
  have hrun : lists.script hook ctx s = .ok () (s₇.say "4\n") := by
    show (_ >>= _ : Action Unit) s = _
    rw [bind_of_ok h₁, bind_of_ok h₂, bind_of_ok h₃, bind_of_ok (m₃.loadName hload),
      bind_of_ok h₄, bind_of_ok h₅, bind_of_ok (m₅.loadName hload), bind_of_ok h₆, h₇]
    rfl
  rw [hrun, shown_say, f₇.output, f₆.output, f₅.output, f₄.output, f₃.output, f₂.output,
    f₁.output, st.output]
  rfl

theorem arithError_settled :
    arithError.Settled moduleName disk argv (some (.binaryUnsupported "add" "int" "str")) "" := by
  intro hook s ctx c _ st
  obtain ⟨one, s₁, h₁, f₁, hone, -⟩ := internInt_frame st.steady 1
  obtain ⟨a, s₂, h₂, f₂, ha, -⟩ := internStr_frame f₁.steady "a"
  have hone₂ := f₂.keep hone
  have hunsupported : (Heap.unsupported "add" one a : Query Handle) s₂.heap =
      .error (.fatal (.binaryUnsupported "add" "int" "str")) := by
    have hint : Heap.typeName one s₂.heap = .ok "int" := Heap.typeName_of_kind hone₂.2 rfl
    have hstr : Heap.typeName a s₂.heap = .ok "str" := Heap.typeName_of_kind ha.2 rfl
    rw [Heap.unsupported, Heap.bind_of_ok hint, Heap.bind_of_ok hstr]
    rfl
  have hsum : binary .add one a s₂ =
      .error (.fatal (.binaryUnsupported "add" "int" "str")) s₂ := by
    rw [binary, get_bind_of_has hone₂, get_bind_of_has ha]
    exact ask_of_error hunsupported
  have hrun : arithError.script hook ctx s =
      .error (.fatal (.binaryUnsupported "add" "int" "str")) s₂ := by
    show (_ >>= _ : Action Unit) s = _
    rw [bind_of_ok h₁, bind_of_ok h₂, bind_of_error hsum]
  rw [hrun, shown, f₂.output, f₁.output, st.output]
  rfl

theorem dictMissing_settled :
    dictMissing.Settled moduleName disk argv (some (.keyNotFound "'b'")) "" := by
  intro hook s ctx c _ st
  obtain ⟨d, s₁, h₁, f₁, hd⟩ := newDict_frame st.steady
  have m₁ := st.module.frame f₁
  obtain ⟨s₂, h₂, f₂, m₂⟩ := m₁.storeName f₁.steady "d" (by decide) hd.1
  have hd₂ := f₂.other m₁.has hd nofun
  have hload := m₂.loadName (c.get?_bind_self "d" d)
  obtain ⟨a, s₃, h₃, f₃, ha, -⟩ := internStr_frame f₂.steady "a"
  obtain ⟨one, s₄, h₄, f₄, hone, -⟩ := internInt_frame f₃.steady 1
  obtain ⟨t, s₅, h₅, f₅, hd₅, hnumbers⟩ := setItem_numbers f₄.steady (f₄.keep (f₃.keep hd₂))
    numbers_empty ⟨_, f₄.keep ha⟩ hone
  obtain ⟨b, s₆, h₆, f₆, hb, -⟩ := internStr_frame f₅.steady "b"
  have hother : Function.update (fun _ => none) "a" (some 1) "b" = (none : Option Int64) := by
    simp
  have hmissing := getItem_missing f₆.steady (f₆.keep hd₅) (hnumbers.moves f₆.toMoves) ⟨_, hb⟩
    hother
  rw [show Literal.ofText "b" = "'b'" by decide] at hmissing
  have hrun : dictMissing.script hook ctx s = .error (.fatal (.keyNotFound "'b'")) s₆ := by
    show (_ >>= _ : Action Unit) s = _
    rw [bind_of_ok h₁, bind_of_ok h₂, bind_of_ok hload, bind_of_ok h₃, bind_of_ok h₄,
      bind_of_ok h₅, bind_of_ok h₆, bind_of_error hmissing]
  rw [hrun, shown, f₆.output, f₅.output, f₄.output, f₃.output, f₂.output, f₁.output, st.output]
  rfl

/-- How the arguments program ends, and what it prints. -/
def argsOutcome (moduleName : String) (argv : List String) : Option Diagnostic × String :=
  match Integer.checked "len" argv.length with
  | .error d => (some d, "")
  | .ok n =>
    let rest := Heap.bracketed "[" "]" (argv.tail.map Literal.ofText)
    (none, " ".intercalate [moduleName, Numeral.decimal n, rest] ++ "\n")

theorem args_settled :
    args.Settled moduleName disk argv (argsOutcome moduleName argv).1
      (argsOutcome moduleName argv).2 := by
  intro hook s ctx c _ st
  obtain ⟨name, hname, htext⟩ := st.moduleName
  obtain ⟨list, items, hargs, hlist, hitems⟩ := st.arguments
  have hsize : items.size = argv.length := by
    rw [← Array.length_toList, hitems.length_eq]
  have hload := st.module.loadName hname
  have hload' := st.module.loadName hargs
  rcases hc : Integer.checked "len" argv.length with d | n
  · obtain ⟨s₁, h₁, f₁⟩ := st.module.len_error st.steady hlist (hsize ▸ hc)
    have hrun : args.script hook ctx s = .error (.fatal d) s₁ := by
      show (_ >>= _ : Action Unit) s = _
      rw [bind_of_ok hload, bind_of_ok hload', bind_of_error h₁]
    rw [hrun, shown, f₁.output, st.output, argsOutcome, hc]
    rfl
  · obtain ⟨argc, s₁, h₁, f₁, hargc⟩ := st.module.len st.steady hlist (hsize ▸ hc)
    obtain ⟨one, s₂, h₂, f₂, hone, -⟩ := internInt_frame f₁.steady 1
    obtain ⟨rest, s₃, h₃, f₃, hrest⟩ :=
      slice_frame f₂.steady (f₂.keep (f₁.keep hlist)) hone
    have f := (f₁.again f₂).again f₃
    have hitems₃ : AreTexts s₃.heap items.toList.tail.toArray.toList argv.tail := by
      rw [List.toList_toArray, ← List.drop_one, ← List.drop_one]
      exact List.forall₂_drop 1 (f.areTexts hitems)
    obtain ⟨s₄, f₄, h₄⟩ := (st.module.frame f).printAll f.steady
      (.cons (.text (f.isText htext)) (.cons (.int (f₃.keep (f₂.keep hargc)))
        (.cons (.texts hrest hitems₃) .nil)))
    have hrun : args.script hook ctx s = .ok () (s₄.say (argsOutcome moduleName argv).2) := by
      show (_ >>= _ : Action Unit) s = _
      rw [bind_of_ok hload, bind_of_ok hload', bind_of_ok h₁, bind_of_ok h₂, bind_of_ok h₃, h₄,
        argsOutcome, hc]
    rw [hrun, shown_say, f₄.output, f.output, st.output, String.empty_append, argsOutcome, hc]
    rfl

end ObjectSpace.Program
