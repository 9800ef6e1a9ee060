import ObjectSpace.Proofs.Execution.Files
import ObjectSpace.Proofs.Execution.Hooks
import ObjectSpace.Proofs.Programs.Outcome

/-!
# Writing and reading a file

How the files program ends and what it prints follows from what is on disk when it starts and from
its arguments (`filesOutcome`). The file that it writes is closed before the hook, so that no buffer
is left to be emptied at a time that would depend on the settings.
-/

namespace ObjectSpace.Program

open Space

variable {hook : Hook} {s s' : Space} {ctx f v : Handle} {c : Context} {disk : Disk}
  {name path : String} {w : Writer} {place : Place}

/-! ## Writing -/

/-- What the files program does with a line. -/
def writeLine (ctx f : Handle) (line : String) : Action Unit := do
  let text ← internStr line
  let _ ← callMethod noCode ctx f "write" [text]

theorem writeLine_moves (ctx : Handle) (i : s.Steady)
    (hf : s.heap.Has f (.file ⟨name, false, .writer w⟩)) (hw : s.heap.Writers [f]) (line : String) :
    ∃ s', writeLine ctx f line s = .ok () s' ∧ Moves [f] s s' ∧
      s'.heap.Has f (.file ⟨name, false, .writer (w.write s.disk (Utf8.encode line)).1⟩) ∧
      s'.heap.Writers [f] ∧ s'.disk = (w.write s.disk (Utf8.encode line)).2 := by
  obtain ⟨text, s₁, h₁, f₁, htext, -⟩ := internStr_frame i line
  obtain ⟨hw₁, hd₁⟩ := f₁.dry [f] hw
  obtain ⟨r, s₂, h₂, m₂, hf₂, hw₂, hd₂⟩ := write_moves noCode ctx f₁.steady
    (f₁.keep hf) hw₁ ⟨_, htext⟩
  rw [hd₁] at hf₂ hd₂
  refine ⟨s₂, ?_, (f₁.toMoves.trans m₂).mono (by simp), hf₂, hw₂, hd₂⟩
  rw [writeLine, bind_of_ok h₁, bind_of_ok h₂]
  rfl

/-- The disk when the lines are written. -/
def linesWritten (w : Writer) (disk : Disk) : Disk :=
  let alpha := w.write disk (Utf8.encode "alpha\n")
  let beta := alpha.1.write alpha.2 (Utf8.encode "beta\n")
  (beta.1.flush beta.2).2

/-- Writing the lines and closing the file leaves no buffer to be emptied. -/
theorem writeLines_moves (ctx : Handle) (i : s.Steady)
    (hf : s.heap.Has f (.file ⟨name, false, .writer w⟩)) (hw : s.heap.Writers [f]) :
    ∃ r s₁ s₂, ["alpha\n", "beta\n"].forM (writeLine ctx f) s = .ok () s₁ ∧
      callMethod noCode ctx f "close" [] s₁ = .ok r s₂ ∧ Moves [f] s s₂ ∧
      s₂.heap.Writers [] ∧ s₂.disk = linesWritten w s.disk := by
  obtain ⟨s₁, h₁, m₁, hf₁, hw₁, hd₁⟩ := writeLine_moves ctx i hf hw "alpha\n"
  obtain ⟨s₂, h₂, m₂, hf₂, hw₂, hd₂⟩ := writeLine_moves ctx m₁.steady hf₁ hw₁ "beta\n"
  obtain ⟨r, s₃, h₃, m₃, hw₃, hd₃⟩ :=
    close_moves noCode ctx m₂.steady hf₂ hw₂
  refine ⟨r, s₂, s₃, ?_, h₃, ((m₁.trans m₂).trans m₃).mono (by simp), hw₃, ?_⟩
  · show (writeLine ctx f "alpha\n" >>= fun _ =>
      writeLine ctx f "beta\n" >>= fun _ => pure ()) s = _
    rw [bind_of_ok h₁, bind_of_ok h₂]
    rfl
  · rw [hd₃, hd₂, hd₁, linesWritten]

/-! ## Reading -/

/-- What the files program does after the hook. -/
def readWords (ctx : Handle) : Action Unit := do
  let path ← loadName ctx "path"
  let reader ← callName ctx "open" [path]
  let content ← callMethod noCode ctx reader "read" []
  let words ← callMethod noCode ctx content "split" []
  printAll ctx [words]

/-- How reading the words ends, and what is printed. -/
def wordsOutcome (disk : Disk) (path : String) : Option Diagnostic × String :=
  match disk.openForReading path with
  | .error fault => (some (fault.diagnostic path), "")
  | .ok place =>
    match readText disk place with
    | .error d => (some d, "")
    | .ok text => (none, Heap.bracketed "[" "]" ((Text.words text).map Literal.ofText) ++ "\n")

theorem readWords_shown (i : s.Steady) (m : Module s ctx c) (hw : s.heap.Writers [])
    (hv : c.names.get? "path" = some v) (hpath : IsText s.heap v path) (hout : s.output = "") :
    Space.shown (readWords ctx s) =
      ((wordsOutcome s.disk path).1.map .fatal, (wordsOutcome s.disk path).2) := by
  obtain ⟨s₁, f₁, h₁⟩ := m.open_path i hpath
  obtain ⟨hw₁, hd₁⟩ := f₁.dry [] hw
  rw [readWords, bind_of_ok (m.loadName hv)]
  rcases hopen : s.disk.openForReading path with fault | place
  · have herror : callName ctx "open" [v] s = .error (.fatal (fault.diagnostic path)) s₁ := by
      rw [h₁, openFile_r, hd₁, hopen]
    rw [bind_of_error herror, shown, f₁.output, hout, wordsOutcome, hopen]
    rfl
  · obtain ⟨f, s₂, h₂, f₂, hf⟩ := openFile_read f₁.steady (hd₁ ▸ hopen)
    have hreader : callName ctx "open" [v] s = .ok f s₂ := h₁.trans h₂
    have f₁₂ := f₁.again f₂
    obtain ⟨hw₂, hd₂⟩ := f₁₂.dry [] hw
    obtain ⟨s₃, f₃, h₃⟩ := read_eq noCode ctx f₂.steady hf hw₂
    rw [bind_of_ok hreader]
    rw [hd₂] at h₃
    rcases hread : readText s.disk place with d | text
    · rw [hread] at h₃
      rw [bind_of_error h₃, shown, f₃.output, f₁₂.output, hout, wordsOutcome, hopen]
      dsimp only
      rw [hread]
      rfl
    · rw [hread] at h₃
      obtain ⟨content, s₄, h₄, f₄, hcontent⟩ := newStr_frame f₃.steady text
      obtain ⟨words, items, s₅, h₅, f₅, hwords, hitems⟩ :=
        split_frame noCode ctx f₄.steady ⟨_, hcontent⟩
      have m₅ := (((m.frame f₁₂).other f₃ hf (by simp)).frame f₄).frame f₅
      obtain ⟨s₆, f₆, h₆⟩ := m₅.printAll f₅.steady (.cons (.texts hwords hitems) .nil)
      rw [bind_of_ok (h₃.trans h₄), bind_of_ok h₅, h₆, shown_say, f₆.output, f₅.output,
        f₄.output, f₃.output, f₁₂.output, hout, wordsOutcome, hopen]
      dsimp only
      rw [hread]
      rfl

/-! ## The program -/

/-- What the files program does with the path of the file. -/
def writeAndRead (hook : Hook) (ctx path mode : Handle) : Action Unit := do
  let f ← callName ctx "open" [path, mode]
  storeName ctx "f" f
  ["alpha\n", "beta\n"].forM (writeLine ctx f)
  let _ ← callMethod noCode ctx f "close" []
  hook ctx
  readWords ctx

/-- How writing a file and reading it ends, and what is printed. -/
def pathOutcome (disk : Disk) (path : String) : Option Diagnostic × String :=
  match disk.openForWriting path true with
  | .error fault => (some (fault.diagnostic path), "")
  | .ok (place, disk) => wordsOutcome (linesWritten { place, offset := some 0 } disk) path

theorem writeAndRead_shown (hh : hook.Safe) (i : s.Steady) (m : Module s ctx c)
    (hw : s.heap.Writers []) (hv : c.names.get? "path" = some v) (hpath : IsText s.heap v path)
    {mode : Handle} (hmode : IsText s.heap mode "w") (hout : s.output = "") :
    Space.shown (writeAndRead hook ctx v mode s) =
      ((pathOutcome s.disk path).1.map .fatal, (pathOutcome s.disk path).2) := by
  obtain ⟨s₁, f₁, h₁⟩ := m.open_mode i hpath hmode
  obtain ⟨hw₁, hd₁⟩ := f₁.dry [] hw
  rw [writeAndRead, pathOutcome]
  rcases hopen : s.disk.openForWriting path true with fault | ⟨place, disk⟩
  · have herror : callName ctx "open" [v, mode] s = .error (.fatal (fault.diagnostic path)) s₁ := by
      rw [h₁, openFile_w, hd₁, hopen]
    rw [bind_of_error herror, shown, f₁.output, hout]
    rfl
  · obtain ⟨f, s₂, h₂, f₂, hf, hw₂, hd₂⟩ := openFile_write f₁.steady hw₁ (hd₁ ▸ hopen)
    have hfile : callName ctx "open" [v, mode] s = .ok f s₂ := h₁.trans h₂
    have m₁ := m.frame f₁
    have m₂ := m₁.kept f₂ (f₂.keep m₁.has)
    obtain ⟨s₃, h₃, f₃, m₃⟩ := m₂.storeName f₂.steady "f" (by decide) hf.1
    obtain ⟨hw₃, hd₃⟩ := f₃.dry [f] hw₂
    have hf₃ := f₃.other m₂.has hf (by simp)
    obtain ⟨r, s₄, s₅, h₄, h₅, f₅, hw₅, hd₅⟩ := writeLines_moves ctx f₃.steady hf₃ hw₃
    have m₅ := m₃.kept f₅ (f₅.other hf₃ m₃.has (by simp))
    -- the file is closed by now, so that the hook cannot come between the lines and the disk
    obtain ⟨s₆, h₆, p⟩ := hh ctx s₅ f₅.steady m₅.has.1
    have hv₅ := Context.get?_bind_of_ne "f" f (by decide) hv
    have F := ((f₁.toMoves.trans f₂).trans f₃.toMoves).trans f₅
    have hpath₆ := p.isText (reaches_name reaches_here m₅.has hv₅) (F.isText hpath)
    have hdisk : s₆.disk = linesWritten { place, offset := some 0 } disk := by
      rw [p.disk, hd₅, hd₃, hd₂]
    rw [bind_of_ok hfile, bind_of_ok h₃, bind_of_ok h₄, bind_of_ok h₅, bind_of_ok h₆]
    dsimp only
    rw [← hdisk]
    exact readWords_shown p.steady (p.module m₅ reaches_here) (p.writers hw₅) hv₅ hpath₆
      (p.output.trans (F.output.trans hout))

/-- How the files program ends, and what it prints. -/
def filesOutcome (disk : Disk) (argv : List String) : Option Diagnostic × String :=
  match argv[1]? with
  | none => (some (.indexOutOfRange "list"), "")
  | some path => pathOutcome disk path

theorem files_settled {moduleName : String} {argv : List String} :
    files.Settled moduleName disk argv (filesOutcome disk argv).1 (filesOutcome disk argv).2 := by
  intro hook s ctx c hh st
  obtain ⟨list, items, hargs, hlist, hitems⟩ := st.arguments
  have hload := st.module.loadName hargs
  have hsize : items.size = argv.length := by rw [← Array.length_toList, hitems.length_eq]
  obtain ⟨one, s₁, h₁, f₁, hone, -⟩ := internInt_frame st.steady 1
  have m₁ := st.module.frame f₁
  have hlist₁ := f₁.keep hlist
  rcases hp : argv[1]? with _ | path
  · have hindex : normalizeIndex 1 items.size "list" = .error (.indexOutOfRange "list") := by
      rw [normalizeIndex_one, hsize, if_neg (Nat.not_lt.2 (List.getElem?_eq_none_iff.1 hp))]
    have hrun : files.script hook ctx s = .error (.fatal (.indexOutOfRange "list")) s₁ := by
      show (_ >>= _ : Action Unit) s = _
      rw [bind_of_ok hload, bind_of_ok h₁,
        bind_of_error (getItem_list_error hlist₁ hone hindex)]
    rw [hrun, shown, f₁.output, st.output, filesOutcome, hp]
    rfl
  · obtain ⟨hlt, rfl⟩ := List.getElem?_eq_some_iff.1 hp
    have hlt' : 1 < items.size := by rwa [hsize]
    have hindex : normalizeIndex 1 items.size "list" = .ok 1 := by
      rw [normalizeIndex_one, if_pos hlt']
    have hpath : IsText s.heap (items.getD 1 list) argv[1] := by
      have htext : IsText s.heap items[1] argv[1] := hitems.get (by simpa using hlt') hlt
      rwa [show items.getD 1 list = items[1] by simp [hlt']]
    obtain ⟨s₂, h₂, f₂, m₂⟩ := m₁.storeName f₁.steady "path" (by decide) (f₁.isText hpath).live
    obtain ⟨mode, s₃, h₃, f₃, hmode, -⟩ := internStr_frame f₂.steady "w"
    have f := (f₁.trans f₂).trans f₃
    obtain ⟨hw₃, hd₃⟩ := f.dry [] st.writers
    have hrun : files.script hook ctx s = writeAndRead hook ctx (items.getD 1 list) mode s₃ := by
      show (_ >>= _ : Action Unit) s = _
      rw [bind_of_ok hload, bind_of_ok h₁, bind_of_ok (getItem_list hlist₁ hone hindex),
        bind_of_ok h₂, bind_of_ok h₃]
      rfl
    rw [hrun, filesOutcome, hp, ← st.disk_eq, ← hd₃]
    exact writeAndRead_shown hh f.steady (m₂.frame f₃) hw₃ (c.get?_bind_self "path" _)
      (f.isText hpath) ⟨_, hmode⟩ (f.output.trans st.output)

end ObjectSpace.Program
