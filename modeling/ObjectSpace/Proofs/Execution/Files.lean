import ObjectSpace.Proofs.Execution.Calling

/-!
# Files of a program

Opening, writing, closing and reading a file. What is on disk afterwards follows from what was on it
before, since nothing but the file of the program is open for writing, and the file is one of the
live objects (`Heap.Writers`).
-/

namespace ObjectSpace

namespace Space

variable {s s' : Space} {ctx f v path mode : Handle} {c : Context} {name : String} {place : Place}
  {disk : Disk} {fault : PathFault} {text : String} {w : Writer} {code : Code} {binary : Bool}

/-- Changing the disk leaves the objects. -/
theorem disk_moves (i : s.Steady) (disk : Disk) : Moves [] s { s with disk } :=
  ⟨i.step (.disk disk), .refl _, fun _ _ _ h => h, rfl, rfl, rfl, rfl, fun _ h => h⟩

theorem changeDisk_eq {α : Type} {g : Disk → α × Disk} {a : α} (h : g s.disk = (a, disk)) :
    changeDisk g s = .ok a { s with disk } := by
  have heq : changeDisk g s = .ok (g s.disk).1 { s with disk := (g s.disk).2 } := rfl
  rw [heq, h]

/-! ## Opening -/

theorem Module.open_mode (m : Module s ctx c) (i : s.Steady) (hpath : IsText s.heap path name)
    (hmode : IsText s.heap mode text) :
    ∃ s', Frame [] s s' ∧
      Program.callName ctx "open" [path, mode] s = openFile name text s' := by
  have hargs : ∀ a ∈ [path, mode], s.heap.isLive a = true := by simp [hpath.live, hmode.live]
  obtain ⟨s', fr, h⟩ := m.callBuiltin (f := .open) i (by decide) hargs
  refine ⟨s', fr, h.trans ?_⟩
  show ((liftM (Heap.expectStr path "open") : Action String) >>= _) s' = _
  rw [ask_bind_of_ok (Heap.expectStr_text (fr.isText hpath) "open")]
  show (((liftM (Heap.expectStr mode "open") : Action String) >>= fun t => pure (some t)) >>= _)
    s' = _
  rw [bind_assoc, ask_bind_of_ok (Heap.expectStr_text (fr.isText hmode) "open")]
  rfl

theorem Module.open_path (m : Module s ctx c) (i : s.Steady) (hpath : IsText s.heap path name) :
    ∃ s', Frame [] s s' ∧ Program.callName ctx "open" [path] s = openFile name "r" s' := by
  obtain ⟨s', fr, h⟩ :=
    m.callBuiltin (f := .open) i (by decide) (List.forall_mem_singleton.2 hpath.live)
  refine ⟨s', fr, h.trans ?_⟩
  show ((liftM (Heap.expectStr path "open") : Action String) >>= _) s' = _
  rw [ask_bind_of_ok (Heap.expectStr_text (fr.isText hpath) "open")]
  rfl

theorem openFile_writing {mode : String} (truncate : Bool)
    (hmode : Access.ofMode? mode = some (if truncate then .write else .append, binary))
    (s : Space) (name : String) : openFile name mode s =
    match s.disk.openForWriting name truncate with
    | .error fault => .error (.fatal (fault.diagnostic name)) s
    | .ok (place, disk) => alloc (.file ⟨name, binary,
        .writer { place, offset := if truncate then some 0 else none }⟩) { s with disk } := by
  rw [openFile, hmode]
  show (get >>= _ : Action Handle) s = _
  rw [bind_of_ok (get_apply s)]
  dsimp only
  cases truncate with
  | true =>
    cases s.disk.openForWriting name true with
    | error fault => rfl
    | ok p => rfl
  | false =>
    cases s.disk.openForWriting name false with
    | error fault => rfl
    | ok p => rfl

theorem openFile_w (s : Space) (name : String) : openFile name "w" s =
    match s.disk.openForWriting name true with
    | .error fault => .error (.fatal (fault.diagnostic name)) s
    | .ok (place, disk) =>
      alloc (.file ⟨name, false, .writer { place, offset := some 0 }⟩) { s with disk } :=
  openFile_writing true rfl s name

theorem openFile_reading {mode : String} (hmode : Access.ofMode? mode = some (.read, binary))
    (s : Space) (name : String) : openFile name mode s =
    match s.disk.openForReading name with
    | .error fault => .error (.fatal (fault.diagnostic name)) s
    | .ok place => alloc (.file ⟨name, binary, .reader { place }⟩) s := by
  rw [openFile, hmode]
  show (get >>= _ : Action Handle) s = _
  rw [bind_of_ok (get_apply s)]
  dsimp only
  rcases s.disk.openForReading name with fault | place <;> rfl

theorem openFile_r (s : Space) (name : String) : openFile name "r" s =
    match s.disk.openForReading name with
    | .error fault => .error (.fatal (fault.diagnostic name)) s
    | .ok place => alloc (.file ⟨name, false, .reader { place }⟩) s :=
  openFile_reading rfl s name

/-- A file that is opened for writing is the only one. -/
theorem openFile_write (i : s.Steady) (hw : s.heap.Writers [])
    (h : s.disk.openForWriting name true = .ok (place, disk)) :
    ∃ f s', openFile name "w" s = .ok f s' ∧ Moves [] s s' ∧
      s'.heap.Has f (.file ⟨name, false, .writer { place, offset := some 0 }⟩) ∧
      s'.heap.Writers [f] ∧ s'.disk = disk := by
  have hd := disk_moves i disk
  obtain ⟨f, old, s', hs', m, hf, p, hdisk⟩ := alloc_moves hd.steady
    (o := .file ⟨name, false, .writer { place, offset := some 0 }⟩) trivial nofun
  refine ⟨f, s', ?_, hd.trans m, hf, hw.placed p, hdisk.trans (hw.settle p disk)⟩
  rw [openFile_w, h]
  exact hs'

theorem openFile_read (i : s.Steady) (h : s.disk.openForReading name = .ok place) :
    ∃ f s', openFile name "r" s = .ok f s' ∧ Frame [] s s' ∧
      s'.heap.Has f (.file ⟨name, false, .reader { place }⟩) := by
  rw [openFile_r, h]
  exact alloc_frame i trivial nofun nofun

/-! ## Writing and closing -/

theorem updateStream_eq {file : File} (hf : s.heap.Has f (.file file)) (stream : Stream) :
    ∃ g : Object → Object, updateStream f stream s = update f g s ∧
      g (.file file) = .file { file with stream } :=
  ⟨_, ask_bind_of_ok (Heap.file_of_get? hf.2), rfl⟩

/-- Changing the stream of a file. -/
theorem updateStream_moves (i : s.Steady) {file : File} (hf : s.heap.Has f (.file file))
    (stream : Stream) :
    ∃ s', updateStream f stream s = .ok () s' ∧ Moves [f] s s' ∧
      s'.heap.Has f (.file { file with stream }) ∧ s'.disk = s.disk ∧
      (s.heap.Writers [f] → s'.heap.Writers [f]) := by
  obtain ⟨g, hg, hgf⟩ := updateStream_eq hf stream
  obtain ⟨s', hs', m, hf', hheap, hdisk⟩ := update_moves i hf (f := g) (hgf ▸ .stream file stream)
    (by rw [hgf]; rintro _ ⟨⟩)
  refine ⟨s', hg.trans hs', m, hgf ▸ hf', hdisk, fun hw => ?_⟩
  rw [hheap]
  exact (hw.modify hf _).mono (by simp)

/-- Writing a text to a file. -/
theorem write_moves (code : Code) (ctx : Handle) (i : s.Steady)
    (hf : s.heap.Has f (.file ⟨name, binary, .writer w⟩)) (hw : s.heap.Writers [f])
    (ht : IsText s.heap v text) :
    ∃ r s', Program.callMethod code ctx f "write" [v] s = .ok r s' ∧ Moves [f] s s' ∧
      s'.heap.Has f
        (.file ⟨name, binary, .writer (w.write s.disk (Utf8.encode text)).1⟩) ∧
      s'.heap.Writers [f] ∧ s'.disk = (w.write s.disk (Utf8.encode text)).2 := by
  obtain ⟨s₁, f₁, h₁⟩ := callMethod_frame code ctx i hf (.file .write) rfl
    (List.forall_mem_singleton.2 ht.live)
  obtain ⟨hw₁, hdisk₁⟩ := f₁.dry [f] hw
  rcases hwrite : w.write s.disk (Utf8.encode text) with ⟨w', disk⟩
  have hd := disk_moves f₁.steady disk
  obtain ⟨s₂, h₂, m₂, hf₂, hdisk₂, hw₂⟩ :=
    updateStream_moves hd.steady (f₁.keep hf) (.writer w')
  refine ⟨s₂.noneValue, s₂, h₁.trans ?_, ((f₁.toMoves.trans hd).trans m₂).mono (by simp), hf₂,
    hw₂ hw₁, hdisk₂⟩
  obtain ⟨hash?, ht₁⟩ := f₁.isText ht
  rw [runMethod, get_bind_of_has (f₁.keep hf)]
  show ((liftM (Heap.get v) : Action Object) >>= _) s₁ = _
  rw [get_bind_of_has ht₁]
  rw [← hdisk₁] at hwrite
  show (changeDisk (fun disk => w.write disk (Utf8.encode text)) >>= fun w =>
    updateStream f (.writer w) >>= fun _ => nothing) s₁ = _
  rw [bind_of_ok (changeDisk_eq hwrite), bind_of_ok h₂]
  rfl

/-- Closing a file that is open for writing. -/
theorem close_moves (code : Code) (ctx : Handle) (i : s.Steady)
    (hf : s.heap.Has f (.file ⟨name, binary, .writer w⟩)) (hw : s.heap.Writers [f]) :
    ∃ r s', Program.callMethod code ctx f "close" [] s = .ok r s' ∧ Moves [f] s s' ∧
      s'.heap.Writers [] ∧ s'.disk = (w.flush s.disk).2 := by
  obtain ⟨s₁, f₁, h₁⟩ := callMethod_frame code ctx i hf (.file .close) rfl
    (List.forall_mem_nil _)
  obtain ⟨hw₁, hdisk₁⟩ := f₁.dry [f] hw
  have hd := disk_moves f₁.steady (w.flush s.disk).2
  obtain ⟨s₂, h₂, m₂, hf₂, hdisk₂, hw₂⟩ := updateStream_moves hd.steady (f₁.keep hf) .closed
  have hclosed : ¬ (Object.file ⟨name, binary, .closed⟩).Writes := nofun
  refine ⟨s₂.noneValue, s₂, h₁.trans ?_, ((f₁.toMoves.trans hd).trans m₂).mono (by simp),
    (hw₂ hw₁).drop hf₂ hclosed, hdisk₂⟩
  rw [runMethod, get_bind_of_has (f₁.keep hf)]
  have hflush : ((), (w.flush s₁.disk).2) = ((), (w.flush s.disk).2) := by rw [hdisk₁]
  show (changeDisk (fun disk => ((), (w.flush disk).2)) >>= fun _ =>
    updateStream f .closed >>= fun _ => nothing) s₁ = _
  rw [bind_of_ok (changeDisk_eq hflush), bind_of_ok h₂]
  rfl

/-! ## Reading -/

theorem contentFor_eq {r : Reader} {limit : Option Nat} {content : Array UInt8}
    (h : s.disk.content? r.place = some content) : contentFor r limit s = .ok content s := by
  rw [contentFor, bind_of_ok (get_apply s), h]
  rfl

/-- What a reader at the start of a file reads, as a text. -/
def readText (disk : Disk) (place : Place) : Except Diagnostic String :=
  match disk.content? place with
  | none => .error (.inputOutput PathFault.isDirectory.reason)
  | some content =>
    let bytes := (({ place } : Reader).read content none true).1
    match Utf8.decode bytes with
    | some text => .ok text
    | none =>
      .error (.inputOutput ("invalid utf-8 at byte " ++ toString (Utf8.validLength bytes)))

theorem read_eq (code : Code) (ctx : Handle) (i : s.Steady)
    (hf : s.heap.Has f (.file ⟨name, false, .reader { place }⟩)) (hw : s.heap.Writers []) :
    ∃ s', Frame [f] s s' ∧ Program.callMethod code ctx f "read" [] s =
      match readText s.disk place with
      | .error d => .error (.fatal d) s'
      | .ok text => newStr text s' := by
  obtain ⟨s₁, f₁, h₁⟩ := callMethod_frame code ctx i hf (.file .read) rfl
    (List.forall_mem_nil _)
  obtain ⟨-, hdisk⟩ := f₁.dry [] hw
  have hread : Program.callMethod code ctx f "read" [] s = (contentFor { place } none >>=
      fun content =>
        updateStream f (.reader (({ place } : Reader).read content none true).2) >>= fun _ =>
          newContent false (({ place } : Reader).read content none true).1) s₁ := by
    refine h₁.trans ?_
    rw [runMethod, get_bind_of_has (f₁.keep hf)]
    rfl
  rw [hread, readText, ← hdisk]
  rcases hc : s₁.disk.content? place with _ | content
  · refine ⟨s₁, f₁.mono (List.nil_subset _), bind_of_error ?_⟩
    rw [contentFor, bind_of_ok (get_apply s₁)]
    dsimp only
    rw [hc]
    rfl
  · have hcontent : contentFor { place } none s₁ = .ok content s₁ := contentFor_eq hc
    obtain ⟨g, hg, hgf⟩ := updateStream_eq (f₁.keep hf)
      (.reader (({ place } : Reader).read content none true).2)
    obtain ⟨s₂, h₂, f₂, -⟩ := update_frame f₁.steady (f₁.keep hf) (f := g) (hgf ▸ .stream _ _)
      (by rw [hgf]; rintro _ ⟨⟩) (by rw [hgf]; simp [Object.Writes])
    have hupdate := hg.trans h₂
    refine ⟨s₂, (f₁.trans f₂).mono (by simp), ?_⟩
    rw [bind_of_ok hcontent, bind_of_ok hupdate, newContent]
    dsimp only
    rcases Utf8.decode (({ place } : Reader).read content none true).1 with _ | text <;> rfl

end Space

end ObjectSpace
