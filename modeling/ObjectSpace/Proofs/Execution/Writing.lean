import ObjectSpace.Proofs.Effects.Operations
import ObjectSpace.Proofs.Execution.Reading
import ObjectSpace.Proofs.Files.Writers

/-!
# Writing a file bit by bit

A file is opened for writing and written to in several calls, and in between the program does other
things (`Writing`). Nothing else is open for writing at its place (`Space.WrittenBy`).

**Theorem (`writes_kept`).** What the file has on disk, followed by what is in the buffer, is what
it had at the start followed by everything that was written, and the buffer has at most 64 KiB. All
of it is on disk when the file was closed, and also when it was dropped, that is, when another
object took its slot. A closed file refuses to be written and read.

A file that is not live any more may be dropped in the middle of an operation, whenever this places
an object. So a turn is looked at as a sequence of effects, each of which leaves the file as it is
or drops it (`bears_preserved`, `WrittenBy.turn`).
-/

namespace ObjectSpace

/-! ## Objects that are files -/

namespace Object

variable {o o' : Object} {file : File} {place : Place}

/-- The file that an object is. -/
def file? : Object → Option File
  | .file f => some f
  | _ => none

theorem file?_eq_some : o.file? = some file ↔ o = .file file := by
  cases o <;> simp [file?]

theorem WritesTo.congr (h : o'.file? = o.file?) (hw : o'.WritesTo place) : o.WritesTo place := by
  obtain ⟨f, w, rfl, hstream, hplace⟩ := hw
  exact ⟨f, w, file?_eq_some.1 h.symm, hstream, hplace⟩

theorem not_writesTo_of_closed (h : file.stream = .closed) :
    ¬ (Object.file file).WritesTo place := by
  rintro ⟨g, w, hg, hstream, -⟩
  obtain rfl := Object.file.inj hg
  rw [h] at hstream
  cases hstream

theorem file?_moveTo (o : Object) (c : Cursor) : (o.moveTo c).file? = o.file? := by
  cases o <;> rfl

theorem file?_withAttribute (o : Object) (name : String) (w : Handle) :
    (o.withAttribute name w).file? = o.file? := by
  cases o <;> rfl

theorem Refills.file?_eq (h : o.Refills o') : o'.file? = o.file? :=
  h.observe_eq (fun _ _ => rfl) (fun _ _ => rfl) fun _ _ => rfl

theorem Rebinds.file?_eq (h : o.Rebinds o') : o'.file? = o.file? :=
  h.observe_eq fun _ _ _ => rfl

end Object

/-! ## The only writer at a place -/

/-- Only the object of a handle is open for writing at a place. -/
def Heap.SoleWriter (heap : Heap) (place : Place) (f : Handle) : Prop :=
  ∀ c i, heap.WritesAt place c i → f.sizeClass = c ∧ heap.position f = i

/-- When the only writer at a place does not write there any more, nothing does. -/
theorem Heap.SoleWriter.unwritten {heap : Heap} {place : Place} {f : Handle} {o : Object}
    (hs : heap.SoleWriter place f) (hf : heap.get? f = some o) (ho : ¬ o.WritesTo place) :
    heap.Unwritten place := by
  refine .of_writesAt fun c i hw => ?_
  obtain ⟨rfl, rfl⟩ := hs c i hw
  obtain ⟨x, u, hx, hxu, huw⟩ := hw
  obtain ⟨y, hy, hyo⟩ := Arena.get?_eq_some.1 hf
  obtain rfl := Option.some.inj (hx.symm.trans (Arena.cellAt?_of_cell? hy))
  obtain rfl := Option.some.inj (hxu.symm.trans hyo)
  exact ho huw

namespace Space

/-- Behind a handle is a file, which alone writes to a place where there is a certain content. -/
structure WrittenBy (s : Space) (place : Place) (f : Handle) (file : File)
    (content : Array UInt8) : Prop where
  file : s.heap.get? f = some (.file file)
  content : s.disk.content? place = some content
  sole : s.heap.SoleWriter place f

end Space

/-- The stream of a file writes at the end of a place, where it has brought `all` but for what is in
its buffer. -/
structure File.Brings (file : File) (w : Writer) (place : Place) (content all : Array UInt8) :
    Prop where
  stream : file.stream = .writer w
  place_eq : w.place = place
  offset : w.offset.getD content.size = content.size
  all_eq : content ++ w.buffer = all
  bounded : w.buffer.size ≤ bufferSize

namespace Space

variable {s s' : Space} {f h v ctx : Handle} {o : Object} {place : Place} {args : List Handle}
  {content all data : Array UInt8} {file : File} {w : Writer} {code : Code} {heap : Heap}
  {c : SizeClass} {old : Option Object} {P : Object → Prop} {R : Object → Object → Prop}

theorem WrittenBy.atEnd (h : s.WrittenBy place f file content)
    (b : file.Brings w place content all) : w.AtEnd s.disk content :=
  ⟨by rw [b.place_eq]; exact h.content, b.offset⟩

/-! ### Placing objects -/

/-- An object that is placed elsewhere leaves the file as it is. -/
theorem WrittenBy.placed (hw : s.WrittenBy place f file content)
    (p : Arena.Placed s.heap c o v old heap) (ho : ¬ o.WritesTo place)
    (hslot : ¬ (f.sizeClass = c ∧ s.heap.position f = s.heap.position v)) :
    WrittenBy { s with heap, disk := settle old s.disk } place f file content := by
  obtain ⟨x, hx, hxf⟩ := Arena.get?_eq_some.1 hw.file
  refine ⟨Arena.get?_eq_some.2 ⟨x, p.cell?_of_position_ne hx hslot, hxf⟩, ?_, fun d i hd => ?_⟩
  · refine (Heap.content?_settle (fun u hold huw => hslot ?_) s.disk).trans hw.content
    subst hold
    exact hw.sole _ _ (Heap.writesAt_of_dropped p huw)
  · rcases hd.of_placed p with ⟨-, hnew⟩ | ⟨-, hold⟩
    · exact absurd hnew ho
    · rw [p.position_eq]
      exact hw.sole d i hold

/-- An object that takes the slot of the file brings all of it to the disk. -/
theorem WrittenBy.dropped (hw : s.WrittenBy place f file content)
    (b : file.Brings w place content all) (p : Arena.Placed s.heap c o v old heap)
    (ho : ¬ o.WritesTo place) (hclass : f.sizeClass = c)
    (hposition : s.heap.position f = s.heap.position v) :
    ReadOnly { s with heap, disk := settle old s.disk } place all := by
  have hold : old = some (.file file) := by
    obtain ⟨x, hx, hxf⟩ := Arena.get?_eq_some.1 hw.file
    have hat := Arena.cellAt?_of_cell? hx
    rw [hclass, hposition] at hat
    rw [p.dropped, hat]
    exact hxf
  obtain ⟨w', d', hflush, hend, -, hplace⟩ := (hw.atEnd b).flush
  refine ⟨?_, .of_writesAt fun d i hd => ?_⟩
  · have hsettle : settle old s.disk = (w.flush s.disk).2 := by
      obtain ⟨path, binary, stream⟩ := file
      obtain rfl : stream = .writer w := b.stream
      rw [hold]
      rfl
    show (settle old s.disk).content? place = some all
    rw [hsettle, hflush, ← b.all_eq, ← b.place_eq, ← hplace]
    exact hend.there
  · rcases hd.of_placed p with ⟨-, hnew⟩ | ⟨hne, hbefore⟩
    · exact ho hnew
    · obtain ⟨rfl, rfl⟩ := hw.sole d i hbefore
      exact hne ⟨hclass, hposition⟩

/-- The slot of a live file is not taken. -/
theorem WrittenBy.alloc (i : s.Steady) (hw : s.WrittenBy place f file content)
    (hlive : s.heap.isLive f = true) (ha : Space.alloc o s = .ok v s') (ho : ¬ o.WritesTo place) :
    s'.WrittenBy place f file content := by
  obtain ⟨v', old, heap, p, heq⟩ := Trust.alloc_placed i.roomy o
  obtain ⟨-, rfl⟩ := EStateM.Result.ok.inj (ha.symm.trans heq)
  obtain ⟨hfile, hcontent, hsole⟩ := hw.placed p ho (p.slot_ne_of_live hlive)
  exact ⟨hfile, hcontent, hsole⟩

/-! ### Effects -/

/-- The file is as it was, or all of it is on disk. -/
def Preserved (place : Place) (f : Handle) (file : File) (content all : Array UInt8) (s : Space) :
    Prop :=
  s.heap.Roomy ∧ (s.WrittenBy place f file content ∨ s.ReadOnly place all)

theorem admits_preserved (b : file.Brings w place content all)
    (hP : ∀ o, P o → ¬ o.WritesTo place) : Admits (Preserved place f file content all) P := by
  intro s o v old heap hs ho p
  obtain ⟨hr, hs⟩ := hs
  refine ⟨p.roomy hr, ?_⟩
  rcases hs with hw | hro
  · by_cases hslot : f.sizeClass = o.sizeClass ∧ s.heap.position f = s.heap.position v
    · exact .inr (hw.dropped b p (hP o ho) hslot.1 hslot.2)
    · exact .inl (hw.placed p (hP o ho) hslot)
  · exact .inr ⟨(hro.unwritten.settle p s.disk).trans hro.content,
      hro.unwritten.placed p (hP o ho)⟩

theorem WrittenBy.modify (hw : s.WrittenBy place f file content) (hget : s.heap.get? h = some o)
    {g : Object → Object} (hg : (g o).file? = o.file?) :
    WrittenBy { s with heap := s.heap.modify h g } place f file content := by
  refine ⟨?_, hw.content, fun c i hc => ?_⟩
  · show (s.heap.modify h g).get? f = _
    rw [Arena.get?_modify hget]
    by_cases hf : f = h
    · subst hf
      obtain rfl := Option.some.inj (hget.symm.trans hw.file)
      rw [if_pos rfl, Object.file?_eq_some.1 hg]
    · rw [if_neg hf]
      exact hw.file
  · rw [Arena.position_modify]
    rcases hc.of_modify hget with ⟨⟨rfl, rfl⟩, hnew⟩ | ⟨-, hold⟩
    · exact hw.sole _ _ (Heap.writesAt_of_get? hget (hnew.congr hg))
    · exact hw.sole c i hold

theorem alters_preserved (hR : ∀ o o', R o o' → o'.file? = o.file?) :
    Alters (Preserved place f file content all) h R := by
  intro s o g hs hget hg
  obtain ⟨hr, hs⟩ := hs
  have hfile := hR o (g o) hg
  refine ⟨hr.modify h g, ?_⟩
  rcases hs with hw | hro
  · exact .inl (hw.modify hget hfile)
  · refine .inr ⟨hro.content, hro.unwritten.modify hget fun hnew => ?_⟩
    exact hro.unwritten.writesAt _ _ (Heap.writesAt_of_get? hget (hnew.congr hfile))

/-- What does not touch files leaves the file as it is, or drops it. -/
theorem bears_preserved (b : file.Brings w place content all) {e : Effect} (hfiles : e ≠ .files)
    (hdisk : e ≠ .disk) : Bears (Preserved place f file content all) e := by
  cases e with
  | advance =>
    refine fun it => alters_preserved fun o o' h => ?_
    obtain ⟨c, rfl⟩ := h
    exact o.file?_moveTo c
  | fill h => exact alters_preserved fun _ _ => Object.Refills.file?_eq
  | assign v name w =>
    show Alters _ v fun o o' => o' = o.withAttribute name w ∨ o' = o
    refine alters_preserved fun o o' h => ?_
    rcases h with rfl | rfl
    · exact o.file?_withAttribute name w
    · rfl
  | scope parent =>
    refine admits_preserved b fun o ho hw => ?_
    obtain ⟨slots, rfl⟩ := ho
    obtain ⟨g, w, hg, -⟩ := hw
    cases hg
  | contexts => exact fun c => alters_preserved fun _ _ => Object.Rebinds.file?_eq
  | globals ctx => exact fun s hs => ⟨hs.1, hs.2.imp (fun h => ⟨h.file, h.content, h.sole⟩)
      fun h => ⟨h.content, h.unwritten⟩⟩
  | files => exact absurd rfl hfiles
  | disk => exact absurd rfl hdisk

theorem stable_preserved (b : file.Brings w place content all) :
    Stable (Preserved place f file content all) where
  roomy hs := hs.1
  other := by
    intro s s' hs hheap hdisk _ _
    obtain ⟨hr, hs⟩ := hs
    refine ⟨hheap ▸ hr, hs.imp (fun h => ?_) fun h => ?_⟩
    · exact ⟨hheap ▸ h.file, hdisk ▸ h.content, hheap ▸ h.sole⟩
    · exact ⟨hdisk ▸ h.content, hheap ▸ h.unwritten⟩
  place := admits_preserved b fun o ho hw => by
    obtain ⟨g, w, rfl, -⟩ := hw
    exact ho
  fill _ := bears_preserved b nofun nofun
  assign _ name w := bears_preserved b nofun nofun

/-- A turn that does not touch files leaves the file as it is, or drops it. -/
theorem WrittenBy.turn (i : s.Steady) (hw : s.WrittenBy place f file content)
    (b : file.Brings w place content all) (t : Turn)
    (ht : ∀ op, t = .operation op → ¬ op.Has .files ∧ ¬ op.Has .disk) :
    (t.leave s).WrittenBy place f file content ∨ (t.leave s).ReadOnly place all := by
  by_cases hc : t.Collects
  · obtain ⟨hsame, -⟩ := Turn.leave_collect hc s
    obtain ⟨-, hdisk⟩ := Turn.leave_collect_rest hc s
    refine .inl ⟨(hsame.get?_eq f).trans hw.file, hdisk ▸ hw.content, fun c i hd => ?_⟩
    rw [hsame.position_eq]
    exact hw.sole c i (hd.of_sameObjects hsame)
  · cases t with
    | operation op =>
      have hs : Preserved place f file content all s := ⟨i.roomy, .inl hw⟩
      obtain ⟨hfiles, hdisk⟩ := ht op rfl
      refine (keeps_operation (stable_preserved b) op (fun e he => ?_) s hs).2
      exact bears_preserved b (fun h => hfiles (h ▸ he)) fun h => hdisk (h ▸ he)
    | collectNow | collectIfDue => exact absurd trivial hc

/-! ### Calls -/

/-- A method of a live file runs while the file is as it was. -/
theorem WrittenBy.callMethod (i : s.Steady) (hw : s.WrittenBy place f file content)
    (hlive : s.heap.isLive f = true) (code : Code) (ctx : Handle) (m : FileMethod)
    (hargs : ∀ a ∈ args, s.heap.isLive a = true) :
    ∃ s', Frame [] s s' ∧ s'.WrittenBy place f file content ∧ s'.heap.Has f (.file file) ∧
      Program.callMethod code ctx f (Method.file m).name args s =
        fileMethod m f file args s' := by
  obtain ⟨b, s₁, pack, s₂, h₁, h₂, f₁, f₂, hcall⟩ :=
    callMethod_allocs code ctx i ⟨hlive, hw.file⟩ (.file m) rfl hargs
  have hw₁ := hw.alloc i hlive h₁ fun h => absurd h.writes nofun
  have hlive₁ := f₁.live hlive
  have hw₂ := hw₁.alloc f₁.steady hlive₁ h₂ fun h => absurd h.writes nofun
  have hf₂ : s₂.heap.Has f (.file file) := ⟨f₂.live hlive₁, hw₂.file⟩
  refine ⟨s₂, f₁.again f₂, hw₂, hf₂, hcall.trans ?_⟩
  rw [runMethod, get_bind_of_has hf₂]

/-- The data of a write is the argument's. -/
theorem fileMethod_write (hv : s.heap.Has v o) (hdata : o.payload? = some data)
    (hstream : file.stream = .writer w) (f : Handle) :
    fileMethod .write f file [v] s =
      (changeDisk (fun disk => w.write disk data) >>= fun w =>
        updateStream f (.writer w) >>= fun _ => nothing) s := by
  obtain ⟨path, binary, stream⟩ := file
  subst hstream
  show ((liftM (Heap.get v) : Action Object) >>= _) s = _
  rw [get_bind_of_has hv]
  cases o <;> cases hdata <;> rfl

/-- The file after its content and its stream were changed. -/
theorem WrittenBy.restream (i : s.Steady) (hw : s.WrittenBy place f file content)
    (hlive : s.heap.isLive f = true) {disk : Disk} {content' : Array UInt8}
    (hcontent : disk.content? place = some content') (stream : Stream) :
    ∃ s', updateStream f stream { s with disk } = .ok () s' ∧ s'.Steady ∧
      s'.heap.Has f (.file { file with stream }) ∧ s'.disk.content? place = some content' ∧
      s'.heap.SoleWriter place f := by
  have hf : s.heap.Has f (.file file) := ⟨hlive, hw.file⟩
  have hd := disk_moves i disk
  obtain ⟨g, hg, hgf⟩ := updateStream_eq (s := { s with disk }) hf stream
  obtain ⟨s', hs', m, hf', hheap, hdisk⟩ := update_moves hd.steady hf (f := g)
    (hgf ▸ .stream file stream) (by rw [hgf]; rintro _ ⟨⟩)
  refine ⟨s', hg.trans hs', m.steady, hgf ▸ hf', hdisk ▸ hcontent, fun c i hc => ?_⟩
  rw [hheap] at hc ⊢
  rw [Arena.position_modify]
  rcases hc.of_modify hf.2 with ⟨hslot, -⟩ | ⟨-, hold⟩
  · exact hslot
  · exact hw.sole c i hold

/-- **A write** appends its data to what the file has brought. -/
theorem WrittenBy.write (i : s.Steady) (hw : s.WrittenBy place f file content)
    (b : file.Brings w place content all) (hlive : s.heap.isLive f = true) (hv : s.heap.Has v o)
    (hdata : o.payload? = some data) (code : Code) (ctx : Handle) :
    ∃ s' file' w' content', Program.callMethod code ctx f "write" [v] s = .ok s'.noneValue s' ∧
      s'.Steady ∧ s'.heap.isLive f = true ∧ s'.WrittenBy place f file' content' ∧
      file'.Brings w' place content' (all ++ data) := by
  obtain ⟨s₁, f₁, hw₁, hf₁, hcall⟩ :=
    hw.callMethod i hlive code ctx .write (List.forall_mem_singleton.2 hv.1)
  obtain ⟨w', d', content', hwrite, hend, hall, hsize, hplace⟩ :=
    (hw₁.atEnd b).write b.bounded data
  have hplace := hplace.trans b.place_eq
  obtain ⟨s₂, h₂, i₂, hf₂, hcontent, hsole⟩ :=
    hw₁.restream f₁.steady hf₁.1 (hplace ▸ hend.there) (.writer w')
  refine ⟨s₂, _, w', content', hcall.trans ?_, i₂, hf₂.1, ⟨hf₂.2, hcontent, hsole⟩, rfl, hplace,
    hend.offset, b.all_eq ▸ hall, hsize⟩
  rw [fileMethod_write (f₁.keep hv) hdata b.stream, bind_of_ok (changeDisk_eq hwrite),
    bind_of_ok h₂]
  rfl

/-- **Closing** brings everything to the disk. -/
theorem WrittenBy.close (i : s.Steady) (hw : s.WrittenBy place f file content)
    (b : file.Brings w place content all) (hlive : s.heap.isLive f = true) (code : Code)
    (ctx : Handle) :
    ∃ s', Program.callMethod code ctx f "close" [] s = .ok s'.noneValue s' ∧ s'.Steady ∧
      s'.heap.Has f (.file { file with stream := .closed }) ∧ s'.ReadOnly place all := by
  obtain ⟨s₁, f₁, hw₁, hf₁, hcall⟩ :=
    hw.callMethod i hlive code ctx .close (List.forall_mem_nil _)
  obtain ⟨w', d', hflush, hend, -, hplace⟩ := (hw₁.atEnd b).flush
  have hthere : d'.content? place = some all := by
    rw [← b.place_eq, ← hplace, ← b.all_eq]
    exact hend.there
  obtain ⟨s₂, h₂, i₂, hf₂, hcontent, hsole⟩ := hw₁.restream f₁.steady hf₁.1 hthere .closed
  refine ⟨s₂, hcall.trans ?_, i₂, hf₂, hcontent,
    hsole.unwritten hf₂.2 (Object.not_writesTo_of_closed rfl)⟩
  have hchange : changeDisk (fun disk => ((), (w.flush disk).2)) s₁ =
      .ok () { s₁ with disk := d' } := changeDisk_eq (by rw [hflush])
  obtain ⟨path, binary, stream⟩ := file
  obtain rfl : stream = .writer w := b.stream
  show (changeDisk (fun disk => ((), (w.flush disk).2)) >>= fun _ =>
    updateStream f .closed >>= fun _ => nothing) s₁ = _
  rw [bind_of_ok hchange, bind_of_ok h₂]
  rfl

/-! ### Closed files -/

/-- A method of a file fails since the file is closed, and changes nothing. A call of the method
makes the values that a call needs, and changes nothing else. -/
def Refuses (s : Space) (f : Handle) (file : File) (m : FileMethod) (args : List Handle) : Prop :=
  fileMethod m f file args s = .error (.fatal .fileClosed) s ∧
    ∀ code ctx, ∃ s', Frame [] s s' ∧
      Program.callMethod code ctx f (Method.file m).name args s = .error (.fatal .fileClosed) s'

theorem refuses_of_fileMethod (i : s.Steady) (hf : s.heap.Has f (.file file)) {m : FileMethod}
    (hargs : ∀ a ∈ args, s.heap.isLive a = true)
    (hm : ∀ s', Frame [] s s' → fileMethod m f file args s' = .error (.fatal .fileClosed) s') :
    s.Refuses f file m args := by
  refine ⟨hm s (.refl i), fun code ctx => ?_⟩
  obtain ⟨s', fr, hcall⟩ := callMethod_frame code ctx i hf (.file m) rfl hargs
  refine ⟨s', fr, hcall.trans ?_⟩
  rw [runMethod, get_bind_of_has (fr.keep hf)]
  exact hm s' fr

theorem refuses_write (i : s.Steady) (hf : s.heap.Has f (.file file))
    (hclosed : file.stream = .closed) (hv : s.heap.Has v o) (hdata : o.payload? = some data) :
    s.Refuses f file .write [v] := by
  refine refuses_of_fileMethod i hf (List.forall_mem_singleton.2 hv.1) fun s' fr => ?_
  obtain ⟨path, binary, stream⟩ := file
  subst hclosed
  show ((liftM (Heap.get v) : Action Object) >>= _) s' = _
  rw [get_bind_of_has (fr.keep hv)]
  cases o <;> cases hdata <;> rfl

theorem refuses_read (i : s.Steady) (hf : s.heap.Has f (.file file))
    (hclosed : file.stream = .closed) {limit : Option Nat} (hl : s.Limits args limit) :
    s.Refuses f file .read args := by
  refine refuses_of_fileMethod i hf (hl.live i) fun s' fr => ?_
  obtain ⟨path, binary, stream⟩ := file
  subst hclosed
  obtain ⟨n?, hn, -⟩ := (fr.limits hl).number fr.steady
  show ((Method.file .read).presentArgument args >>= fun v? => v?.mapM _ >>= _) s' = _
  rw [← bind_assoc, bind_of_ok hn]
  rfl

end Space

/-! ## Sessions -/

/-- A file is opened for writing at a place and written to, by a value `f` that is live then: its
content when it was opened, and the bytes of all that was written so far. In between the program
does anything that leaves the value and the content as they are, and opens nothing else for writing
at the place. -/
inductive Writing (place : Place) (start : Array UInt8) (f : Handle) : Space → Array UInt8 → Prop
  | created {s s' : Space} {name mode : String} {disk : Disk} : s.Steady →
      s.heap.Unwritten place → mode ∈ ["w", "wt", "wb"] →
      s.disk.openForWriting name true = .ok (place, disk) → start = #[] →
      Space.openFile name mode s = .ok f s' → Writing place start f s' #[]
  | appended {s s' : Space} {name mode : String} {disk : Disk} : s.Steady →
      s.heap.Unwritten place → mode ∈ ["a", "at", "ab"] →
      s.disk.openForWriting name false = .ok (place, disk) →
      start = (s.disk.content? place).getD #[] →
      Space.openFile name mode s = .ok f s' → Writing place start f s' #[]
  | write {s s' : Space} {written data : Array UInt8} {code : Code} {ctx v r : Handle}
      {o : Object} : Writing place start f s written → s.heap.isLive f = true →
      s.heap.Has v o → o.payload? = some data →
      Program.callMethod code ctx f "write" [v] s = .ok r s' →
      Writing place start f s' (written ++ data)
  | meanwhile {s s' : Space} {written content : Array UInt8} {file : File} :
      Writing place start f s written → s.WrittenBy place f file content → s'.Steady →
      s'.WrittenBy place f file content → Writing place start f s' written

theorem Access.ofMode?_write {mode : String} (h : mode ∈ ["w", "wt", "wb"]) :
    ∃ binary, ofMode? mode = some (write, binary) := by
  simp only [List.mem_cons, List.not_mem_nil, or_false] at h
  rcases h with rfl | rfl | rfl <;> exact ⟨_, rfl⟩

theorem Access.ofMode?_append {mode : String} (h : mode ∈ ["a", "at", "ab"]) :
    ∃ binary, ofMode? mode = some (append, binary) := by
  simp only [List.mem_cons, List.not_mem_nil, or_false] at h
  rcases h with rfl | rfl | rfl <;> exact ⟨_, rfl⟩

namespace Writing

variable {place : Place} {start written content : Array UInt8} {f : Handle} {s s' : Space}
  {name mode : String} {disk : Disk}

/-- A file that is opened has brought what its place has. -/
theorem openFile_brings (truncate : Bool) {binary : Bool} (i : s.Steady)
    (hu : s.heap.Unwritten place)
    (hmode : Access.ofMode? mode = some (if truncate then .write else .append, binary))
    (hopen : s.disk.openForWriting name truncate = .ok (place, disk)) :
    ∃ f s' file w content, Space.openFile name mode s = .ok f s' ∧ Space.Moves [] s s' ∧
      s'.heap.isLive f = true ∧ s'.WrittenBy place f file content ∧
      file.Brings w place content (if truncate then #[] else (s.disk.content? place).getD #[]) := by
  have hd := Space.disk_moves i disk
  obtain ⟨f, old, s', hs', m, hf, p, hdisk⟩ := Space.alloc_moves hd.steady
    (o := .file ⟨name, binary, .writer { place, offset := if truncate then some 0 else none }⟩)
    trivial nofun
  refine ⟨f, s', _, _, _, ?_, hd.trans m, hf.1, ⟨hf.2, ?_, fun c i hw => ?_⟩, rfl, rfl, ?_,
    Array.append_empty, Nat.zero_le _⟩
  · rw [Space.openFile_writing truncate hmode, hopen]
    exact hs'
  · rw [hdisk]
    exact (hu.settle p disk).trans (Disk.content?_openForWriting hopen)
  · rcases hw.of_placed p with ⟨⟨rfl, rfl⟩, -⟩ | ⟨-, hold⟩
    · exact ⟨p.sizeClass_eq, p.position_eq f⟩
    · exact absurd hold (hu.writesAt c i)
  · cases truncate <;> rfl

theorem brings_of_openFile {truncate binary : Bool} (i : s.Steady) (hu : s.heap.Unwritten place)
    (hmode : Access.ofMode? mode = some (if truncate then .write else .append, binary))
    (hopen : s.disk.openForWriting name truncate = .ok (place, disk))
    (hcall : Space.openFile name mode s = .ok f s') :
    s'.Steady ∧ ∃ file w content, s'.WrittenBy place f file content ∧
      file.Brings w place content
        (if truncate then #[] else (s.disk.content? place).getD #[]) := by
  obtain ⟨f', s₁, file, w, content, h₁, m, -, hw, b⟩ := openFile_brings truncate i hu hmode hopen
  obtain ⟨rfl, rfl⟩ := EStateM.Result.ok.inj (hcall.symm.trans h₁)
  exact ⟨m.steady, file, w, content, hw, b⟩

/-- In a session the file has brought everything that was written, but for what is in its buffer. -/
theorem stands (g : Writing place start f s written) :
    s.Steady ∧ ∃ file w content, s.WrittenBy place f file content ∧
      file.Brings w place content (start ++ written) := by
  induction g with
  | created i hu hmode hopen hstart hcall =>
    subst hstart
    rw [Array.append_empty]
    obtain ⟨binary, hmode⟩ := Access.ofMode?_write hmode
    exact brings_of_openFile i hu hmode hopen hcall
  | appended i hu hmode hopen hstart hcall =>
    subst hstart
    rw [Array.append_empty]
    obtain ⟨binary, hmode⟩ := Access.ofMode?_append hmode
    exact brings_of_openFile i hu hmode hopen hcall
  | write _ hlive hv hdata hcall ih =>
    obtain ⟨i, file, w, content, hw, b⟩ := ih
    obtain ⟨s₂, file', w', content', h₂, i₂, -, hw₂, b₂⟩ := hw.write i b hlive hv hdata _ _
    obtain ⟨-, rfl⟩ := EStateM.Result.ok.inj (hcall.symm.trans h₂)
    rw [Array.append_assoc] at b₂
    exact ⟨i₂, file', w', content', hw₂, b₂⟩
  | meanwhile _ hold i hnew ih =>
    obtain ⟨-, file, w, content, hw, b⟩ := ih
    obtain rfl := Object.file.inj (Option.some.inj (hw.file.symm.trans hold.file))
    obtain rfl := Option.some.inj (hw.content.symm.trans hold.content)
    exact ⟨i, _, w, _, hnew, b⟩

end Writing

variable {place : Place} {start written : Array UInt8} {f : Handle} {s : Space}

/-- **Writing a file.** After every write the file's bytes on disk, followed by those in the buffer,
are what the file had at the start and everything written so far, and the buffer has at most 64 KiB.
Further writes succeed. Everything is on disk after the file was closed, and after another object
took the slot of the file, in whatever turn: until then the file stays as it is. A closed file
refuses to be written and read. -/
theorem writes_kept (g : Writing place start f s written) :
    (∃ file w content, s.heap.get? f = some (.file file) ∧ file.stream = .writer w ∧
      w.place = place ∧ s.disk.content? place = some content ∧
      content ++ w.buffer = start ++ written ∧ w.buffer.size ≤ bufferSize) ∧
    (s.heap.isLive f = true → ∀ code ctx,
      (∀ v o data, s.heap.Has v o → o.payload? = some data → ∃ s',
        Program.callMethod code ctx f "write" [v] s = .ok s'.noneValue s' ∧
        s'.heap.isLive f = true ∧ Writing place start f s' (written ++ data)) ∧
      ∃ s' file, Program.callMethod code ctx f "close" [] s = .ok s'.noneValue s' ∧ s'.Steady ∧
        s'.heap.Has f (.file file) ∧ file.stream = .closed ∧
        s'.ReadOnly place (start ++ written)) ∧
    (∀ o, ¬ o.WritesTo place → ∃ v s', Space.alloc o s = .ok v s' ∧
      (f.sizeClass = v.sizeClass ∧ s.heap.position f = s.heap.position v →
        s'.ReadOnly place (start ++ written)) ∧
      (¬ (f.sizeClass = v.sizeClass ∧ s.heap.position f = s.heap.position v) → s'.Steady →
        Writing place start f s' written)) ∧
    (∀ t : Turn, (∀ h ∈ t.handles, s.heap.isLive h = true) →
      (∀ op, t = .operation op → ¬ op.Has .files ∧ ¬ op.Has .disk) →
      Writing place start f (t.leave s) written ∨
        (t.leave s).ReadOnly place (start ++ written)) ∧
    ∀ (s : Space) (f : Handle) (file : File), s.Steady → s.heap.Has f (.file file) →
      file.stream = .closed →
      (∀ v o data, s.heap.Has v o → o.payload? = some data → s.Refuses f file .write [v]) ∧
      ∀ args limit, s.Limits args limit → s.Refuses f file .read args := by
  obtain ⟨i, file, w, content, hw, b⟩ := g.stands
  refine ⟨⟨file, w, content, hw.file, b.stream, b.place_eq, hw.content, b.all_eq, b.bounded⟩,
    fun hlive code ctx => ⟨fun v o data hv hdata => ?_, ?_⟩, fun o ho => ?_, fun t ht hop => ?_,
    fun s f file i hf hclosed => ⟨fun v o data => Space.refuses_write i hf hclosed,
      fun args limit => Space.refuses_read i hf hclosed⟩⟩
  · obtain ⟨s', -, -, -, hcall, -, hlive', -⟩ := hw.write i b hlive hv hdata code ctx
    exact ⟨s', hcall, hlive', g.write hlive hv hdata hcall⟩
  · obtain ⟨s', hcall, i', hf', hro⟩ := hw.close i b hlive code ctx
    exact ⟨s', _, hcall, i', hf', rfl, hro⟩
  · obtain ⟨v, old, heap, p, heq⟩ := Trust.alloc_placed i.roomy o
    refine ⟨v, _, heq, fun hslot => ?_, fun hslot i' => ?_⟩
    · obtain ⟨hcontent, hu⟩ := hw.dropped b p ho (hslot.1.trans p.sizeClass_eq) hslot.2
      exact ⟨hcontent, hu⟩
    · rw [p.sizeClass_eq] at hslot
      obtain ⟨hfile, hcontent, hsole⟩ := hw.placed p ho hslot
      exact g.meanwhile hw i' ⟨hfile, hcontent, hsole⟩
  · rcases hw.turn i b t hop with hw' | hro
    · exact .inl (g.meanwhile hw (i.turn t ht) hw')
    · exact .inr hro

/-- A file that has "hé" has "héllo" once "llo" was appended and the file was closed. -/
theorem writes_kept_appended :
    ∃ s f v s₁ s₂, Writing ["a"] (Utf8.encode "hé") f s #[] ∧ Space.IsText s.heap v "llo" ∧
      Program.callMethod noCode s.noneValue f "write" [v] s = .ok s₁.noneValue s₁ ∧
      Program.callMethod noCode s.noneValue f "close" [] s₁ = .ok s₂.noneValue s₂ ∧
      s₂.disk.content? ["a"] = some (Utf8.encode "héllo") := by
  obtain ⟨s₀, h₀⟩ := Space.create_ok {} rfl ⟨[(["a"], .file (Utf8.encode "hé"))]⟩
  obtain ⟨n, -⟩ := Space.create_new h₀
  obtain ⟨v, s', r, fr, htext⟩ := (LiveRun.start h₀).newStr "llo"
  obtain ⟨hw, hdisk⟩ := fr.dry [] (Space.create_writers h₀)
  have hdisk := hdisk.trans n.disk
  have i := Space.steady_of_liveRun r
  have hopen : s'.disk.openForWriting "a" false = .ok (["a"], s'.disk) := by
    rw [hdisk]
    rfl
  have hstart : Utf8.encode "hé" = (s'.disk.content? ["a"]).getD #[] := by
    rw [hdisk]
    rfl
  have hmode : Access.ofMode? "a" = some (.append, false) := rfl
  have hu := hw.unwritten ["a"]
  obtain ⟨f, s, file, w, content, hcall, m, hlive, -⟩ :=
    Writing.openFile_brings false i hu hmode hopen
  have g : Writing ["a"] (Utf8.encode "hé") f s #[] :=
    .appended i hu (by simp) hopen hstart hcall
  have htext := m.isText htext
  obtain ⟨hash?, hv⟩ := htext
  obtain ⟨-, hcalls, -⟩ := writes_kept g
  obtain ⟨s₁, hwrite, hlive₁, g₁⟩ := (hcalls hlive noCode s.noneValue).1 v _ _ hv rfl
  obtain ⟨-, hcalls₁, -⟩ := writes_kept g₁
  obtain ⟨s₂, -, hclose, -, -, -, hro⟩ := (hcalls₁ hlive₁ noCode s.noneValue).2
  exact ⟨s, f, v, s₁, s₂, g, ⟨hash?, hv⟩, hwrite, hclose, hro.content⟩

end ObjectSpace
