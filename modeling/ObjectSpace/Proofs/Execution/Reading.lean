import ObjectSpace.Proofs.Execution.Files
import ObjectSpace.Proofs.Execution.Values
import ObjectSpace.Proofs.Files.Readers

/-!
# Reading a file bit by bit

A file is opened and read in several calls, with and without a limit, and in between the program
does other things (`Session`). Its content stays what it is, as long as nothing is open for writing
at its place (`Space.ReadOnly`): objects that are dropped on the way empty their buffers into other
files.

**Theorem (`file_reads`).** Every call succeeds, and what the calls give is, one after the other,
the content from its start. In text mode a call gives the shortest run of whole characters that has
as many bytes as it may give, or as many as there are; in binary mode it gives exactly these bytes.

A text that is cut behind a character leaves a text (`Divided`). So every call finds what the first
one found, and the induction over a session (`Session.stands`) carries nothing else.
-/

namespace ObjectSpace

/-! ## Other files -/

namespace Disk

variable {d : Disk} {place other : Place}

theorem lookup_filter_ne (h : place ≠ other) (l : List (Place × Node)) :
    (l.filter (·.1 ≠ other)).lookup place = l.lookup place := by
  induction l with
  | nil => rfl
  | cons e l ih =>
    by_cases he : e.1 = other
    · rw [List.filter_cons_of_neg (by simpa using he), ih, List.lookup_cons]
      have hne : (place == e.1) = false := by
        rw [he]
        exact beq_false_of_ne h
      rw [hne]
    · rw [List.filter_cons_of_pos (by simpa using he), List.lookup_cons, List.lookup_cons, ih]

theorem content?_put (h : place ≠ other) (node : Node) :
    (d.put other node).content? place = d.content? place := by
  have hnode : (d.put other node).node? place = d.node? place := by
    rw [node?, node?, put, List.lookup_cons, beq_false_of_ne h]
    dsimp only
    rw [lookup_filter_ne h]
  rw [content?, hnode, content?]

/-- Emptying a buffer changes only the file that it belongs to. -/
theorem content?_flush {w : Writer} (h : place ≠ w.place) :
    (w.flush d).2.content? place = d.content? place := by
  rw [Writer.flush]
  split
  · rfl
  · exact content?_put h _

end Disk

/-- An object is a file that is open for writing at a place. -/
def Object.WritesTo (place : Place) (o : Object) : Prop :=
  ∃ f w, o = .file f ∧ f.stream = .writer w ∧ w.place = place

theorem Object.WritesTo.writes {place : Place} {o : Object} (h : o.WritesTo place) : o.Writes := by
  obtain ⟨f, w, ho, hstream, -⟩ := h
  exact ⟨f, w, ho, hstream⟩

namespace Heap

variable {a b : Heap} {h : Handle} {o : Object} {place : Place}

/-- A slot has an object that is open for writing at a place, live or not dropped yet. -/
def WritesAt (heap : Heap) (place : Place) (c : SizeClass) (i : Nat) : Prop :=
  ∃ x o, heap.cellAt? c i = some x ∧ x.value = some o ∧ o.WritesTo place

theorem writesAt_of_get? (hh : a.get? h = some o) (ho : o.WritesTo place) :
    WritesAt a place h.sizeClass (a.position h) := by
  obtain ⟨x, hx, hxo⟩ := Arena.get?_eq_some.1 hh
  exact ⟨x, o, Arena.cellAt?_of_cell? hx, hxo, ho⟩

/-- Where an object was placed, only its own slot has another object than before. -/
theorem WritesAt.of_placed {c d : SizeClass} {i : Nat} {old : Option Object}
    (hw : WritesAt b place d i) (p : Arena.Placed a c o h old b) :
    (d = c ∧ i = a.position h) ∧ o.WritesTo place ∨
      ¬ (d = c ∧ i = a.position h) ∧ WritesAt a place d i := by
  obtain ⟨x, u, hx, hxu, huw⟩ := hw
  by_cases hp : d = c ∧ i = a.position h
  · rw [hp.1, hp.2, p.here, Option.some.injEq] at hx
    subst hx
    obtain rfl := Option.some.inj hxu
    exact .inl ⟨hp, huw⟩
  · refine .inr ⟨hp, ?_⟩
    rcases p.elsewhere d i hp with he | ⟨-, he⟩
    · exact ⟨x, u, he ▸ hx, hxu, huw⟩
    · rw [hx, Option.some.injEq] at he
      rw [he] at hxu
      cases hxu

/-- Where an object was changed, only its own slot has another object than before. -/
theorem WritesAt.of_modify {f : Object → Object} {c : SizeClass} {i : Nat}
    (hw : WritesAt (a.modify h f) place c i) (hh : a.get? h = some o) :
    (h.sizeClass = c ∧ a.position h = i) ∧ (f o).WritesTo place ∨
      ¬ (h.sizeClass = c ∧ a.position h = i) ∧ WritesAt a place c i := by
  obtain ⟨x, u, hx, hxu, huw⟩ := hw
  rw [Arena.cellAt?_modify] at hx
  split at hx
  · rename_i hp
    obtain ⟨rfl, rfl⟩ := hp
    obtain ⟨z, hz, hzv⟩ := Arena.get?_eq_some.1 hh
    rw [Arena.cellAt?_of_cell? hz, Option.map_some, Option.some.injEq] at hx
    subst hx
    rw [hzv, Option.map_some, Option.some.injEq] at hxu
    exact .inl ⟨⟨rfl, rfl⟩, hxu ▸ huw⟩
  · rename_i hp
    exact .inr ⟨hp, x, u, hx, hxu, huw⟩

theorem WritesAt.of_sameObjects {c : SizeClass} {i : Nat} (hw : WritesAt b place c i)
    (hs : Arena.SameObjects a b) : WritesAt a place c i := by
  obtain ⟨x, o, hx, hxo, how⟩ := hw
  have he := hs.cells_eq c i
  rw [hx, Option.map_some, eq_comm, Option.map_eq_some_iff] at he
  obtain ⟨y, hy, heq⟩ := he
  exact ⟨y, o, hy, (Prod.mk.inj heq).2.trans hxo, how⟩

/-- No object is open for writing at a place, nor was one before it was dropped. -/
def Unwritten (heap : Heap) (place : Place) : Prop :=
  ∀ c i x o, heap.cellAt? c i = some x → x.value = some o → ¬ o.WritesTo place

theorem Unwritten.writesAt (hu : Unwritten a place) (c : SizeClass) (i : Nat) :
    ¬ WritesAt a place c i := by
  rintro ⟨x, o, hx, hxo, how⟩
  exact hu c i x o hx hxo how

theorem Unwritten.of_writesAt (h : ∀ c i, ¬ WritesAt a place c i) : Unwritten a place :=
  fun c i x o hx hxo how => h c i ⟨x, o, hx, hxo, how⟩

/-- Dropping an object changes no file that the object does not write to. -/
theorem content?_settle {old : Option Object} (h : ∀ o, old = some o → ¬ o.WritesTo place)
    (disk : Disk) : (Space.settle old disk).content? place = disk.content? place := by
  unfold Space.settle
  split
  · refine Disk.content?_flush fun hplace => ?_
    exact h _ rfl ⟨_, _, rfl, rfl, hplace.symm⟩
  · rfl

/-- An object that is dropped was in the slot that is taken. -/
theorem writesAt_of_dropped {c : SizeClass} {u : Object} (p : Arena.Placed a c o h (some u) b)
    (hu : u.WritesTo place) : WritesAt a place c (a.position h) := by
  have hold := p.dropped
  cases hat : a.cellAt? c (a.position h) with
  | none =>
    rw [hat] at hold
    cases hold
  | some x =>
    rw [hat, Option.getD_some] at hold
    exact ⟨x, u, hat, hold.symm, hu⟩

/-- Placing an object empties no buffer into a file that nothing writes to. -/
theorem Unwritten.settle {c : SizeClass} {old : Option Object} (hu : Unwritten a place)
    (p : Arena.Placed a c o h old b) (disk : Disk) :
    (Space.settle old disk).content? place = disk.content? place := by
  refine content?_settle (fun u hold huw => ?_) disk
  subst hold
  exact hu.writesAt _ _ (writesAt_of_dropped p huw)

theorem Unwritten.placed {c : SizeClass} {old : Option Object} (hu : Unwritten a place)
    (p : Arena.Placed a c o h old b) (ho : ¬ o.WritesTo place) : Unwritten b place := by
  refine .of_writesAt fun d i hw => ?_
  rcases hw.of_placed p with ⟨-, hnew⟩ | ⟨-, hold⟩
  · exact ho hnew
  · exact hu.writesAt d i hold

theorem Unwritten.modify {f : Object → Object} (hu : Unwritten a place) (hh : a.get? h = some o)
    (hf : ¬ (f o).WritesTo place) : Unwritten (a.modify h f) place := by
  refine .of_writesAt fun c i hw => ?_
  rcases hw.of_modify hh with ⟨-, hnew⟩ | ⟨-, hold⟩
  · exact hf hnew
  · exact hu.writesAt c i hold

theorem Writers.unwritten (hw : a.Writers []) (place : Place) : a.Unwritten place := by
  intro c i x o hx ho hwrites
  obtain ⟨g, hg, -⟩ := hw c i x o hx ho hwrites.writes
  cases hg

end Heap

namespace Space

variable {s s' : Space} {f v ctx : Handle} {o : Object} {place : Place} {args : List Handle}
  {content bytes given : Array UInt8} {binary : Bool} {name : String} {r r' : Reader}
  {limit : Option Nat} {code : Code}

/-- The file at a place has a content, and nothing is open for writing there. -/
structure ReadOnly (s : Space) (place : Place) (content : Array UInt8) : Prop where
  content : s.disk.content? place = some content
  unwritten : s.heap.Unwritten place

theorem alloc_readOnly (i : s.Steady) (h : s.ReadOnly place content)
    (ha : alloc o s = .ok v s') (ho : ¬ o.Writes) : s'.ReadOnly place content := by
  obtain ⟨v', old, heap, p, heq⟩ := Trust.alloc_placed i.roomy o
  obtain ⟨-, rfl⟩ := EStateM.Result.ok.inj (ha.symm.trans heq)
  exact ⟨(h.unwritten.settle p s.disk).trans h.content,
    h.unwritten.placed p fun hw => ho hw.writes⟩

/-- Changing the stream of a file to one that reads. -/
theorem updateStream_readOnly (i : s.Steady) (h : s.ReadOnly place content) {file : File}
    (hf : s.heap.Has f (.file file)) (r : Reader) :
    ∃ s', updateStream f (.reader r) s = .ok () s' ∧ s'.Steady ∧ s'.ReadOnly place content ∧
      s'.heap.Has f (.file { file with stream := .reader r }) := by
  obtain ⟨g, hg, hgf⟩ := updateStream_eq hf (.reader r)
  obtain ⟨s', hs', m, hf', hheap, hdisk⟩ := update_moves i hf (f := g)
    (hgf ▸ .stream file (.reader r)) (by rw [hgf]; rintro _ ⟨⟩)
  refine ⟨s', hg.trans hs', m.steady, ⟨hdisk ▸ h.content, ?_⟩, hgf ▸ hf'⟩
  have hreads : ¬ (g (.file file)).Writes := by
    rw [hgf]
    simp [Object.Writes]
  rw [hheap]
  exact h.unwritten.modify hf.2 fun hw => hreads hw.writes

/-! ## One read -/

/-- Arguments of a read, and the limit that they set. -/
inductive Limits (s : Space) : List Handle → Option Nat → Prop
  | absent : Limits s [] none
  | nothing : Limits s [s.noneValue] none
  | negative {v : Handle} {o : Object} {n : Int64} : s.heap.Has v o → o.asInt? = some n → n < 0 →
      Limits s [v] none
  | upTo {v : Handle} {o : Object} {n : Int64} : s.heap.Has v o → o.asInt? = some n → ¬ n < 0 →
      Limits s [v] (some n.toInt.toNat)

theorem Limits.live (i : s.Steady) (h : s.Limits args limit) :
    ∀ a ∈ args, s.heap.isLive a = true := by
  cases h with
  | absent => exact List.forall_mem_nil _
  | nothing => exact List.forall_mem_singleton.2 i.nothing.1
  | negative hv => exact List.forall_mem_singleton.2 hv.1
  | upTo hv => exact List.forall_mem_singleton.2 hv.1

theorem Moves.limits (m : Moves [] s s') (h : s.Limits args limit) : s'.Limits args limit := by
  cases h with
  | absent => exact .absent
  | nothing => exact m.noneValue ▸ .nothing
  | negative hv ho hn => exact .negative (m.keep hv) ho hn
  | upTo hv ho hn => exact .upTo (m.keep hv) ho hn

theorem presentArgument_one (m : Method) (v : Handle) (s : Space) :
    m.presentArgument [v] s = .ok (if v = s.noneValue then none else some v) s := by
  show (.ok (if decide (v = s.noneValue) then none else some v) s :
    EStateM.Result Halt Space (Option Handle)) = _
  simp only [decide_eq_true_eq]

/-- An integer is not None. -/
theorem ne_noneValue_of_asInt? (i : s.Steady) (hv : s.heap.Has v o) {n : Int64}
    (ho : o.asInt? = some n) : v ≠ s.noneValue := by
  rintro rfl
  obtain rfl := hv.unique i.nothing
  cases ho

/-- The number that a read finds among its arguments sets its limit. -/
theorem Limits.number (i : s.Steady) (h : s.Limits args limit) :
    ∃ n? : Option Int64, ((Method.file .read).presentArgument args >>= fun v? =>
      v?.mapM fun v => (liftM ((Method.file .read).expectInt v) : Action Int64)) s = .ok n? s ∧
      (n?.bind fun n => if n < 0 then none else some n.toInt.toNat) = limit := by
  have hpresent := fun v => presentArgument_one (.file .read) v s
  have hint : ∀ {v o n}, s.heap.Has v o → o.asInt? = some n →
      ((Method.file .read).presentArgument [v] >>= fun v? =>
        v?.mapM fun v => (liftM ((Method.file .read).expectInt v) : Action Int64)) s =
        .ok (some n) s := by
    intro v o n hv ho
    rw [bind_of_ok (hpresent v), if_neg (ne_noneValue_of_asInt? i hv ho)]
    show (((liftM (Heap.expectInt v _) : Action Int64) >>= fun n => pure (some n)) s) = _
    rw [ask_bind_of_ok (Heap.expectInt_eq hv ho _)]
    rfl
  cases h with
  | absent => exact ⟨none, rfl, rfl⟩
  | nothing =>
    refine ⟨none, ?_, rfl⟩
    rw [bind_of_ok (hpresent _), if_pos rfl]
    rfl
  | negative hv ho hn => exact ⟨_, hint hv ho, if_pos hn⟩
  | upTo hv ho hn => exact ⟨_, hint hv ho, if_neg hn⟩

/-- The limit of a read is the one that its arguments set. -/
theorem fileMethod_read (i : s.Steady) (h : s.Limits args limit) (f : Handle) (r : Reader) :
    fileMethod .read f ⟨name, binary, .reader r⟩ args s =
      (contentFor r limit >>= fun content =>
        updateStream f (.reader (r.read content limit !binary).2) >>= fun _ =>
          newContent binary (r.read content limit !binary).1) s := by
  obtain ⟨n?, hn, rfl⟩ := h.number i
  show ((Method.file .read).presentArgument args >>= fun v? => v?.mapM _ >>= _) s = _
  rw [← bind_assoc, bind_of_ok hn]

/-- The value that is made of bytes that were read. -/
inductive MadeOf : Bool → Array UInt8 → Object → Prop
  | text (t : String) : MadeOf false (Utf8.encode t) (.str t none)
  | bytes (bs : Array UInt8) : MadeOf true bs (.bytes bs)

/-- A value is made of what was read. -/
theorem newContent_frame (i : s.Steady) (h : s.ReadOnly place content)
    (ho : MadeOf binary bytes o) :
    ∃ v s', newContent binary bytes s = .ok v s' ∧ Frame [] s s' ∧ s'.ReadOnly place content ∧
      s'.heap.Has v o := by
  have hplain : ¬ o.Writes := by
    rintro ⟨x, w, rfl, -⟩
    cases ho
  cases ho with
  | text t =>
    obtain ⟨v, s', hs', fr, hv⟩ := newStr_frame i t
    refine ⟨v, s', ?_, fr, alloc_readOnly i h hs' hplain, hv⟩
    rw [newContent, if_neg Bool.false_ne_true, Utf8.decode_encode]
    exact hs'
  | bytes =>
    obtain ⟨v, s', hs', fr, hv⟩ :=
      alloc_frame i (o := .bytes bytes) trivial (List.forall_mem_nil _) hplain
    exact ⟨v, s', hs', fr, alloc_readOnly i h hs' hplain, hv⟩

/-- A read of a file that is not written to. -/
theorem read_moves (code : Code) (ctx : Handle) (i : s.Steady)
    (hf : s.heap.Has f (.file ⟨name, binary, .reader r⟩)) (h : s.ReadOnly r.place content)
    (hl : s.Limits args limit) (hr : r.read content limit (!binary) = (bytes, r'))
    (ho : MadeOf binary bytes o) :
    ∃ v s', Program.callMethod code ctx f "read" args s = .ok v s' ∧ s'.Steady ∧
      s'.ReadOnly r.place content ∧ s'.heap.Has f (.file ⟨name, binary, .reader r'⟩) ∧
      s'.heap.Has v o := by
  obtain ⟨b, s₁, pack, s₂, h₁, h₂, f₁, f₂, hcall⟩ :=
    callMethod_allocs code ctx i hf (.file .read) rfl (hl.live i)
  have hro₁ := alloc_readOnly i h h₁ nofun
  have hro₂ := alloc_readOnly f₁.steady hro₁ h₂ nofun
  have hf₂ := (f₁.again f₂).keep hf
  obtain ⟨s₃, h₃, i₃, hro₃, hf₃⟩ := updateStream_readOnly f₂.steady hro₂ hf₂ r'
  obtain ⟨v, s', h₄, f₄, hro₄, hv⟩ := newContent_frame i₃ hro₃ ho
  refine ⟨v, s', hcall.trans ?_, f₄.steady, hro₄, f₄.keep hf₃, hv⟩
  rw [runMethod, get_bind_of_has hf₂]
  show fileMethod .read f ⟨name, binary, .reader r⟩ args s₂ = _
  rw [fileMethod_read f₂.steady ((f₁.again f₂).limits hl),
    bind_of_ok (contentFor_eq hro₂.content), hr]
  dsimp only
  rw [bind_of_ok h₃, h₄]

end Space

/-! ## Sessions -/

/-- The bytes of a text or of a byte sequence. -/
def Object.payload? : Object → Option (Array UInt8)
  | .str t _ => some (Utf8.encode t)
  | .bytes bs => some bs
  | _ => none

/-- A file with a certain content is opened for reading and read, by a value `f`, and the bytes of
what the reads gave so far. In between the program does anything that leaves the value and the
content as they are. -/
inductive Session (place : Place) (content : Array UInt8) (binary : Bool) (f : Handle) :
    Space → Array UInt8 → Prop
  | opened {s s' : Space} {name mode : String} : s.Steady → s.ReadOnly place content →
      Access.ofMode? mode = some (.read, binary) → s.disk.openForReading name = .ok place →
      Space.openFile name mode s = .ok f s' → Session place content binary f s' #[]
  | read {s s' : Space} {given bytes : Array UInt8} {args : List Handle} {limit : Option Nat}
      {code : Code} {ctx v : Handle} {o : Object} : Session place content binary f s given →
      s.Limits args limit → Program.callMethod code ctx f "read" args s = .ok v s' →
      s'.heap.Has v o → o.payload? = some bytes →
      Session place content binary f s' (given ++ bytes)
  | meanwhile {s s' : Space} {given : Array UInt8} {file : File} :
      Session place content binary f s given → s'.Steady → s'.ReadOnly place content →
      s.heap.Has f (.file file) → s'.heap.Has f (.file file) →
      Session place content binary f s' given

/-- What was read of a content, and what is left of it. A text is cut at the end of a character. -/
inductive Divided (content : Array UInt8) : Bool → Array UInt8 → List UInt8 → Prop
  | text {done left : String} : Utf8.encode (done ++ left) = content →
      Divided content false (Utf8.encode done) (Utf8.encode left).toList
  | binary {given : Array UInt8} {left : List UInt8} : given.toList ++ left = content.toList →
      Divided content true given left

/-- What a read gives of a content after the bytes that were given before it: in text mode the
shortest run of whole characters that has the bytes that are due, in binary mode these bytes. -/
inductive Answer (content given : Array UInt8) (limit : Option Nat) : Bool → Object → Prop
  | text {done left run : String} : Utf8.encode (done ++ left) = content →
      Utf8.encode done = given →
      Utf8.ShortestRun (Reader.due limit (Utf8.encode left).size) left run →
      Answer content given limit false (.str run none)
  | binary {bytes later : Array UInt8} : given ++ bytes ++ later = content →
      bytes.size = Reader.due limit (bytes.size + later.size) →
      Answer content given limit true (.bytes bytes)

variable {place : Place} {content given bytes : Array UInt8} {binary : Bool} {f v ctx : Handle}
  {s s' : Space} {o : Object} {args : List Handle} {limit : Option Nat} {r : Reader}
  {left : List UInt8}

theorem Divided.start (h : binary = false → ∃ whole, Utf8.decode content = some whole) :
    Divided content binary #[] content.toList := by
  cases binary with
  | false =>
    obtain ⟨whole, hwhole⟩ := h rfl
    obtain rfl := Utf8.encode_of_decode hwhole
    refine @Divided.text _ "" whole ?_
    rw [String.empty_append]
  | true => exact .binary rfl

/-- A read leaves the content divided, and what it gives is the answer. -/
theorem Divided.read (d : Divided content binary given (r.rest content)) (limit : Option Nat) :
    ∃ bytes r' o, r.read content limit (!binary) = (bytes, r') ∧ r'.place = r.place ∧
      Space.MadeOf binary bytes o ∧ Divided content binary (given ++ bytes) (r'.rest content) ∧
      Answer content given limit binary o := by
  generalize hrest : r.rest content = left at d
  cases d with
  | @text done left hcontent =>
    obtain ⟨run, later, r', heq, hplace, hrest', rfl, hrun⟩ := Reader.read_text hrest limit
    refine ⟨Utf8.encode run, r', _, heq, hplace, .text run, ?_, .text hcontent rfl hrun⟩
    rw [hrest', ← Utf8.encode_append]
    exact .text (by rw [String.append_assoc, hcontent])
  | binary hcontent =>
    obtain ⟨bytes, r', heq, h, hsize⟩ := Reader.read_binary r content limit
    have hsplit : (given ++ bytes).toList ++ r'.rest content = content.toList := by
      rw [Array.toList_append, List.append_assoc, ← h.rest, hrest, hcontent]
    have hall : given ++ bytes ++ (r'.rest content).toArray = content := by
      rw [← Array.toList_inj, Array.toList_append, hsplit]
    rw [h.rest, List.length_append, Array.length_toList] at hsize
    exact ⟨bytes, r', _, heq, h.place, .bytes bytes, .binary hsplit, .binary hall hsize⟩

namespace Session

/-- A file in a session: its reader is where the bytes that were given end. -/
structure Stands (place : Place) (content : Array UInt8) (binary : Bool) (f : Handle) (s : Space)
    (given : Array UInt8) (name : String) (r : Reader) : Prop where
  steady : s.Steady
  readOnly : s.ReadOnly place content
  place_eq : r.place = place
  file : s.heap.Has f (.file ⟨name, binary, .reader r⟩)
  divided : Divided content binary given (r.rest content)

/-- A read succeeds and gives the answer, and the file stands behind it. -/
theorem Stands.read {name : String} (h : Stands place content binary f s given name r)
    (hl : s.Limits args limit) (code : Code) (ctx : Handle) :
    ∃ v s' o bytes r', Program.callMethod code ctx f "read" args s = .ok v s' ∧
      s'.heap.Has v o ∧ o.payload? = some bytes ∧ Answer content given limit binary o ∧
      Stands place content binary f s' (given ++ bytes) name r' := by
  obtain ⟨i, hro, rfl, hf, hd⟩ := h
  obtain ⟨bytes, r', o, hr, hplace, hmade, hd', hanswer⟩ := hd.read limit
  obtain ⟨v, s', hcall, i', hro', hf', hv⟩ := Space.read_moves code ctx i hf hro hl hr hmade
  have hpayload : o.payload? = some bytes := by
    cases hmade <;> rfl
  exact ⟨v, s', o, bytes, r', hcall, hv, hpayload, hanswer, i', hro', hplace, hf', hd'⟩

/-- In a session the file stands behind what was given. -/
theorem stands (g : Session place content binary f s given)
    (h : binary = false → ∃ whole, Utf8.decode content = some whole) :
    ∃ name r, Stands place content binary f s given name r := by
  induction g with
  | @opened s s' name mode i hro hmode hplace hopen =>
    rw [Space.openFile_reading hmode, hplace] at hopen
    obtain ⟨f', s₁, h₁, fr, hf⟩ := Space.alloc_frame i
      (o := .file ⟨name, binary, .reader { place }⟩) trivial nofun nofun
    obtain ⟨rfl, rfl⟩ := EStateM.Result.ok.inj (hopen.symm.trans h₁)
    exact ⟨name, { place }, fr.steady, Space.alloc_readOnly i hro h₁ nofun, rfl, hf, .start h⟩
  | read _ hl hcall hv hpayload ih =>
    obtain ⟨name, r, hs⟩ := ih
    obtain ⟨v', s', o', bytes', r', hcall', hv', hpayload', -, hs'⟩ := hs.read hl _ _
    obtain ⟨rfl, rfl⟩ := EStateM.Result.ok.inj (hcall.symm.trans hcall')
    obtain rfl := hv.unique hv'
    obtain rfl := Option.some.inj (hpayload.symm.trans hpayload')
    exact ⟨name, r', hs'⟩
  | meanwhile _ i hro hf hf' ih =>
    obtain ⟨name, r, hs⟩ := ih
    obtain rfl := Object.file.inj (hf.unique hs.file)
    exact ⟨name, r, i, hro, hs.place_eq, hf', hs.divided⟩

end Session

/-- **Reading a file.** In binary mode, and in text mode if the content is UTF-8, every call of
`read` succeeds and gives what the content has next for it, and the session goes on behind that. -/
theorem file_reads (g : Session place content binary f s given)
    (h : binary = false → ∃ whole, Utf8.decode content = some whole) (hl : s.Limits args limit)
    (code : Code) (ctx : Handle) :
    ∃ v s' o bytes, Program.callMethod code ctx f "read" args s = .ok v s' ∧ s'.heap.Has v o ∧
      o.payload? = some bytes ∧ Answer content given limit binary o ∧
      Session place content binary f s' (given ++ bytes) := by
  obtain ⟨name, r, hs⟩ := g.stands h
  obtain ⟨v, s', o, bytes, r', hcall, hv, hpayload, hanswer, -⟩ := hs.read hl code ctx
  exact ⟨v, s', o, bytes, hcall, hv, hpayload, hanswer, g.read hl hcall hv hpayload⟩

/-- A read of two bytes of "héllo" gives "hé", since the second character has two. -/
theorem file_reads_accent :
    ∃ s f v two s', Session ["a"] (Utf8.encode "héllo") false f s #[] ∧
      s.heap.Has two (.int 2) ∧
      Program.callMethod noCode s.noneValue f "read" [two] s = .ok v s' ∧
      Space.IsText s'.heap v "hé" := by
  obtain ⟨s₀, h₀⟩ := Space.create_ok {} rfl ⟨[(["a"], .file (Utf8.encode "héllo"))]⟩
  obtain ⟨n, -⟩ := Space.create_new h₀
  obtain ⟨two, s₁, r₁, f₁, htwo⟩ := (LiveRun.start h₀).newInt 2
  obtain ⟨hw, hdisk⟩ := f₁.dry [] (Space.create_writers h₀)
  have hdisk := hdisk.trans n.disk
  have i₁ := Space.steady_of_liveRun r₁
  have hplace : s₁.disk.openForReading "a" = .ok ["a"] := by
    rw [hdisk]
    decide
  have hcontent : s₁.disk.content? ["a"] = some (Utf8.encode "héllo") := by
    rw [hdisk]
    rfl
  have hro : s₁.ReadOnly ["a"] (Utf8.encode "héllo") := ⟨hcontent, hw.unwritten _⟩
  have hmode : Access.ofMode? "r" = some (.read, false) := rfl
  obtain ⟨f, s, hs, fr, hf⟩ := Space.openFile_read i₁ hplace
  have g : Session ["a"] (Utf8.encode "héllo") false f s #[] := .opened i₁ hro hmode hplace hs
  have htwo := fr.keep htwo
  obtain ⟨v, s', o, bytes, hcall, hv, -, hanswer, -⟩ := file_reads g
    (fun _ => ⟨_, Utf8.decode_encode _⟩) (.upTo htwo rfl (by decide)) noCode s.noneValue
  cases hanswer with
  | @text done left run hwhole hdone hrun =>
    obtain rfl : done = "" := Utf8.encode_injective hdone
    obtain rfl : left = "héllo" := by
      rw [String.empty_append] at hwhole
      exact Utf8.encode_injective hwhole
    obtain ⟨⟨later, hlater⟩, henough, hshort⟩ := hrun
    have hle : (Utf8.encode run).size ≤ 3 := hshort "hé" "llo" rfl (by decide)
    have hinit : run.toList ∈ "héllo".toList.inits :=
      (List.mem_inits _ _).2 ⟨later.toList, by rw [hlater, String.toList_append]⟩
    have hall : ("héllo".toList.inits.all fun cs =>
        (Utf8.bytesOf cs).length < 2 ∨ 3 < (Utf8.bytesOf cs).length ∨ cs = "hé".toList) = true := by
      decide
    have hrun := of_decide_eq_true (List.all_eq_true.1 hall _ hinit)
    rw [← Utf8.size_encode] at hrun
    have hdue : 2 ≤ (Utf8.encode run).size := henough
    rcases hrun with hlt | hlt | heq
    · omega
    · omega
    · obtain rfl := String.toList_inj.1 heq
      exact ⟨s, f, v, two, s', g, htwo, hcall, none, hv⟩

end ObjectSpace
