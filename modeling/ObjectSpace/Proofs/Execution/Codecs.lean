import ObjectSpace.Proofs.Execution.Calling
import ObjectSpace.Proofs.Execution.Values
import ObjectSpace.Proofs.Text.Encodings

/-!
# Texts as bytes and back

**Theorem (`encodings_inverse`).** In every space of a run on live handles, and for every accepted
encoding: what `bytes` makes of a text decodes to an equal text; and `bytes` makes equal bytes of a
text that was decoded, unless the encoding is ASCII and one of the bytes is not below 128. Decoding
as ASCII accepts such bytes when they are UTF-8, and `bytes` then refuses the text.
-/

namespace ObjectSpace

namespace Space

variable {s s' : Space} {v e b callee ctx : Handle} {text name : String} {bs : Array UInt8}
  {enc : Encoding} {d : Diagnostic} {code : Code}

/-! ## The two calls -/

theorem construct_bytes (hv : IsText s.heap v text) (he : IsText s.heap e name)
    (hn : Encoding.ofName name = .ok enc) :
    construct .bytes [v, e] none s =
      match enc.encode text with
      | .ok bs => newBytes bs s
      | .error d => .error (.fatal d) s := by
  have hbytes : bytesOf [v, e] s =
      match enc.encode text with
      | .ok bs => .ok bs s
      | .error d => .error (.fatal d) s := by
    show ((liftM (Heap.expectStr e "bytes") : Action String) >>= _) s = _
    rw [ask_bind_of_ok (Heap.expectStr_text he _)]
    simp only [hn]
    show ((liftM (Heap.expectStr v "bytes") : Action String) >>= _) s = _
    rw [ask_bind_of_ok (Heap.expectStr_text hv _)]
    cases enc.encode text <;> rfl
  show (bytesOf [v, e] >>= newBytes) s = _
  cases h : enc.encode text with
  | ok bs => rw [h] at hbytes; exact bind_of_ok hbytes
  | error d => rw [h] at hbytes; exact bind_of_error hbytes

theorem runMethod_decode (hb : s.heap.Has b (.bytes bs)) (he : IsText s.heap e name)
    (hn : Encoding.ofName name = .ok enc) :
    runMethod .bytesDecode b [e] s =
      match enc.decode bs with
      | .ok text => newStr text s
      | .error d => .error (.fatal d) s := by
  rw [runMethod, get_bind_of_has hb]
  show decodeMethod bs [e] s = _
  show ((liftM (Heap.expectStr e Method.bytesDecode.qualifiedName) : Action String) >>= _) s = _
  rw [ask_bind_of_ok (Heap.expectStr_text he _)]
  simp only [hn]
  show ((liftM (enc.decode bs) : Action String) >>= newStr) s = _
  cases enc.decode bs <;> rfl

theorem callWith_bytes (code : Code) (ctx : Handle) (i : s.Steady)
    (hcallee : s.heap.Has callee (.type .bytes)) (hv : IsText s.heap v text)
    (he : IsText s.heap e name) (hn : Encoding.ofName name = .ok enc) :
    ∃ s', Frame [] s s' ∧ callWith code ctx callee [v, e] s =
      match enc.encode text with
      | .ok bs => newBytes bs s'
      | .error d => .error (.fatal d) s' := by
  have hargs : ∀ a ∈ [v, e], s.heap.isLive a = true := by simp [hv.live, he.live]
  obtain ⟨s', f, hs'⟩ := callWith_type code ctx i hcallee hargs
  exact ⟨s', f, hs'.trans (construct_bytes (f.isText hv) (f.isText he) hn)⟩

theorem callMethod_decode (code : Code) (ctx : Handle) (i : s.Steady)
    (hb : s.heap.Has b (.bytes bs)) (he : IsText s.heap e name)
    (hn : Encoding.ofName name = .ok enc) :
    ∃ s', Frame [] s s' ∧ Program.callMethod code ctx b "decode" [e] s =
      match enc.decode bs with
      | .ok text => newStr text s'
      | .error d => .error (.fatal d) s' := by
  have hargs : ∀ a ∈ [e], s.heap.isLive a = true := by simp [he.live]
  obtain ⟨s', f, hs'⟩ := callMethod_frame code ctx i hb .bytesDecode rfl hargs
  exact ⟨s', f, hs'.trans (runMethod_decode (f.keep hb) (f.isText he) hn)⟩

/-! ## There and back -/

theorem decode_of_bytes (code : Code) (ctx : Handle) (i : s.Steady)
    (hcallee : s.heap.Has callee (.type .bytes)) (hv : IsText s.heap v text)
    (he : IsText s.heap e name) (hn : Encoding.ofName name = .ok enc)
    (h : callWith code ctx callee [v, e] s = .ok b s') :
    ∃ t s'', Program.callMethod code ctx b "decode" [e] s' = .ok t s'' ∧ IsText s''.heap t text ∧
      Heap.equal t v s''.heap = .ok true := by
  obtain ⟨s₁, f₁, hs₁⟩ := callWith_bytes code ctx i hcallee hv he hn
  rw [h] at hs₁
  cases henc : enc.encode text with
  | error d =>
    rw [henc] at hs₁
    cases hs₁
  | ok bs =>
    rw [henc] at hs₁
    obtain ⟨b', s₂, hs₂, f₂, hb⟩ := alloc_frame f₁.steady (o := .bytes bs) trivial nofun nofun
    obtain ⟨rfl, rfl⟩ := EStateM.Result.ok.inj (hs₁.trans hs₂)
    have f := f₁.again f₂
    obtain ⟨s₃, f₃, hs₃⟩ := callMethod_decode code ctx f₂.steady hb (f.isText he) hn
    rw [Encoding.decode_of_encode henc] at hs₃
    obtain ⟨t, s₄, hs₄, f₄, ht⟩ := newStr_frame f₃.steady text
    obtain ⟨hash, hv⟩ := f₄.isText (f₃.isText (f.isText hv))
    exact ⟨t, s₄, hs₃.trans hs₄, ⟨none, ht⟩,
      Heap.equal_of_sameContent ht.2 hv.2 (fun _ => by simp [Heap.sameContent]) fun _ => rfl⟩

/-- Writing a text that was decoded gives equal bytes, or is refused. -/
theorem bytes_of_decode (code : Code) (ctx : Handle) (i : s.Steady)
    (hcallee : s.heap.Has callee (.type .bytes)) (hb : s.heap.Has b (.bytes bs))
    (he : IsText s.heap e name) (hn : Encoding.ofName name = .ok enc)
    (h : Program.callMethod code ctx b "decode" [e] s = .ok v s') :
    (¬ (enc = .ascii ∧ ¬ ∀ x ∈ bs, x < 128) → ∃ c s'',
      callWith code ctx callee [v, e] s' = .ok c s'' ∧ s''.heap.Has c (.bytes bs) ∧
        Heap.equal c b s''.heap = .ok true) ∧
    ((enc = .ascii ∧ ¬ ∀ x ∈ bs, x < 128) → ∃ s'',
      callWith code ctx callee [v, e] s' =
        .error (.fatal (.invalidValue "'ascii' codec can't encode non-ASCII text")) s'') := by
  obtain ⟨s₁, f₁, hs₁⟩ := callMethod_decode code ctx i hb he hn
  rw [h] at hs₁
  cases hdec : enc.decode bs with
  | error d =>
    rw [hdec] at hs₁
    cases hs₁
  | ok text =>
    rw [hdec] at hs₁
    obtain ⟨v', s₂, hs₂, f₂, hv⟩ := newStr_frame f₁.steady text
    obtain ⟨rfl, rfl⟩ := EStateM.Result.ok.inj (hs₁.trans hs₂)
    have f := f₁.again f₂
    obtain ⟨s₃, f₃, hs₃⟩ :=
      callWith_bytes code ctx f₂.steady (f.keep hcallee) ⟨none, hv⟩ (f.isText he) hn
    refine ⟨fun hne => ?_, fun ha => ⟨s₃, by rw [hs₃, Encoding.encode_refused hdec ha]⟩⟩
    rw [Encoding.encode_of_decode hdec hne] at hs₃
    obtain ⟨c, s₄, hs₄, f₄, hc⟩ := alloc_frame f₃.steady (o := .bytes bs) trivial nofun nofun
    exact ⟨c, s₄, hs₃.trans hs₄, hc, Heap.equal_of_sameContent hc.2
      (f₄.keep (f₃.keep (f.keep hb))).2 (fun _ => by simp [Heap.sameContent]) fun _ => rfl⟩

end Space

open Space

variable {settings : Settings} {disk : Disk} {s s' : Space} {v e b callee : Handle} {name : String}

/-- **Texts as bytes and back.** What `bytes` makes of a text decodes to an equal text; and `bytes`
makes equal bytes of what was decoded, but refuses it as ASCII when one of the bytes is not below
128. -/
theorem encodings_inverse (r : LiveRun settings disk s) (code : Code) (ctx : Handle)
    (hcallee : s.heap.Has callee (.type .bytes)) (he : IsText s.heap e name)
    (hname : Text.lowerAscii name ∈ Encoding.accepted) :
    (∀ v text, IsText s.heap v text → ∀ b s', callWith code ctx callee [v, e] s = .ok b s' →
      ∃ t s'', Program.callMethod code ctx b "decode" [e] s' = .ok t s'' ∧ IsText s''.heap t text ∧
        Heap.equal t v s''.heap = .ok true) ∧
    ∀ b bs, s.heap.Has b (.bytes bs) →
      ∀ t s', Program.callMethod code ctx b "decode" [e] s = .ok t s' →
        ((Text.lowerAscii name = "ascii" → ∀ x ∈ bs, x < 128) → ∃ c s'',
          callWith code ctx callee [t, e] s' = .ok c s'' ∧ s''.heap.Has c (.bytes bs) ∧
            Heap.equal c b s''.heap = .ok true) ∧
        ((Text.lowerAscii name = "ascii" ∧ ∃ x ∈ bs, 128 ≤ x) → ∃ s'',
          callWith code ctx callee [t, e] s' =
            .error (.fatal (.invalidValue "'ascii' codec can't encode non-ASCII text")) s'') := by
  have i := steady_of_liveRun r
  have hn := Encoding.ofName_accepted hname
  have hascii : (if Text.lowerAscii name = "ascii" then Encoding.ascii else .utf8) = .ascii ↔
      Text.lowerAscii name = "ascii" := by
    split <;> simp_all
  refine ⟨fun v text hv b s' h => decode_of_bytes code ctx i hcallee hv he hn h,
    fun b bs hb t s' h => ?_⟩
  obtain ⟨hback, hrefused⟩ := bytes_of_decode code ctx i hcallee hb he hn h
  simp only [hascii] at hback hrefused
  refine ⟨fun hall => hback (by simpa using hall),
    fun ⟨ha, x, hx, hle⟩ => hrefused ⟨ha, fun h => ?_⟩⟩
  exact absurd (h x hx) (UInt8.not_lt.2 hle)

theorem encodings_inverse_accent :
    ∃ s callee v e b s', LiveRun {} {} s ∧ s.heap.Has callee (.type .bytes) ∧
      IsText s.heap v "é" ∧ IsText s.heap e "UTF-8" ∧
      callWith noCode s.noneValue callee [v, e] s = .ok b s' ∧
      ∃ t s'', Program.callMethod noCode s.noneValue b "decode" [e] s' = .ok t s'' ∧
        Heap.equal t v s''.heap = .ok true := by
  obtain ⟨s₀, h₀⟩ := create_ok {} rfl {}
  obtain ⟨v, s₁, r₁, f₁, hv⟩ := (LiveRun.start h₀).newStr "é"
  obtain ⟨e, s, r, f, he⟩ := r₁.newStr "UTF-8"
  have i := steady_of_liveRun r
  have hname : Text.lowerAscii "UTF-8" ∈ Encoding.accepted := by decide +kernel
  have hcallee : s.heap.Has _ (.type .bytes) := i.types Kind.bytes.index
  obtain ⟨s₂, f₂, hs₂⟩ := callWith_bytes noCode s.noneValue i hcallee (f.isText hv) he
    (Encoding.ofName_accepted hname)
  have henc : Encoding.utf8.encode "é" = .ok (Utf8.encode "é") := rfl
  rw [if_neg (by decide +kernel), henc] at hs₂
  obtain ⟨b, s₃, hs₃, -⟩ :=
    alloc_frame f₂.steady (o := .bytes (Utf8.encode "é")) trivial nofun nofun
  have hcall := hs₂.trans hs₃
  obtain ⟨t, s₄, ht, -, heq⟩ :=
    (encodings_inverse r noCode s.noneValue hcallee he hname).1 v "é" (f.isText hv) b s₃ hcall
  exact ⟨s, _, v, e, b, s₃, r, hcallee, f.isText hv, he, hcall, t, s₄, ht, heq⟩

/-- Bytes that are UTF-8 but not ASCII decode as ASCII, and the text is refused as ASCII. -/
theorem encodings_inverse_ascii :
    ∃ s callee b e t s', LiveRun {} {} s ∧ s.heap.Has callee (.type .bytes) ∧
      s.heap.Has b (.bytes #[195, 169]) ∧ IsText s.heap e "ascii" ∧
      Program.callMethod noCode s.noneValue b "decode" [e] s = .ok t s' ∧
      ∀ c s'', callWith noCode s.noneValue callee [t, e] s' ≠ .ok c s'' := by
  obtain ⟨s₀, h₀⟩ := create_ok {} rfl {}
  obtain ⟨b, s₁, r₁, f₁, hb⟩ := (LiveRun.start h₀).newBytes #[195, 169]
  obtain ⟨e, s, r, f, he⟩ := r₁.newStr "ascii"
  have i := steady_of_liveRun r
  have hname : Text.lowerAscii "ascii" ∈ Encoding.accepted := by decide +kernel
  have hn := Encoding.ofName_accepted hname
  have hcallee : s.heap.Has _ (.type .bytes) := i.types Kind.bytes.index
  obtain ⟨s₂, f₂, hs₂⟩ := callMethod_decode noCode s.noneValue i (f.keep hb) he hn
  have henc : Encoding.utf8.encode "é" = .ok #[195, 169] := by
    rw [Encoding.encode, if_neg (by decide)]
    rfl
  -- ASCII reads what UTF-8 reads
  have hdec : Encoding.ascii.decode #[195, 169] = .ok "é" :=
    (Encoding.decode_of_encode henc : Encoding.utf8.decode #[195, 169] = .ok "é")
  rw [if_pos (by decide +kernel), hdec] at hs₂
  obtain ⟨t, s₃, hs₃, -⟩ := newStr_frame f₂.steady "é"
  have hcall := hs₂.trans hs₃
  obtain ⟨s₄, hs₄⟩ := (bytes_of_decode noCode s.noneValue i hcallee (f.keep hb) he hn hcall).2
    ⟨if_pos (by decide +kernel), fun h => absurd (h 195 (by simp)) (by decide)⟩
  refine ⟨s, _, b, e, t, s₃, r, hcallee, f.keep hb, he, hcall, fun c s'' h => ?_⟩
  rw [hs₄] at h
  cases h

end ObjectSpace
