import ObjectSpace.Files.Stream
import ObjectSpace.Proofs.Text.Encodings

/-!
# What readers hand out

The bytes that a reader has still to hand out are those of its piece from where it stands, and those
of the file behind the piece (`Reader.rest`). A request hands out what these begin with
(`Reader.HandsOut`), whatever way it takes: from the piece, from the next piece or from the file
itself. A read is a row of requests, so that it does not show where the pieces end. Up to a limit it
hands out as many bytes as it may and as there are (`Reader.read_binary`), and of a text also those
that the last character lacks (`Reader.read_text`).
-/

namespace ObjectSpace.Reader

variable {r r' r'' : Reader} {content bytes bytes' : Array UInt8} {n : Nat}

/-- The bytes that a reader has still to hand out. -/
def rest (r : Reader) (content : Array UInt8) : List UInt8 :=
  r.buffer.toList.drop r.used ++ content.toList.drop r.position

/-- A reader hands out bytes that come next in its file, and goes on behind them. -/
structure HandsOut (content : Array UInt8) (r : Reader) (bytes : Array UInt8) (r' : Reader) :
    Prop where
  place : r'.place = r.place
  rest : r.rest content = bytes.toList ++ r'.rest content

theorem HandsOut.nothing (content : Array UInt8) (r : Reader) : HandsOut content r #[] r :=
  ⟨rfl, rfl⟩

theorem HandsOut.trans (h : HandsOut content r bytes r') (h' : HandsOut content r' bytes' r'') :
    HandsOut content r (bytes ++ bytes') r'' := by
  refine ⟨h'.place.trans h.place, ?_⟩
  rw [h.rest, h'.rest, Array.toList_append, List.append_assoc]

/-! ## Requests -/

theorem drop_eq_extract (a : Array UInt8) (i n : Nat) :
    a.toList.drop i = (a.extract i (i + n)).toList ++
      a.toList.drop (i + (a.extract i (i + n)).size) := by
  have hcut : (a.extract i (i + n)).toList = (a.toList.drop i).take n := by
    rw [Array.toList_extract, List.extract_eq_take_drop, Nat.add_sub_cancel_left]
  rw [← Array.length_toList, hcut, ← List.drop_drop, List.length_take]
  rcases Nat.le_total n (a.toList.drop i).length with h | h
  · rw [Nat.min_eq_left h, List.take_append_drop]
  · rw [Nat.min_eq_right h, List.take_of_length_le h, List.drop_length, List.append_nil]

theorem handOut_spec (r : Reader) (content : Array UInt8) (n : Nat) :
    HandsOut content r (r.handOut n).1 (r.handOut n).2 := by
  refine ⟨rfl, ?_⟩
  rw [rest, rest, ← List.append_assoc, drop_eq_extract r.buffer r.used n]
  rfl

theorem rest_of_used (h : ¬ r.used < r.buffer.size) :
    r.rest content = content.toList.drop r.position := by
  rw [rest, List.drop_of_length_le (by rw [Array.length_toList]; omega), List.nil_append]

theorem handOutDirectly_spec (content : Array UInt8) (n : Nat) (h : ¬ r.used < r.buffer.size) :
    HandsOut content r (r.handOutDirectly content n).1 (r.handOutDirectly content n).2 := by
  refine ⟨rfl, ?_⟩
  rw [rest_of_used h, drop_eq_extract content r.position n]
  rfl

theorem place_refill (r : Reader) (content : Array UInt8) : (r.refill content).place = r.place := by
  rw [refill]

theorem rest_refill (content : Array UInt8) (h : ¬ r.used < r.buffer.size) :
    (r.refill content).rest content = r.rest content := by
  rw [rest_of_used h, drop_eq_extract content r.position bufferSize, rest, refill]
  dsimp only
  rw [List.drop_zero]

/-- A request hands out what comes next, and something as long as there is something. -/
theorem request_spec (r : Reader) (content : Array UInt8) (n : Nat) :
    ∃ bytes r', r.request content n = (bytes, r') ∧ HandsOut content r bytes r' ∧
      bytes.size ≤ n ∧ (bytes.size = 0 → n = 0 ∨ r.rest content = []) := by
  suffices h : HandsOut content r (r.request content n).1 (r.request content n).2 ∧
      ((r.request content n).1.size = 0 → n = 0 ∨ r.rest content = []) from
    ⟨_, _, rfl, h.1, size_request_le r content n, h.2⟩
  rw [request]
  split
  · rename_i h
    refine ⟨handOut_spec r content n, fun hsize => ?_⟩
    rw [handOut, Array.size_extract] at hsize
    omega
  · rename_i h
    obtain ⟨-, hused⟩ := not_or.1 h
    have hrest : content.size ≤ r.position → r.rest content = [] := fun hend => by
      rw [rest_of_used hused, List.drop_of_length_le (by rwa [Array.length_toList])]
    split
    · refine ⟨handOutDirectly_spec content n hused, fun hsize => .inr (hrest ?_)⟩
      rw [handOutDirectly, Array.size_extract] at hsize
      omega
    · obtain ⟨hplace, hsplit⟩ := handOut_spec (r.refill content) content n
      refine ⟨⟨hplace.trans (place_refill r content),
        (rest_refill content hused).symm.trans hsplit⟩, fun hsize => .inr (hrest ?_)⟩
      have hpos := bufferSize_pos
      rw [handOut, Array.size_extract] at hsize
      simp only [refill, Array.size_extract] at hsize
      omega

theorem request_one {b : UInt8} {later : List UInt8} (h : r.rest content = b :: later) :
    ∃ r', r.request content 1 = (#[b], r') ∧ HandsOut content r #[b] r' := by
  obtain ⟨bytes, r', heq, hout, hle, hnone⟩ := request_spec r content 1
  have hpos : 0 < bytes.size := by
    refine Nat.pos_of_ne_zero fun hzero => ?_
    rcases hnone hzero with hn | hrest
    · cases hn
    · rw [hrest] at h
      cases h
  obtain ⟨a, rfl⟩ := Array.size_eq_one_iff.1 (Nat.le_antisymm hle hpos)
  obtain ⟨rfl, -⟩ := List.cons.inj (h.symm.trans hout.rest)
  exact ⟨r', heq, hout⟩

/-! ## Reads -/

theorem leastRoom_le (size filled : Nat) : leastRoom ≤ roomySize size filled - filled := by
  rw [roomySize]
  split <;> omega

/-- Further requests hand out as many bytes as they may and as there are. -/
theorem takeMore_spec (r : Reader) (content taken : Array UInt8) (size n : Nat) :
    ∃ bytes r', r.takeMore content taken size n = (taken ++ bytes, r') ∧
      HandsOut content r bytes r' ∧ bytes.size = min n (r.rest content).length := by
  fun_induction takeMore r content taken size n with
  | case1 r taken size n size' bytes r' hreq hempty =>
    obtain ⟨bytes, r', heq, h, -, hnone⟩ := request_spec r content (min n (size' - taken.size))
    obtain ⟨rfl, rfl⟩ := Prod.mk.inj (hreq.symm.trans heq)
    obtain rfl := Array.eq_empty_of_size_eq_zero hempty
    refine ⟨#[], _, by rw [Array.append_empty], h, ?_⟩
    have hroom : 0 < leastRoom := by decide
    have hleast : leastRoom ≤ size' - taken.size := leastRoom_le size taken.size
    rcases hnone rfl with hn | hrest
    · obtain rfl : n = 0 := by omega
      exact (Nat.zero_min _).symm
    · rw [hrest]
      exact (Nat.min_zero n).symm
  | case2 r taken size n size' bytes r' hreq hsome ih =>
    obtain ⟨bytes, r', heq, h, hle, -⟩ := request_spec r content (min n (size' - taken.size))
    obtain ⟨rfl, rfl⟩ := Prod.mk.inj (hreq.symm.trans heq)
    obtain ⟨more, r'', heq, h', hsize⟩ := ih
    refine ⟨bytes ++ more, r'', by rw [heq, Array.append_assoc], h.trans h', ?_⟩
    rw [h.rest, List.length_append, Array.length_toList, Array.size_append, hsize]
    omega

/-- A read up to a limit hands out as many bytes as it may and as there are. -/
theorem take_spec (r : Reader) (content : Array UInt8) (n : Nat) :
    ∃ bytes r', r.take content n = (bytes, r') ∧ HandsOut content r bytes r' ∧
      bytes.size = min n (r.rest content).length := by
  obtain ⟨bytes, r', heq, h, hle, -⟩ := request_spec r content (min n leastRoom)
  obtain ⟨more, r'', heq', h', hsize⟩ :=
    takeMore_spec r' content bytes bytes.size (n - bytes.size)
  refine ⟨bytes ++ more, r'', ?_, h.trans h', ?_⟩
  · rw [take, heq]
    exact heq'
  · rw [h.rest, List.length_append, Array.length_toList, Array.size_append, hsize]
    omega

theorem toList_extract_size (a : Array UInt8) (i : Nat) :
    (a.extract i a.size).toList = a.toList.drop i := by
  rw [Array.toList_extract, List.extract_eq_take_drop]
  exact List.take_of_length_le (Nat.le_of_eq (by rw [List.length_drop, Array.length_toList]))

theorem takeAll_spec (r : Reader) (content : Array UInt8) :
    ∃ bytes r', r.takeAll content = (bytes, r') ∧ HandsOut content r bytes r' ∧
      r'.rest content = [] := by
  have hnil : (r.takeAll content).2.rest content = [] := by
    show [] ++ content.toList.drop (max r.position content.size) = []
    rw [List.nil_append]
    refine List.drop_of_length_le ?_
    rw [Array.length_toList]
    exact Nat.le_max_right _ _
  refine ⟨_, _, rfl, ⟨rfl, ?_⟩, hnil⟩
  show _ = _ ++ (r.takeAll content).2.rest content
  rw [hnil, List.append_nil, Array.toList_append, toList_extract_size,
    toList_extract_size]
  rfl

/-- Single bytes are added until the last character lacks none. -/
theorem finishCharacter_spec {q later : List UInt8} {k : Nat} (hk : q.length ≤ k)
    (hlacks : Utf8.Lacks bytes.toList q) (hrest : r.rest content = q ++ later) :
    ∃ r', r.finishCharacter content bytes k = (bytes ++ q.toArray, r') ∧
      HandsOut content r q.toArray r' := by
  induction q generalizing r bytes k with
  | nil =>
    refine ⟨r, ?_, .nothing content r⟩
    have hends : ¬ Utf8.endsInsideCharacter bytes = true := fun h => hlacks.endsInside_iff.1 h rfl
    cases k with
    | zero => rfl
    | succ k => rw [finishCharacter, if_neg hends]; rfl
  | cons b q ih =>
    cases k with
    | zero => exact absurd hk (Nat.not_succ_le_zero _)
    | succ k =>
      obtain ⟨r₁, heq, h⟩ := request_one hrest
      have hrest₁ : r₁.rest content = q ++ later :=
        (List.cons.inj (h.rest.symm.trans hrest)).2
      have hlacks₁ : Utf8.Lacks (bytes ++ #[b]).toList q := by
        rw [Array.toList_append]
        exact hlacks.snoc
      obtain ⟨r', heq', h'⟩ := ih (Nat.le_of_succ_le_succ hk) hlacks₁ hrest₁
      rw [List.toArray_cons]
      refine ⟨r', ?_, h.trans h'⟩
      rw [finishCharacter, if_pos (hlacks.endsInside_iff.2 (List.cons_ne_nil b q)), heq]
      show r₁.finishCharacter content (bytes ++ #[b]) k = _
      rw [heq', Array.append_assoc]

/-- How many of the bytes that are left a read is to hand out. -/
def due (limit : Option Nat) (left : Nat) : Nat := limit.elim left (min · left)

theorem read_binary (r : Reader) (content : Array UInt8) (limit : Option Nat) :
    ∃ bytes r', r.read content limit false = (bytes, r') ∧ HandsOut content r bytes r' ∧
      bytes.size = due limit (r.rest content).length := by
  cases limit with
  | none =>
    obtain ⟨bytes, r', heq, h, hnil⟩ := takeAll_spec r content
    refine ⟨bytes, r', heq, h, ?_⟩
    rw [h.rest, hnil, List.append_nil, Array.length_toList]
    rfl
  | some n =>
    obtain ⟨bytes, r', heq, h, hsize⟩ := take_spec r content n
    exact ⟨bytes, r', by rw [read, heq]; rfl, h, hsize⟩

/-- A read of a text hands out the shortest run of whole characters that has the bytes that are
due. -/
theorem read_text {text : String} (htext : r.rest content = (Utf8.encode text).toList)
    (limit : Option Nat) :
    ∃ run later r', r.read content limit true = (Utf8.encode run, r') ∧ r'.place = r.place ∧
      r'.rest content = (Utf8.encode later).toList ∧ text = run ++ later ∧
      Utf8.ShortestRun (due limit (Utf8.encode text).size) text run := by
  cases limit with
  | none =>
    obtain ⟨bytes, r', heq, h, hnil⟩ := takeAll_spec r content
    have hsplit := h.rest
    rw [hnil, List.append_nil, htext] at hsplit
    obtain rfl := Array.toList_inj.1 hsplit
    exact ⟨text, "", r', heq, h.place, hnil, String.append_empty.symm, .all text⟩
  | some n =>
    obtain ⟨bytes, r₁, heq, h, hsize⟩ := take_spec r content n
    obtain ⟨run, later, q, rfl, hrun, hlacks, hshort⟩ := Utf8.exists_shortestRun n text
    have htake : bytes.toList = (Utf8.encode (run ++ later)).toList.take n := by
      rw [← htext, List.take_eq_take_min, ← hsize, h.rest]
      exact (List.take_left' Array.length_toList).symm
    rw [← htake] at hrun hlacks
    have hrest₁ : r₁.rest content = q ++ (Utf8.encode later).toList := by
      have hsplit := h.rest
      rw [htext, Utf8.encode_append, Array.toList_append, ← hrun, List.append_assoc] at hsplit
      exact (List.append_cancel_left hsplit).symm
    obtain ⟨r', heq', h'⟩ := finishCharacter_spec hlacks.length_le hlacks hrest₁
    refine ⟨run, later, r', ?_, h'.place.trans h.place, ?_, rfl, hshort⟩
    · have hbytes : bytes ++ q.toArray = Utf8.encode run := by
        rw [← Array.toList_inj, Array.toList_append, hrun]
      rw [read, heq, ← hbytes]
      exact heq'
    · exact List.append_cancel_left (h'.rest.symm.trans hrest₁)

end ObjectSpace.Reader
