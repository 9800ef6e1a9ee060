import ObjectSpace.Encoding
import Mathlib.Data.List.Forall2

/-!
# Encodings and whole characters

A text that is written as bytes is read back (`decode_of_encode`). Bytes that are read as a text are
the bytes of that text (`encode_of_decode`), but ASCII, which reads what UTF-8 reads, does not write
it when there is a byte from 128 on: a text is of ASCII characters exactly when its bytes are below
128 (`all_ascii_iff`).

The bytes of a character are a first one and, for each range that this one asks for, one byte in the
range (`exists_followers`). Scanning therefore goes over whole characters one by one, and ends
inside a character exactly when that one is begun and not ended (`Lacks.endsInside_iff`).

The first bytes of a text, with those that their last character lacks, are the shortest run of whole
characters that has so many bytes (`exists_shortestRun`).
-/

namespace ObjectSpace

/-! ## There and back -/

namespace Utf8

theorem decode_encode (s : String) : decode (encode s) = some s := by
  simp only [decode, encode, String.fromUTF8?, String.toUTF8_eq_toByteArray, dif_pos s.isValidUTF8]
  rfl

theorem encode_injective : Function.Injective encode := fun s t h =>
  Option.some.inj ((decode_encode s).symm.trans ((congrArg decode h).trans (decode_encode t)))

theorem encode_of_decode {bs : Array UInt8} {s : String} (h : decode bs = some s) :
    encode s = bs := by
  unfold decode String.fromUTF8? at h
  split at h
  · obtain rfl := Option.some.inj h
    rfl
  · cases h

theorem toList_encode (s : String) :
    (encode s).toList = s.toList.flatMap String.utf8EncodeChar := by
  rw [encode, String.toUTF8_eq_toByteArray, ← String.utf8Encode_toList, List.utf8Encode,
    List.toList_data_toByteArray]

/-- The bytes of a character are below 128 exactly when the character is. -/
theorem char_ascii_iff (c : Char) :
    (∀ b ∈ String.utf8EncodeChar c, b < 128) ↔ c.toNat < 128 := by
  have hval : c.toNat = c.val.toNat := rfl
  have hlow : ∀ n : Nat, n < 256 → (UInt8.ofNat n < 128 ↔ n < 128) := fun n hn => by
    rw [UInt8.lt_iff_toNat_lt, UInt8.toNat_ofNat_of_lt' hn]
    rfl
  simp only [String.utf8EncodeChar, hval]
  split
  · rw [List.forall_mem_singleton, hlow _ (by omega)]
  · split
    · rw [List.forall_mem_cons, hlow _ (by omega)]
      omega
    · split <;> rw [List.forall_mem_cons, hlow _ (by omega)] <;> omega

theorem all_ascii_iff (s : String) :
    s.toList.all (·.toNat < 128) = true ↔ ∀ b ∈ encode s, b < 128 := by
  have hmem : (∀ b ∈ encode s, b < 128) ↔
      ∀ c ∈ s.toList, ∀ b ∈ String.utf8EncodeChar c, b < 128 := by
    simp only [← Array.mem_toList_iff, toList_encode, List.mem_flatMap]
    exact ⟨fun h c hc b hb => h b ⟨c, hc, hb⟩, fun h b ⟨c, hc, hb⟩ => h c hc b hb⟩
  simp only [hmem, char_ascii_iff, List.all_eq_true, decide_eq_true_eq]

end Utf8

namespace Encoding

/-- The names that encodings go by, in lower case. -/
def accepted : List String := ["utf-8", "utf8", "ascii"]

/-- An accepted name, in any letter case, is that of an encoding, and no other is that of ASCII. -/
theorem ofName_accepted {name : String} (h : Text.lowerAscii name ∈ accepted) :
    ofName name = .ok (if Text.lowerAscii name = "ascii" then ascii else utf8) := by
  unfold ofName
  generalize Text.lowerAscii name = lower at h
  simp only [accepted, List.mem_cons, List.not_mem_nil, or_false] at h
  rcases h with rfl | rfl | rfl <;> simp

theorem decode_of_encode {e : Encoding} {s : String} {bs : Array UInt8}
    (h : e.encode s = .ok bs) : e.decode bs = .ok s := by
  unfold encode at h
  split at h
  · cases h
  · obtain rfl := Except.ok.inj h
    rw [decode, Utf8.decode_encode]

theorem utf8_of_decode {e : Encoding} {s : String} {bs : Array UInt8} (h : e.decode bs = .ok s) :
    Utf8.encode s = bs := by
  unfold decode at h
  split at h
  · rename_i t ht
    obtain rfl := Except.ok.inj h
    exact Utf8.encode_of_decode ht
  · cases h

/-- Writing a text that was read gives the bytes again, unless ASCII refuses it. -/
theorem encode_of_decode {e : Encoding} {s : String} {bs : Array UInt8} (h : e.decode bs = .ok s)
    (hne : ¬ (e = ascii ∧ ¬ ∀ b ∈ bs, b < 128)) : e.encode s = .ok bs := by
  obtain rfl := utf8_of_decode h
  rw [← Utf8.all_ascii_iff] at hne
  exact if_neg hne

/-- ASCII reads bytes that are not below 128, but does not write the text. -/
theorem encode_refused {e : Encoding} {s : String} {bs : Array UInt8} (h : e.decode bs = .ok s)
    (ha : e = ascii ∧ ¬ ∀ b ∈ bs, b < 128) :
    e.encode s = .error (.invalidValue "'ascii' codec can't encode non-ASCII text") := by
  obtain rfl := utf8_of_decode h
  rw [← Utf8.all_ascii_iff] at ha
  exact if_pos ha

end Encoding

end ObjectSpace

namespace ObjectSpace.Utf8

/-- The bytes of characters. -/
def bytesOf (cs : List Char) : List UInt8 := cs.flatMap String.utf8EncodeChar

/-- Bytes lie in ranges, one in each. -/
abbrev Fit (ranges : List ByteRange) (bs : List UInt8) : Prop :=
  List.Forall₂ (fun r b => r.contains b = true) ranges bs

/-! ## The bytes of a character -/

theorem contains_ofNat {low high : UInt8} {n : Nat} (hlow : low.toNat ≤ n)
    (hhigh : n ≤ high.toNat) : ByteRange.contains ⟨low, high⟩ (UInt8.ofNat n) = true := by
  have hn : n < UInt8.size := Nat.lt_of_le_of_lt hhigh high.toNat_lt
  rw [ByteRange.contains, decide_eq_true_eq, UInt8.le_iff_toNat_le, UInt8.le_iff_toNat_le,
    UInt8.toNat_ofNat_of_lt' hn]
  exact ⟨hlow, hhigh⟩

theorem tail_contains (n : Nat) : ByteRange.tail.contains (UInt8.ofNat (n % 64 + 128)) = true :=
  contains_ofNat (show 128 ≤ _ by omega) (show _ ≤ 191 by omega)

theorem followers?_ofNat {n : Nat} (hn : n < 256) : followers? (UInt8.ofNat n) =
    if n ≤ 127 then some []
    else if 194 ≤ n ∧ n ≤ 223 then some [.tail]
    else if n = 224 then some [⟨0xa0, 0xbf⟩, .tail]
    else if n = 237 then some [⟨0x80, 0x9f⟩, .tail]
    else if 225 ≤ n ∧ n ≤ 239 then some [.tail, .tail]
    else if n = 240 then some [⟨0x90, 0xbf⟩, .tail, .tail]
    else if 241 ≤ n ∧ n ≤ 243 then some [.tail, .tail, .tail]
    else if n = 244 then some [⟨0x80, 0x8f⟩, .tail, .tail]
    else none := by
  simp only [followers?, UInt8.le_iff_toNat_le, ← UInt8.toNat_inj, UInt8.toNat_ofNat_of_lt' hn]
  rfl

/-- The first byte of a character of three bytes limits the second one twice: what is below would be
a shorter character, or what is above a surrogate. -/
theorem followers?_three {n : Nat} (hlow : 2047 < n) (hhigh : n ≤ 65535)
    (hn : n < 55296 ∨ 57343 < n) :
    ∃ r, followers? (UInt8.ofNat (n / 4096 % 16 + 224)) = some [r, .tail] ∧
      r.contains (UInt8.ofNat (n / 64 % 64 + 128)) = true := by
  rw [followers?_ofNat (by omega), if_neg (by omega), if_neg (by omega)]
  by_cases hleast : n / 4096 % 16 + 224 = 224
  · exact ⟨_, if_pos hleast, contains_ofNat (show 160 ≤ _ by omega) (show _ ≤ 191 by omega)⟩
  rw [if_neg hleast]
  by_cases hsurrogate : n / 4096 % 16 + 224 = 237
  · exact ⟨_, if_pos hsurrogate, contains_ofNat (show 128 ≤ _ by omega) (show _ ≤ 159 by omega)⟩
  rw [if_neg hsurrogate, if_pos (by omega)]
  exact ⟨_, rfl, tail_contains _⟩

/-- The first byte of a character of four bytes limits the second one twice: what is below would be
a shorter character, and what is above no character. -/
theorem followers?_four {n : Nat} (hlow : 65535 < n) (hhigh : n < 1114112) :
    ∃ r, followers? (UInt8.ofNat (n / 262144 % 8 + 240)) = some [r, .tail, .tail] ∧
      r.contains (UInt8.ofNat (n / 4096 % 64 + 128)) = true := by
  rw [followers?_ofNat (by omega), if_neg (by omega), if_neg (by omega), if_neg (by omega),
    if_neg (by omega), if_neg (by omega)]
  by_cases hleast : n / 262144 % 8 + 240 = 240
  · exact ⟨_, if_pos hleast, contains_ofNat (show 144 ≤ _ by omega) (show _ ≤ 191 by omega)⟩
  rw [if_neg hleast]
  by_cases hmiddle : n / 262144 % 8 + 240 ≤ 243
  · rw [if_pos (by omega)]
    exact ⟨_, rfl, tail_contains _⟩
  rw [if_neg (by omega), if_pos (by omega)]
  exact ⟨_, rfl, contains_ofNat (show 128 ≤ _ by omega) (show _ ≤ 143 by omega)⟩

/-- The first byte of a character asks for the bytes that follow it. -/
theorem exists_followers (c : Char) : ∃ b bs ranges, String.utf8EncodeChar c = b :: bs ∧
    followers? b = some ranges ∧ Fit ranges bs := by
  have hvalid : c.val.toNat < 55296 ∨ 57343 < c.val.toNat ∧ c.val.toNat < 1114112 := c.valid
  rw [String.utf8EncodeChar.eq_1]
  generalize c.val.toNat = n at hvalid
  by_cases h₁ : n ≤ 127
  · refine ⟨_, [], [], if_pos h₁, ?_, .nil⟩
    rw [followers?_ofNat (by omega), if_pos h₁]
  rw [if_neg h₁]
  by_cases h₂ : n ≤ 2047
  · refine ⟨_, _, [.tail], if_pos h₂, ?_, .cons (tail_contains n) .nil⟩
    rw [followers?_ofNat (by omega), if_neg (by omega), if_pos (by omega)]
  rw [if_neg h₂]
  by_cases h₃ : n ≤ 65535
  · obtain ⟨r, hf, hr⟩ := followers?_three (by omega) h₃ (by omega)
    exact ⟨_, _, _, if_pos h₃, hf, .cons hr (.cons (tail_contains n) .nil)⟩
  · obtain ⟨r, hf, hr⟩ := followers?_four (n := n) (by omega) (by omega)
    exact ⟨_, _, _, if_neg h₃, hf,
      .cons hr (.cons (tail_contains _) (.cons (tail_contains n) .nil))⟩

/-! ## Scanning -/

theorem continueWith_complete {ranges : List ByteRange} {bs : List UInt8} (h : Fit ranges bs)
    (rest : List UInt8) : continueWith ranges (bs ++ rest) = .complete rest := by
  induction h with
  | nil => rfl
  | cons hr _ ih => rw [List.cons_append, continueWith, if_pos hr, ih]

theorem continueWith_cut {ranges : List ByteRange} {p q : List UInt8} (h : Fit ranges (p ++ q))
    (hq : q ≠ []) : continueWith ranges p = .cut := by
  induction p generalizing ranges with
  | nil =>
    cases h with
    | nil => exact absurd rfl hq
    | cons => rfl
  | cons b p ih =>
    cases h with
    | cons hr h => rw [continueWith, if_pos hr, ih h]

theorem scan_of_complete {b : UInt8} {ranges : List ByteRange} {bs rest : List UInt8}
    (hf : followers? b = some ranges) (h : continueWith ranges bs = .complete rest) (done : Nat) :
    scan done (b :: bs) = scan (done + 1 + ranges.length) rest := by
  rw [scan]
  simp only [hf]
  split
  · rename_i h'
    rw [Continuation.complete.inj (h.symm.trans h')]
  · rename_i h'
    cases h.symm.trans h'
  · rename_i h'
    cases h.symm.trans h'

theorem scan_of_cut {b : UInt8} {ranges : List ByteRange} {bs : List UInt8}
    (hf : followers? b = some ranges) (h : continueWith ranges bs = .cut) (done : Nat) :
    scan done (b :: bs) = (done, true) := by
  rw [scan]
  simp only [hf]
  split
  · rename_i h'
    cases h.symm.trans h'
  · rfl
  · rename_i h'
    cases h.symm.trans h'

theorem scan_character (done : Nat) (c : Char) (rest : List UInt8) :
    ∃ done', scan done (String.utf8EncodeChar c ++ rest) = scan done' rest := by
  obtain ⟨b, bs, ranges, hc, hf, hfit⟩ := exists_followers c
  refine ⟨done + 1 + ranges.length, ?_⟩
  rw [hc, List.cons_append]
  exact scan_of_complete hf (continueWith_complete hfit rest) done

/-- Scanning stops inside a character that is begun and not ended. -/
theorem scan_part (done : Nat) {c : Char} {p q : List UInt8}
    (hc : String.utf8EncodeChar c = p ++ q) (hp : p ≠ []) (hq : q ≠ []) :
    scan done p = (done, true) := by
  obtain ⟨b, bs, ranges, hc', hf, hfit⟩ := exists_followers c
  obtain ⟨a, p, rfl⟩ := List.exists_cons_of_ne_nil hp
  obtain ⟨rfl, rfl⟩ := List.cons.inj (hc'.symm.trans hc)
  exact scan_of_cut hf (continueWith_cut hfit hq) done

theorem scan_whole (done : Nat) (cs : List Char) (rest : List UInt8) :
    ∃ done', scan done (bytesOf cs ++ rest) = scan done' rest := by
  induction cs generalizing done with
  | nil => exact ⟨done, rfl⟩
  | cons c cs ih =>
    obtain ⟨done₁, h₁⟩ := scan_character done c (bytesOf cs ++ rest)
    obtain ⟨done₂, h₂⟩ := ih done₁
    refine ⟨done₂, ?_⟩
    rw [bytesOf, List.flatMap_cons, List.append_assoc, ← bytesOf, h₁, h₂]

/-! ## Characters that are cut off -/

/-- Bytes that are whole characters up to the last one, and the bytes that the last one lacks. -/
inductive Lacks : List UInt8 → List UInt8 → Prop
  | whole (cs : List Char) : Lacks (bytesOf cs) []
  | part (cs : List Char) {c : Char} {p q : List UInt8} : String.utf8EncodeChar c = p ++ q →
      p ≠ [] → q ≠ [] → Lacks (bytesOf cs ++ p) q

variable {bs q : List UInt8} {cs : List Char} {c : Char}

theorem bytesOf_append (cs ds : List Char) : bytesOf (cs ++ ds) = bytesOf cs ++ bytesOf ds :=
  List.flatMap_append

theorem bytesOf_cons (c : Char) (cs : List Char) :
    bytesOf (c :: cs) = String.utf8EncodeChar c ++ bytesOf cs :=
  List.flatMap_cons

theorem bytesOf_singleton (c : Char) : bytesOf [c] = String.utf8EncodeChar c :=
  List.flatMap_singleton _ _

/-- Bytes end inside a character exactly when the last character lacks some. -/
theorem Lacks.endsInside_iff {bytes : Array UInt8} (h : Lacks bytes.toList q) :
    endsInsideCharacter bytes = true ↔ q ≠ [] := by
  rw [endsInsideCharacter]
  generalize bytes.toList = bs at h
  cases h with
  | whole cs =>
    obtain ⟨done, hs⟩ := scan_whole 0 cs []
    rw [List.append_nil] at hs
    rw [hs, scan]
    simp
  | part cs hc hp hq =>
    obtain ⟨done, hs⟩ := scan_whole 0 cs _
    rw [hs, scan_part done hc hp hq]
    simp [hq]

theorem Lacks.snoc {b : UInt8} (h : Lacks bs (b :: q)) : Lacks (bs ++ [b]) q := by
  cases h with
  | @part cs c p _ hc hp _ =>
    rw [List.append_assoc]
    by_cases hq : q = []
    · subst hq
      have hwhole := Lacks.whole (cs ++ [c])
      rwa [bytesOf_append, bytesOf_singleton, hc] at hwhole
    · exact .part cs (by rw [hc, List.append_assoc]; rfl) (by simp) hq

theorem Lacks.length_le (h : Lacks bs q) : q.length ≤ 3 := by
  cases h with
  | whole => exact Nat.zero_le _
  | @part _ c p _ hc hp _ =>
    have hlen := congrArg List.length hc
    rw [String.length_utf8EncodeChar, List.length_append] at hlen
    have hsize := c.utf8Size_le_four
    have hpos := List.length_pos_iff.2 hp
    omega

theorem Lacks.cons (h : Lacks bs q) (c : Char) : Lacks (String.utf8EncodeChar c ++ bs) q := by
  cases h with
  | whole cs => rw [← bytesOf_cons]; exact .whole _
  | part cs hc hp hq =>
    rw [← List.append_assoc, ← bytesOf_cons]
    exact .part _ hc hp hq

/-- No bytes are no characters, and fewer there are not. -/
theorem exists_lacks_nil (cs : List Char) (least : Nat) : ∃ us vs q, cs = us ++ vs ∧
    [] ++ q = bytesOf us ∧ Lacks [] q ∧
    ∀ ts, ts <+: us → ts ≠ us → (bytesOf ts).length < least :=
  ⟨[], cs, [], rfl, rfl, .whole [], fun _ hts hne => absurd (List.prefix_nil.1 hts) hne⟩

/-- The first bytes of some characters with what the last character lacks are whole characters, and
of fewer characters there are not enough bytes. -/
theorem exists_lacks (n : Nat) (cs : List Char) : ∃ us vs q, cs = us ++ vs ∧
    (bytesOf cs).take n ++ q = bytesOf us ∧ Lacks ((bytesOf cs).take n) q ∧
    ∀ ts, ts <+: us → ts ≠ us → (bytesOf ts).length < min n (bytesOf cs).length := by
  induction cs generalizing n with
  | nil =>
    rw [show (bytesOf []).take n = [] from List.take_nil]
    exact exists_lacks_nil [] _
  | cons c cs ih =>
    have hsize := String.length_utf8EncodeChar c
    have hpos := c.utf8Size_pos
    rcases Nat.eq_zero_or_pos n with rfl | hn
    · rw [List.take_zero]
      exact exists_lacks_nil (c :: cs) _
    rw [bytesOf_cons, List.length_append]
    by_cases hcut : n < (String.utf8EncodeChar c).length
    · rw [List.take_append_of_le_length (Nat.le_of_lt hcut)]
      refine ⟨[c], cs, (String.utf8EncodeChar c).drop n, rfl, ?_, ?_, fun ts hts hne => ?_⟩
      · rw [List.take_append_drop, bytesOf_singleton]
      · exact .part [] (List.take_append_drop n (String.utf8EncodeChar c)).symm
          (by simp; omega) (by simpa using hcut)
      · rcases List.prefix_cons_iff.1 hts with rfl | ⟨ts, rfl, htail⟩
        · show 0 < _
          omega
        · exact absurd (congrArg (c :: ·) (List.prefix_nil.1 htail)) hne
    · obtain ⟨us, vs, q, rfl, hus, hlacks, hshort⟩ := ih (n - (String.utf8EncodeChar c).length)
      rw [List.take_append, List.take_of_length_le (Nat.not_lt.1 hcut)]
      refine ⟨c :: us, vs, q, rfl, ?_, hlacks.cons c, fun ts hts hne => ?_⟩
      · rw [List.append_assoc, hus, bytesOf_cons]
      · rcases List.prefix_cons_iff.1 hts with rfl | ⟨ts, rfl, htail⟩
        · show 0 < _
          omega
        · have hlt := hshort ts htail fun h => hne (congrArg (c :: ·) h)
          rw [bytesOf_cons, List.length_append]
          omega

/-! ## The shortest run -/

/-- The shortest run of whole characters that a text begins with and that has at least so many
bytes. -/
structure ShortestRun (least : Nat) (text run : String) : Prop where
  initial : ∃ rest, text = run ++ rest
  enough : least ≤ (encode run).size
  shortest : ∀ t rest, text = t ++ rest → least ≤ (encode t).size →
    (encode run).size ≤ (encode t).size

theorem ShortestRun.all (text : String) : ShortestRun (encode text).size text text :=
  ⟨⟨"", String.append_empty.symm⟩, Nat.le_refl _, fun _ _ _ h => h⟩

theorem encode_append (s t : String) : encode (s ++ t) = encode s ++ encode t := by
  rw [← Array.toList_inj, Array.toList_append, toList_encode, toList_encode, toList_encode,
    String.toList_append, List.flatMap_append]

theorem size_encode (text : String) : (encode text).size = (bytesOf text.toList).length := by
  rw [← Array.length_toList, toList_encode, bytesOf]

/-- The first bytes of a text with what the last character lacks are the shortest run of whole
characters that has as many bytes, or all there are. -/
theorem exists_shortestRun (n : Nat) (text : String) : ∃ run rest q, text = run ++ rest ∧
    (encode text).toList.take n ++ q = (encode run).toList ∧
    Lacks ((encode text).toList.take n) q ∧
    ShortestRun (min n (encode text).size) text run := by
  obtain ⟨us, vs, q, hcut, hus, hlacks, hshort⟩ := exists_lacks n text.toList
  rw [bytesOf, ← toList_encode] at hus hlacks
  have hsplit : text = String.ofList us ++ String.ofList vs := by
    rw [← String.ofList_append, ← hcut, String.ofList_toList]
  have hrun : (encode (String.ofList us)).toList = bytesOf us := by
    rw [toList_encode, String.toList_ofList, bytesOf]
  refine ⟨String.ofList us, String.ofList vs, q, hsplit, hus.trans hrun.symm, hlacks,
    ⟨_, hsplit⟩, ?_, fun t rest ht hle => ?_⟩
  · rw [← Array.length_toList, ← Array.length_toList, hrun, ← hus, List.length_append,
      List.length_take]
    omega
  · -- a run that is shorter would have fewer characters, and then fewer bytes than asked for
    rw [size_encode, String.toList_ofList]
    rw [size_encode t] at hle ⊢
    rw [size_encode text] at hle
    have hprefix : us <+: text.toList := ⟨vs, hcut.symm⟩
    have htprefix : t.toList <+: text.toList := ⟨rest.toList, by rw [ht, String.toList_append]⟩
    rcases List.prefix_or_prefix_of_prefix hprefix htprefix with ⟨ws, hws⟩ | hp
    · rw [← hws, bytesOf_append, List.length_append]
      exact Nat.le_add_right _ _
    · by_cases heq : t.toList = us
      · exact Nat.le_of_eq (congrArg _ (congrArg _ heq.symm))
      · exact absurd hle (Nat.not_le.2 (hshort _ hp heq))

end ObjectSpace.Utf8
