import ObjectSpace.Files.Stream

/-!
# Writers

A writer is at the end of its file (`Writer.AtEnd`) when the file has a content and what goes to the
file next is appended to it. It stays there, whether it empties its buffer or sends data straight to
the file.

**Theorem (`AtEnd.write`).** What the file has, followed by what is in the buffer, grows by the data
of each write, whatever sizes the writes have, and the buffer never has more than 64 KiB.
-/

namespace ObjectSpace

namespace Disk

variable {d d' : Disk} {place : Place} {content : Array UInt8} {path : String} {truncate : Bool}

theorem content?_put_file (h : ¬ (place = [""] ∨ place.all (· = "..") = true))
    (content : Array UInt8) : (d.put place (.file content)).content? place = some content := by
  rw [content?, node?, if_neg h, put, List.lookup_cons_self]

/-- Where there is a file, or nothing, no path starts. -/
theorem not_start_of_node? (h : d.node? place ≠ some .directory) :
    ¬ (place = [""] ∨ place.all (· = "..") = true) := fun hstart =>
  h (if_pos hstart)

theorem node?_of_content? (h : d.content? place = some content) :
    d.node? place = some (.file content) := by
  unfold content? at h
  split at h
  · rename_i hnode
    rw [hnode, Option.some.inj h]
  · cases h

/-- Bytes at the end of a content are appended. -/
theorem overwrite_size (content data : Array UInt8) :
    overwrite content content.size data = content ++ data := by
  have hlater : content.extract (content.size + data.size) content.size = #[] :=
    Array.extract_empty_of_size_le_start (Nat.le_add_right _ _)
  rw [overwrite, Nat.sub_self, Array.extract_size, hlater]
  simp

theorem content?_write (h : d.content? place = some content) {offset : Option Nat}
    (ho : offset.getD content.size = content.size) (data : Array UInt8) :
    (d.write place offset data).content? place = some (content ++ data) := by
  have hnode := node?_of_content? h
  rw [write, h, Option.getD_some, ho, overwrite_size]
  exact content?_put_file (not_start_of_node? (d := d) (by simp [hnode])) _

/-! ### Opening -/

theorem bind_eq_ok {α β : Type} {e : Except PathFault α} {f : α → Except PathFault β} {b : β} :
    (e >>= f) = .ok b ↔ ∃ a, e = .ok a ∧ f a = .ok b := by
  cases e <;> simp [bind, Except.bind]

theorem node?_of_locate {r : Route} {node : Option Node} (h : d.locate r = .ok (place, node)) :
    d.node? place = node := by
  obtain ⟨p, -, h⟩ := bind_eq_ok.1 h
  cases hnode : d.node? p with
  | none =>
    rw [hnode] at h
    obtain ⟨rfl, rfl⟩ := Prod.mk.inj (Except.ok.inj h)
    exact hnode
  | some n =>
    rw [hnode] at h
    cases n with
    | directory =>
      obtain ⟨rfl, rfl⟩ := Prod.mk.inj (Except.ok.inj h)
      exact hnode
    | file content =>
      by_cases hslash : r.slash = true
      · simp only [hslash] at h
        cases h
      · simp only [hslash] at h
        obtain ⟨rfl, rfl⟩ := Prod.mk.inj (Except.ok.inj h)
        exact hnode

/-- A file that was opened for writing is empty, or has its content still. -/
theorem content?_openForWriting (h : d.openForWriting path truncate = .ok (place, d')) :
    d'.content? place = some (if truncate then #[] else (d.content? place).getD #[]) := by
  obtain ⟨r, -, h⟩ := bind_eq_ok.1 h
  by_cases hname : r.slash ∧ r.endsInName
  · rw [if_pos hname] at h
    obtain ⟨_, -, h⟩ := bind_eq_ok.1 h
    cases h
  rw [if_neg hname] at h
  obtain ⟨⟨p, node⟩, hlocate, h⟩ := bind_eq_ok.1 h
  have hnode := node?_of_locate hlocate
  cases node with
  | none =>
    obtain ⟨rfl, rfl⟩ := Prod.mk.inj (Except.ok.inj h)
    have hold : d.content? p = none := by
      rw [content?, hnode]
    rw [hold, Option.getD_none, ite_self]
    exact content?_put_file (not_start_of_node? (d := d) (by simp [hnode])) _
  | some n =>
    cases n with
    | directory => cases h
    | file content =>
      obtain ⟨rfl, rfl⟩ := Prod.mk.inj (Except.ok.inj h)
      have hold : d.content? p = some content := by
        rw [content?, hnode]
      cases truncate with
      | true => exact content?_put_file (not_start_of_node? (d := d) (by simp [hnode])) _
      | false =>
        rw [hold]
        exact hold

end Disk

/-! ## Writing at the end -/

namespace Writer

variable {w : Writer} {d : Disk} {content : Array UInt8}

/-- What goes to the file next is appended to its content. -/
structure AtEnd (w : Writer) (d : Disk) (content : Array UInt8) : Prop where
  there : d.content? w.place = some content
  offset : w.offset.getD content.size = content.size

theorem AtEnd.writeThrough (h : w.AtEnd d content) (data : Array UInt8) :
    (w.writeThrough d data).1.AtEnd (w.writeThrough d data).2 (content ++ data) := by
  refine ⟨Disk.content?_write h.there h.offset data, ?_⟩
  have hoffset := h.offset
  show (w.offset.map (· + data.size)).getD (content ++ data).size = (content ++ data).size
  cases ho : w.offset with
  | none => rfl
  | some n =>
    rw [ho, Option.getD_some] at hoffset
    rw [Option.map_some, Option.getD_some, hoffset, Array.size_append]

theorem AtEnd.flush (h : w.AtEnd d content) :
    ∃ w' d', w.flush d = (w', d') ∧ w'.AtEnd d' (content ++ w.buffer) ∧ w'.buffer = #[] ∧
      w'.place = w.place := by
  rw [Writer.flush]
  split
  · rename_i hempty
    have hempty := Array.isEmpty_iff.1 hempty
    refine ⟨w, d, rfl, ?_, hempty, rfl⟩
    rw [hempty, Array.append_empty]
    exact h
  · obtain ⟨hthere, hoffset⟩ := h.writeThrough w.buffer
    exact ⟨_, _, rfl, ⟨hthere, hoffset⟩, rfl, rfl⟩

theorem AtEnd.makeRoom (h : w.AtEnd d content) (hsize : w.buffer.size ≤ bufferSize) (n : Nat) :
    ∃ w' d' content',
      (if bufferSize - w.buffer.size < n then w.flush d else (w, d)) = (w', d') ∧
      w'.AtEnd d' content' ∧ content' ++ w'.buffer = content ++ w.buffer ∧
      (w'.buffer = #[] ∨ w'.buffer.size + n ≤ bufferSize) ∧ w'.place = w.place := by
  by_cases hfits : bufferSize - w.buffer.size < n
  · obtain ⟨w', d', heq, h', hempty, hplace⟩ := h.flush
    refine ⟨w', d', _, ?_, h', ?_, .inl hempty, hplace⟩
    · rw [if_pos hfits, heq]
    · rw [hempty, Array.append_empty]
  · exact ⟨w, d, content, if_neg hfits, h, rfl, .inr (by omega), rfl⟩

/-- A write appends its data to what the file and the buffer have. -/
theorem AtEnd.write (h : w.AtEnd d content) (hsize : w.buffer.size ≤ bufferSize)
    (data : Array UInt8) :
    ∃ w' d' content', w.write d data = (w', d') ∧ w'.AtEnd d' content' ∧
      content' ++ w'.buffer = content ++ w.buffer ++ data ∧ w'.buffer.size ≤ bufferSize ∧
      w'.place = w.place := by
  obtain ⟨w₁, d₁, c, heq, h₁, hall, hroom, hplace⟩ := h.makeRoom hsize data.size
  rw [Writer.write, heq, ← hall, ← hplace]
  dsimp only
  by_cases hlarge : bufferSize ≤ data.size
  · have hempty : w₁.buffer = #[] := by
      refine hroom.elim id fun hroom => Array.eq_empty_of_size_eq_zero ?_
      omega
    refine ⟨_, _, c ++ data, if_pos hlarge, h₁.writeThrough data, ?_, ?_, rfl⟩
    · show c ++ data ++ w₁.buffer = _
      rw [hempty, Array.append_empty, Array.append_empty]
    · show w₁.buffer.size ≤ bufferSize
      rw [hempty]
      exact Nat.zero_le _
  · refine ⟨_, _, c, if_neg hlarge, ⟨h₁.there, h₁.offset⟩, (Array.append_assoc ..).symm, ?_, rfl⟩
    show (w₁.buffer ++ data).size ≤ bufferSize
    rw [Array.size_append]
    rcases hroom with hempty | hroom
    · rw [hempty, Array.size_empty]
      omega
    · exact hroom

end Writer

end ObjectSpace
