import ObjectSpace.Proofs.Execution.Calling
import ObjectSpace.Proofs.Heap.Depth

/-!
# What a program prints

The text forms of the values that programs print, and what printing them does to the space: the
texts are added to the output (`Module.printAll`).
-/

namespace ObjectSpace

namespace Heap

variable {heap : Heap} {v : Handle} {text : String} {n : Int64} {items : Array Handle}
  {texts : List String}

theorem capacity_pos {o : Object} (h : heap.Has v o) : ∃ n, heap.capacity = n + 1 := by
  obtain ⟨hfin, hcard⟩ := Arena.ncard_current_le heap
  have hpos : 0 < {h | heap.isCurrent h = true}.ncard :=
    (Set.ncard_pos hfin).2 ⟨v, h.current⟩
  exact Nat.exists_eq_succ_of_ne_zero (by omega)

theorem str_text (h : Space.IsText heap v text) : str v heap = .ok text := by
  obtain ⟨hash?, h⟩ := h
  exact bind_of_ok (get_eq_ok.2 h.2)

theorem repr_text (h : Space.IsText heap v text) :
    repr v heap = .ok (Literal.ofText text) := by
  obtain ⟨hash?, h⟩ := h
  rw [repr, bind_of_ok (depth_eq_ok.2 rfl), reprWithin, bind_of_ok (get_eq_ok.2 h.2)]
  rfl

theorem repr_int (h : heap.Has v (.int n)) : repr v heap = .ok (Numeral.decimal n) := by
  rw [repr, bind_of_ok (depth_eq_ok.2 rfl), reprWithin, bind_of_ok (get_eq_ok.2 h.2)]
  rfl

theorem str_int (h : heap.Has v (.int n)) : str v heap = .ok (Numeral.decimal n) := by
  rw [str, bind_of_ok (get_eq_ok.2 h.2)]
  exact repr_int h

theorem repr_texts {m : Nat} {active l : List Handle} (h : Space.AreTexts heap l texts) :
    l.mapM (reprWithin (m + 1) active) heap = .ok (texts.map Literal.ofText) := by
  induction h with
  | nil => rfl
  | @cons v text l texts hv _ ih =>
    obtain ⟨hash?, hv⟩ := hv
    have hone : reprWithin (m + 1) active v heap = .ok (Literal.ofText text) := by
      rw [reprWithin, bind_of_ok (get_eq_ok.2 hv.2)]
      rfl
    rw [List.mapM_cons, bind_of_ok hone, bind_of_ok ih]
    rfl

/-- A list of texts is written with its texts as literals. -/
theorem str_texts (hv : heap.Has v (.list items)) (h : Space.AreTexts heap items.toList texts) :
    str v heap = .ok (bracketed "[" "]" (texts.map Literal.ofText)) := by
  obtain ⟨n, hn⟩ := capacity_pos hv
  have hrepr : repr v heap = .ok (bracketed "[" "]" (texts.map Literal.ofText)) := by
    rw [repr, bind_of_ok (depth_eq_ok.2 rfl), hn, reprWithin, bind_of_ok (get_eq_ok.2 hv.2)]
    show (items.toList.mapM (reprWithin (n + 1) [v]) >>= _) heap = _
    rw [bind_of_ok (repr_texts h)]
    rfl
  rw [str, bind_of_ok (get_eq_ok.2 hv.2)]
  exact hrepr

/-- The values that programs print, with their text forms. -/
inductive Shows (heap : Heap) : Handle → String → Prop
  | text {v : Handle} {text : String} : Space.IsText heap v text → Shows heap v text
  | int {v : Handle} {n : Int64} : heap.Has v (.int n) → Shows heap v (Numeral.decimal n)
  | texts {v : Handle} {items : Array Handle} {texts : List String} :
      heap.Has v (.list items) → Space.AreTexts heap items.toList texts →
      Shows heap v (bracketed "[" "]" (texts.map Literal.ofText))

theorem Shows.str (h : Shows heap v text) : Heap.str v heap = .ok text := by
  cases h with
  | text hv => exact str_text hv
  | int hv => exact str_int hv
  | texts hv hitems => exact str_texts hv hitems

theorem Shows.live (h : Shows heap v text) : heap.isLive v = true := by
  cases h with
  | text hv => exact hv.live
  | int hv | texts hv => exact hv.1

/-- A text and a number filled into a format. -/
theorem percentFormat_entry {args key : Handle} (hargs : heap.Has args (.tuple #[key, v]))
    (hkey : Space.IsText heap key text) (hv : heap.Has v (.int n)) :
    percentFormat "%s=%d" args heap = .ok (text ++ "=" ++ Numeral.decimal n) := by
  have hdecimal : (do return Numeral.decimal (← expectInt v "%d format") : Query String) heap =
      .ok (Numeral.decimal n) := bind_of_ok (expectInt_int hv "%d format")
  rw [percentFormat, bind_of_ok (get_eq_ok.2 hargs.2)]
  show (str key >>= fun a => fill ("" ++ a) ['=', '%', 'd'] [v]) heap = _
  rw [bind_of_ok (str_text hkey), fill]
  · show ((do return Numeral.decimal (← expectInt v "%d format") : Query String) >>= fun a =>
      fill (("" ++ text).push '=' ++ a) [] []) heap = _
    rw [bind_of_ok hdecimal, fill, String.empty_append]
    rfl
  all_goals simp

end Heap

namespace Space

variable {s s' : Space} {ctx v : Handle} {c : Context} {args : List Handle}
  {texts : List String} {text : String}

/-- A space with a text added to the output. -/
def say (s : Space) (text : String) : Space := { s with output := s.output ++ text }

theorem Steady.say (i : s.Steady) (text : String) : (s.say text).Steady :=
  ⟨i.ordered.of_heap rfl fun _ h => .inl h, i.nothing, i.types, i.methods, i.integers, i.texts⟩

theorem Module.say (m : Module s ctx c) (text : String) : Module (s.say text) ctx c :=
  ⟨m.has, m.globals, m.builtin, m.type⟩

theorem Frame.shows (f : Frame [] s s') (h : s.heap.Shows v text) : s'.heap.Shows v text := by
  cases h with
  | text hv => exact .text (f.isText hv)
  | int hv => exact .int (f.keep hv)
  | texts hv hitems => exact .texts (f.keep hv) (f.areTexts hitems)

/-- The text form of a value. -/
theorem Module.textOf (m : Module s ctx c) (i : s.Steady) (h : s.heap.Shows v text) :
    ∃ r s', Program.callName ctx "str" [v] s = .ok r s' ∧ Frame [] s s' ∧
      IsText s'.heap r text := by
  obtain ⟨s₁, f₁, h₁⟩ := m.callType (k := .str) i (by decide) (List.forall_mem_singleton.2 h.live)
  obtain ⟨r, s₂, h₂, f₂, hr⟩ := newStr_frame f₁.steady text
  refine ⟨r, s₂, h₁.trans ?_, f₁.again f₂, none, hr⟩
  show ((liftM (Heap.str v) : Action String) >>= newStr) s₁ = _
  rw [ask_bind_of_ok (f₁.shows h).str, h₂]

/-- A text and a number as a line, by the format for them. -/
theorem format_frame (i : s.Steady) {format pair key : Handle} {n : Int64}
    (hformat : IsText s.heap format "%s=%d") (hpair : s.heap.Has pair (.tuple #[key, v]))
    (hkey : IsText s.heap key text) (hv : s.heap.Has v (.int n)) :
    ∃ r s', binary .mod format pair s = .ok r s' ∧ Frame [] s s' ∧
      IsText s'.heap r (text ++ "=" ++ Numeral.decimal n) := by
  obtain ⟨r, s', hs', f, hr⟩ := newStr_frame i (text ++ "=" ++ Numeral.decimal n)
  obtain ⟨hash?, hformat⟩ := hformat
  refine ⟨r, s', ?_, f, none, hr⟩
  rw [binary, get_bind_of_has hformat, get_bind_of_has hpair]
  show ((liftM (Heap.percentFormat "%s=%d" pair) : Action String) >>= newStr) s = _
  rw [ask_bind_of_ok (Heap.percentFormat_entry hpair hkey hv), hs']

theorem strings_eq (h : List.Forall₂ s.heap.Shows args texts) :
    args.mapM (fun v => (liftM (Heap.str v) : Action String)) s = .ok texts s := by
  induction h with
  | nil => rfl
  | cons hv _ ih =>
    rw [List.mapM_cons, ask_bind_of_ok hv.str, bind_of_ok ih]
    rfl

theorem print_eq (h : List.Forall₂ s.heap.Shows args texts) :
    print args none s = .ok s.noneValue (s.say (" ".intercalate texts ++ "\n")) := by
  have hoption : ∀ name default, printOption none name default s = .ok default s := by
    intro name default
    rfl
  rw [print, bind_of_ok (hoption _ _), bind_of_ok (hoption _ _), bind_of_ok (strings_eq h)]
  rfl

/-- Printing adds the text forms of the values to the output, separated by blanks. -/
theorem Module.printAll (m : Module s ctx c) (i : s.Steady)
    (h : List.Forall₂ s.heap.Shows args texts) :
    ∃ s', Frame [] s s' ∧ Program.printAll ctx args s =
      .ok () (s'.say (" ".intercalate texts ++ "\n")) := by
  have hlive := live_of_forall₂ (fun _ _ => Heap.Shows.live) h
  obtain ⟨s', f, hs'⟩ := m.callBuiltin (f := .print) i (by decide) hlive
  have hprint := hs'.trans (print_eq (h.imp fun _ _ => f.shows))
  exact ⟨s', f, bind_of_ok hprint⟩

end Space

end ObjectSpace
