import ObjectSpace.Methods.Arguments
import ObjectSpace.Proofs.Diagnostic.Sources

/-!
# Diagnostics of checks

Checks of numbers, bounds and arguments name an operation or a type, so what they report is a line
whatever is checked (`Lined`). Three checks quote the text that they read: numerals
(`accounts_parse`), names of encodings (`accounts_ofName`) and paths (`accounts_pathFault`).
-/

namespace ObjectSpace

variable {α β : Type} {S : Sources}

/-! ## Checks that quote nothing -/

/-- The diagnostics of a check are made of lines. -/
def Lined (e : Except Diagnostic α) : Prop := ∀ d, e = .error d → ∀ f ∈ d.fields, OneLine f

namespace Lined

variable {e : Except Diagnostic α} {d : Diagnostic} {f : α → Except Diagnostic β}

protected theorem ok (a : α) : Lined (.ok a : Except Diagnostic α) := nofun

protected theorem error (h : ∀ f ∈ d.fields, OneLine f) :
    Lined (.error d : Except Diagnostic α) :=
  fun _ he => Except.error.inj he ▸ h

/-- A diagnostic with a single field. -/
protected theorem field {name : String} (hd : d.fields = [name]) (h : OneLine name) :
    Lined (.error d : Except Diagnostic α) := .error (hd ▸ List.forall_mem_singleton.2 h)

protected theorem ite {c : Prop} [Decidable c] {e e' : Except Diagnostic α} (he : Lined e)
    (he' : Lined e') : Lined (if c then e else e') := by
  split
  · exact he
  · exact he'

protected theorem bind (he : Lined e) (hf : ∀ a, Lined (f a)) : Lined (e >>= f) := by
  cases e with
  | ok a => exact hf a
  | error d => exact .error (he d rfl)

protected theorem map (he : Lined e) (g : α → β) : Lined (e.map g) := by
  cases e with
  | ok a => exact .ok _
  | error d => exact .error (he d rfl)

theorem accounts (he : Lined e) (h : e = .error d) : S.Accounts d := .of_oneLine (he d h)

end Lined

namespace Integer

variable {operation : String}

theorem lined_orOverflow (h : OneLine operation) (w? : Option Int64) :
    Lined (orOverflow operation w?) := by
  cases w? with
  | some w => exact .ok w
  | none => exact .field rfl h

theorem lined_checked (h : OneLine operation) (n : Int) : Lined (checked operation n) :=
  lined_orOverflow h (ofInt? n)

/-- Operators on integers name themselves in what they report. -/
theorem lined_binary? {op : BinaryOp} {a b : Int64} {e : Except Diagnostic Int64}
    (h : binary? op a b = some e) : Lined e := by
  have overflow (w? : Option Int64) {op : List Char}
      (h : op.all (fun c => c != '\n' && c != '\r') = true) :
      Lined (orOverflow (String.ofList op) w?) := lined_orOverflow (.ofList h) w?
  cases op <;> simp only [binary?, Option.some.injEq, reduceCtorEq] at h <;> subst h
  case add | sub | mul => exact overflow _ rfl
  case floorDiv => exact .ite (.error nofun) (.bind (overflow _ rfl) fun _ => .ok _)
  case mod => exact .ite (.error nofun) (.ok _)
  case pow =>
    exact .ite (.error nofun) (.ite (overflow _ rfl) (.ite (.ok _) (.ite (.ok _)
      (.field rfl (.ofList rfl)))))
  case shiftLeft =>
    exact .ite (.error nofun) (.ite (.ok _) (.ite (.field rfl (.ofList rfl))
      (.ite (.field rfl (.ofList rfl)) (.ok _))))
  case shiftRight => exact .ite (.error nofun) (.ok _)
  case and | or | xor => exact .ok _

end Integer

/-! ## Sequences -/

theorem lined_repeatedLength (length size : Nat) (n : Int64) :
    Lined (repeatedLength length size n) :=
  .ite (.field rfl (.ofList rfl)) (.ite (.field rfl (.ofList rfl)) (.ok _))

theorem lined_sequenceBinary? {op : BinaryOp} {x y : Object} {e : Except Diagnostic Object}
    (h : Object.sequenceBinary? op x y = some e) : Lined e := by
  have repeated (n : Int64) {o : Object} (h : o.repeated? n = some e) : Lined e := by
    cases o <;> simp only [Object.repeated?, Option.some.injEq, reduceCtorEq] at h <;> subst h
    all_goals exact .map (.bind (lined_repeatedLength _ _ n) fun _ => .ok _) _
  unfold Object.sequenceBinary? at h
  split at h
  · split at h
    case h_5 => cases h
    all_goals
      obtain rfl := Option.some.inj h
      exact .ok _
  · split at h
    · exact repeated _ h
    · exact repeated _ h
    · cases h
  · cases h

theorem lined_normalizeIndex (index : Int64) (length : Nat) {type : String} (h : OneLine type) :
    Lined (normalizeIndex index length type) := .ite (.ok _) (.field rfl h)

namespace Slice

theorem lined_ofBounds (length : Nat) (start stop step : Option Int64) :
    Lined (ofBounds length start stop step) := .ite (.field rfl (.ofList rfl)) (.ok _)

theorem lined_word (n : Int) : Lined (word n) := Integer.lined_checked (.ofList rfl) n

theorem lined_ofProgression (s : Slice) (p : Progression) : Lined (s.ofProgression p) := by
  refine .bind (lined_word _) fun step => .ite (.ok _) ?_
  extract_lets finish
  have hfinish (stop : Int64) : Lined (finish stop) := .bind (lined_word _) fun _ => .ok _
  split
  · exact hfinish _
  · exact .bind (lined_word _) fun _ => .bind (lined_word _) hfinish

end Slice

/-! ## Arguments -/

section Arguments

variable {name : String} (h : OneLine name) (args : List Handle)

include h

theorem lined_checkCount (least most : Nat) : Lined (checkCount name least most args) :=
  .ite (.field rfl h) (.ok _)

theorem lined_oneArgument : Lined (oneArgument name args) := by
  unfold oneArgument
  split
  · exact .ok _
  · exact .field rfl h

theorem lined_twoArguments : Lined (twoArguments name args) := by
  unfold twoArguments
  split
  · exact .ok _
  · exact .field rfl h

theorem lined_oneOrTwoArguments : Lined (oneOrTwoArguments name args) := by
  unfold oneOrTwoArguments
  split
  · exact .ok _
  · exact .ok _
  · exact .field rfl h

end Arguments

theorem Method.lined_optionalArgument (m : Method) (args : List Handle) :
    Lined (m.optionalArgument args) :=
  .bind (lined_checkCount (oneLine_method m) args 0 1) fun _ => .ok _

/-! ## Encodings and numerals -/

namespace Encoding

theorem lined_encode (e : Encoding) (s : String) : Lined (e.encode s) :=
  .ite (.field rfl (.ofList rfl)) (.ok _)

theorem lined_decode (e : Encoding) (bs : Array UInt8) : Lined (e.decode bs) := by
  unfold decode
  split
  · exact .ok _
  · exact .field rfl (.ofList rfl)

/-- An encoding that is not known is quoted. -/
theorem accounts_ofName {name : String} (hn : S.text name) {d : Diagnostic}
    (h : ofName name = .error d) : S.Accounts d := by
  unfold ofName at h
  split at h
  case h_4 =>
    obtain rfl := Except.error.inj h
    have hq : Diagnostic.Quotes _ name (Text.lowerAscii name) := .encoding name
    exact Diagnostic.composed_message (List.forall_mem_singleton.2
      ((Composed.line (.ofList rfl)).append (.part (.inr ⟨name, hn, hq⟩))))
  all_goals cases h

end Encoding

/-- A literal that is not valid is quoted. -/
theorem Numeral.accounts_parse {base : Nat} {text : String} (ht : S.text text) {d : Diagnostic}
    (h : parse base text = .error d) : S.Accounts d := by
  have invalid {d : Diagnostic} (h : (.error (.invalidLiteral base text) : Except _ Int64) =
      .error d) : S.Accounts d :=
    Except.error.inj h ▸ Diagnostic.composed_message (List.forall_mem_singleton.2
      (.part (.inr ⟨text, ht, .literal base text⟩)))
  unfold parse at h
  dsimp only at h
  split at h
  · exact invalid h
  · split at h
    · exact invalid h
    · exact Lined.accounts (.field rfl (.ofList rfl)) h
    · exact (Integer.lined_checked (.ofList rfl) _).accounts h

/-- A path that cannot be opened is quoted. -/
theorem PathFault.accounts_diagnostic {path : String} (hp : S.text path) (fault : PathFault) :
    S.Accounts (fault.diagnostic path) := by
  have hshown {d : Diagnostic} (hq : d.Quotes path path) : Composed (S.Part d) path :=
    .part (.inr ⟨path, hp, hq⟩)
  have hfault {reason : String} (hr : OneLine reason) :
      S.Accounts (.inputOutput (path ++ ": " ++ reason)) :=
    Diagnostic.composed_message (List.forall_mem_singleton.2
      (((hshown (.fault path reason)).append (.line (.ofList rfl))).append (.line hr)))
  cases fault with
  | notFound =>
    exact Diagnostic.composed_message (List.forall_mem_singleton.2 (hshown (.missing path)))
  | _ => exact hfault (.ofList rfl)

end ObjectSpace
