import ObjectSpace.Arena.Handle

/-!
# Bindings

Names bound to handles, in the order in which the names were first bound: class members, instance
attributes and the names of a context. Binding a name again replaces its handle in place.
-/

namespace ObjectSpace

/-- Names with their handles, each name once. -/
structure Bindings where
  entries : List (String × Handle) := []

namespace Bindings

/-- Replace the handle of `name` in a list of bindings, or bind it at the end. -/
def setIn (name : String) (h : Handle) : List (String × Handle) → List (String × Handle)
  | [] => [(name, h)]
  | (n, g) :: rest => if n = name then (n, h) :: rest else (n, g) :: setIn name h rest

/-- The handle bound to `name`. -/
def get? (b : Bindings) (name : String) : Option Handle := b.entries.lookup name

/-- Bind `name` to `h`. -/
def set (b : Bindings) (name : String) (h : Handle) : Bindings := ⟨setIn name h b.entries⟩

/-- Bind names one after the other. -/
def ofList (l : List (String × Handle)) : Bindings := l.foldl (fun b e => b.set e.1 e.2) {}

/-- The bound handles in order. -/
def handles (b : Bindings) : List Handle := b.entries.map (·.2)

theorem lookup_setIn (name key : String) (h : Handle) (l : List (String × Handle)) :
    (setIn name h l).lookup key = if key = name then some h else l.lookup key := by
  induction l with
  | nil =>
    by_cases hk : key = name
    · simp [setIn, hk]
    · simp [setIn, List.lookup_cons, beq_false_of_ne hk, hk]
  | cons e rest ih =>
    obtain ⟨n, g⟩ := e
    by_cases hn : n = name
    · subst hn
      by_cases hk : key = n
      · simp [setIn, hk]
      · simp [setIn, List.lookup_cons, beq_false_of_ne hk, hk]
    · by_cases hk : key = n
      · simp [setIn, hk, hn]
      · simp [setIn, List.lookup_cons, beq_false_of_ne hk, hn, ih]

/-- Binding a name changes what that name gives and nothing else. -/
theorem get?_set (b : Bindings) (name key : String) (h : Handle) :
    (b.set name h).get? key = if key = name then some h else b.get? key :=
  lookup_setIn name key h b.entries

end Bindings

end ObjectSpace
