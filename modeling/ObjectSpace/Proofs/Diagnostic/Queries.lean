import ObjectSpace.Functions
import ObjectSpace.Items
import ObjectSpace.Proofs.Diagnostic.Raising

/-!
# Diagnostics of queries

Text forms are composed of lines and names (`writes_repr`), because the literals in them are lines
and everything else that a program can choose freely is a name. So a diagnostic that mentions a
value shows nothing else of it. Filling a format is the one query that quotes a text.
-/

namespace ObjectSpace.Heap

variable {S : Sources} {heap : Heap} {v a b d u key : Handle} {name expected : String} {α : Type}

/-! ## Text forms -/

theorem writes_typeName (v : Handle) : heap.Writes (typeName v) := by
  refine .get fun o _ => ?_
  split
  · refine .get fun c hc => ?_
    split
    · exact .pure (.part ⟨_, _, hc, rfl⟩)
    · exact .line (.ofList rfl)
  · exact .line (.ofList rfl)
  · refine .line ?_
    cases o.kind? with
    | none => exact .ofList rfl
    | some k => exact oneLine_kind k

theorem composed_bracketed {parts : String → Prop} {opening closing : String} {ts : List String}
    (ho : OneLine opening) (hc : OneLine closing) (ht : ∀ t ∈ ts, Composed parts t) :
    Composed parts (bracketed opening closing ts) :=
  (Composed.intercalate (.ofList rfl) ht).between ho hc

theorem oneLine_activeMark (o : Object) : OneLine (activeMark o) := by
  unfold activeMark
  split <;> exact .ofList rfl

theorem composed_functionLabel {f : Handle} {o : Object} (ho : heap.get? f = some o) :
    Composed heap.HasName (functionLabel o) := by
  unfold functionLabel
  split
  · exact .line (oneLine_methodName _)
  · exact .part ⟨f, _, ho, rfl⟩
  · exact .line (.ofList rfl)

/-- By induction on the depth: the parts of a container are written one level down. -/
theorem writes_reprWithin (n : Nat) (active : List Handle) (v : Handle) :
    heap.Writes (reprWithin n active v) := by
  induction n generalizing active v with
  | zero => exact .violate _
  | succ n ih =>
    have hpart : ∀ w, heap.Writes (reprWithin n (v :: active) w) := ih (v :: active)
    refine .get fun o ho => ?_
    have label {t : String} (ht : o.label? = some t) : Composed heap.HasName t :=
      .part ⟨v, o, ho, ht⟩
    refine .ite (.line (oneLine_activeMark o)) ?_
    dsimp only
    split
    case h_1 => exact .line (.ofList rfl)
    case h_2 b => cases b <;> exact .line (.ofList rfl)
    case h_3 => exact .line (oneLine_decimal _)
    case h_4 => exact .line (Literal.oneLine_ofText _)
    case h_5 => exact .line (Literal.oneLine_ofBytes _)
    case h_6 items =>
      exact .mapM hpart fun ts hts => .pure (composed_bracketed (.ofList rfl) (.ofList rfl) hts)
    case h_7 items =>
      refine .mapM hpart fun ts hts => .pure (composed_bracketed (.ofList rfl) ?_ hts)
      split <;> exact .ofList rfl
    case h_8 t =>
      refine .mapM (fun e => .bind (hpart e.1) fun k hk => .bind (hpart e.2) fun w hw => ?_)
        fun ts hts => .pure (composed_bracketed (.ofList rfl) (.ofList rfl) hts)
      exact .pure ((hk.append (.line (.ofList rfl))).append hw)
    case h_9 t =>
      refine .ite (.line (.ofList rfl)) ?_
      exact .mapM hpart fun ts hts => .pure (composed_bracketed (.ofList rfl) (.ofList rfl) hts)
    case h_10 d shown =>
      refine .after (fun _ => .dict d) fun t _ => .mapM (fun e => ?_) fun ts hts => .pure ?_
      · cases shown with
        | keys => exact hpart e.1
        | values => exact hpart e.2
        | items =>
          exact .mapM hpart fun ts hts =>
            .pure (composed_bracketed (.ofList rfl) (.ofList rfl) hts)
      · exact (Composed.line (oneLine_kind _)).append
          (composed_bracketed (.ofList rfl) (.ofList rfl) hts)
    case h_11 p =>
      refine .pure ((Composed.line (.ofList rfl)).append
        (composed_bracketed (.ofList rfl) (.ofList rfl) fun t ht => ?_))
      obtain ⟨n, -, rfl⟩ := List.mem_map.1 ht
      exact .line (oneLine_decimal n)
    case h_12 k =>
      exact .pure ((Composed.line (oneLine_kind k)).between (.ofList rfl) (.ofList rfl))
    case h_13 | h_16 | h_17 | h_20 => exact .pure ((label rfl).between (.ofList rfl) (.ofList rfl))
    case h_14 | h_15 =>
      exact .bind (writes_typeName v) fun t ht => .pure (ht.between (.ofList rfl) (.ofList rfl))
    case h_18 m =>
      have hm : Composed heap.HasName m.name := .line (oneLine_methodName m)
      exact .pure (((hm.between (.ofList rfl) (.ofList rfl)).append
        (.line (oneLine_kind _))).append (.line (.ofList rfl)))
    case h_19 receiver f =>
      refine .get fun g hg => .bind (writes_typeName receiver) fun t ht => .pure ?_
      exact ((ht.between (.ofList rfl) (.ofList rfl)).append (composed_functionLabel hg)).append
        (.line (.ofList rfl))
    case h_21 => exact .line (.ofList rfl)

theorem writes_repr (v : Handle) : heap.Writes (repr v) :=
  .after (fun _ => .depth) fun n _ => writes_reprWithin n [] v

theorem raises_str (v : Handle) : heap.Raises S (str v) := .get_bind fun o _ => by
  split
  · exact .pure _
  · exact (writes_repr v).raises S

/-- The text form for reading is the content of a text, or composed like any other. -/
theorem hasText_or_composed {t : String} (h : str v heap = .ok t) :
    heap.HasText t ∨ Composed heap.HasName t := by
  obtain ⟨o, ho, h⟩ := bind_eq_ok.1 h
  split at h
  · obtain rfl := pure_eq_ok.1 h
    exact .inl ⟨v, _, get_eq_ok.1 ho, rfl⟩
  · exact .inr ((writes_repr v).composed t h)

/-! ## Diagnostics that mention values -/

theorem raises_badArgument (hn : Composed (S.plus heap).name name) (he : OneLine expected)
    (v : Handle) : heap.Raises S (badArgument name expected v : Query α) :=
  .bind ((writes_typeName v).raises S) fun _ ht =>
    .fatal (.triple rfl hn (.line he) ((writes_typeName v).shown ht))

theorem raises_unimplemented (hn : OneLine name) (v : Handle) :
    heap.Raises S (unimplemented name v : Query α) :=
  .bind ((writes_typeName v).raises S) fun _ ht =>
    .fatal (.pair rfl (.line hn) ((writes_typeName v).shown ht))

theorem raises_unsupported (hn : OneLine name) (a b : Handle) :
    heap.Raises S (unsupported name a b : Query α) :=
  .bind ((writes_typeName a).raises S) fun _ hl => .bind ((writes_typeName b).raises S) fun _ hr =>
    .fatal (.triple rfl (.line hn) ((writes_typeName a).shown hl) ((writes_typeName b).shown hr))

theorem raises_keyNotFound (key : Handle) : heap.Raises S (keyNotFound repr key : Query α) :=
  (writes_repr key).raises_fatal fun _ => rfl

theorem raises_asInt? (v : Handle) : heap.Raises S (asInt? v) := .get_bind fun _ _ => .pure _

theorem raises_asStr? (v : Handle) : heap.Raises S (asStr? v) := .get_bind fun _ _ => .pure _

theorem raises_expectInt (hn : Composed (S.plus heap).name name) (v : Handle) :
    heap.Raises S (expectInt v name) := .bind (raises_asInt? v) fun n? _ => by
  split
  · exact .pure _
  · exact raises_badArgument hn (.ofList rfl) v

theorem raises_expectStr (hn : Composed (S.plus heap).name name) (v : Handle) :
    heap.Raises S (expectStr v name) := .bind (raises_asStr? v) fun t? _ => by
  split
  · exact .pure _
  · exact raises_badArgument hn (.ofList rfl) v

/-- An argument that is a text is the content of a text object. -/
theorem hasText_of_asStr? {t : String} (h : asStr? v heap = .ok (some t)) : heap.HasText t := by
  obtain ⟨o, ho, ht⟩ := bind_eq_ok.1 h
  exact ⟨v, o, get_eq_ok.1 ho, pure_eq_ok.1 ht⟩

theorem hasText_of_expectStr {t : String} (h : expectStr v name heap = .ok t) :
    heap.HasText t := by
  obtain ⟨t?, ht?, h⟩ := bind_eq_ok.1 h
  cases t? with
  | some t' => exact hasText_of_asStr? (pure_eq_ok.1 h ▸ ht?)
  | none =>
    obtain ⟨_, -, h⟩ := bind_eq_ok.1 h
    cases h

theorem raises_arguments (v : Handle) : heap.Raises S (arguments v) := .get_bind fun o _ => by
  split
  · exact .pure _
  · exact .violate _

/-! ## Hashing and equality -/

theorem raises_hashWithin (n : Nat) (v : Handle) : heap.Raises S (hashWithin n v) := by
  induction n generalizing v with
  | zero => exact .violate _
  | succ n ih =>
    refine .get_bind fun o _ => ?_
    split
    case h_7 items =>
      exact .bind (.foldlM (fun h item => .bind (ih item) fun _ _ => .pure _) _ _) fun _ _ =>
        .pure _
    case h_11 => exact (writes_typeName v).raises_fatal fun _ => rfl
    all_goals exact .pure _

theorem raises_hash (v : Handle) : heap.Raises S (hash v) :=
  .bind .depth fun n _ => raises_hashWithin n v

theorem raises_sameContent {related : Handle → Handle → Query Bool}
    (h : ∀ x y, heap.Raises S (related x y)) (x y : Object) :
    heap.Raises S (sameContent related x y) := by
  unfold sameContent
  split
  case h_3 | h_4 => exact .ite (fun _ => .allPairs h _ _) fun _ => .pure _
  case h_5 d e =>
    refine .ite (fun _ => .allM (fun (k, v) => .bind .attempt fun h? _ => ?_) _) fun _ => .pure _
    cases h? with
    | none => exact .pure _
    | some hk =>
      refine .bind (.findM? (fun e : Handle × Handle => h e.1 k) _) fun found _ => ?_
      split
      · exact .pure _
      · exact h _ _
  case h_6 t u =>
    refine .ite (fun _ => .allM (fun k => .bind .attempt fun h? _ => ?_) _) fun _ => .pure _
    cases h? with
    | none => exact .pure _
    | some hk => exact .anyM (fun k' => h k' k) _
  case h_9 => split <;> exact .pure _
  all_goals exact .pure _

theorem raises_equalWithin (n : Nat) (a b : Handle) : heap.Raises S (equalWithin n a b) := by
  induction n generalizing a b with
  | zero => exact .violate _
  | succ n ih =>
    refine .ite (fun _ => .pure _) fun _ => .get_bind fun x _ => .get_bind fun y _ => ?_
    exact raises_sameContent ih x y

theorem raises_equal (a b : Handle) : heap.Raises S (equal a b) :=
  .bind .depth fun n _ => raises_equalWithin n a b

/-! ## Look-ups -/

theorem raises_dictPlace (d key : Handle) : heap.Raises S (dictPlace d key) :=
  .bind (raises_hash key) fun _ _ => .bind (.dict d) fun _ _ =>
    .bind (.findPlace (fun e : Handle × Handle => raises_equal e.1 key) _) fun _ _ => .pure _

theorem raises_dictLookup (d key : Handle) : heap.Raises S (dictLookup d key) :=
  .bind (raises_dictPlace d key) fun (h, place) _ => by
    cases place with
    | none => exact .pure _
    | some i => exact .bind (.dict d) fun _ _ => .pure _

theorem raises_dictGet (d key : Handle) : heap.Raises S (dictGet d key) :=
  .bind (raises_dictLookup d key) fun v? _ => by
    split
    · exact .pure _
    · exact raises_keyNotFound key

theorem raises_setPlace (u key : Handle) : heap.Raises S (setPlace u key) :=
  .bind (raises_hash key) fun _ _ => .bind (.set u) fun _ _ =>
    .bind (.findPlace (fun k => raises_equal k key) _) fun _ _ => .pure _

theorem raises_setContains (u key : Handle) : heap.Raises S (setContains u key) :=
  .bind (raises_setPlace u key) fun _ _ => .pure _

theorem raises_indexOf? (items : List Handle) (v : Handle) : heap.Raises S (indexOf? items v) :=
  .findPlace (fun x => raises_equal x v) items

theorem raises_countOf (items : List Handle) (v : Handle) : heap.Raises S (countOf items v) :=
  .foldlM (fun _ x => .bind (raises_equal x v) fun _ _ => .pure _) items 0

/-! ## Ordering -/

theorem raises_firstDifference (xs ys : List Handle) :
    heap.Raises S (firstDifference xs ys) := by
  induction xs generalizing ys with
  | nil => exact .pure _
  | cons x xs ih =>
    cases ys with
    | nil => exact .pure _
    | cons y ys =>
      exact .bind (raises_equal x y) fun _ _ => .ite (fun _ => ih ys) fun _ => .pure _

theorem raises_isSubset (a b : Handle) : heap.Raises S (isSubset a b) :=
  .bind (.set a) fun _ _ => .allM (fun k => raises_setContains b k) _

theorem raises_orderedWithin (n : Nat) (op : Comparison) (a b : Handle) :
    heap.Raises S (orderedWithin n op a b) := by
  induction n generalizing a b with
  | zero => exact .violate _
  | succ n ih =>
    refine .get_bind fun x _ => .get_bind fun y _ => ?_
    split
    case h_1 | h_2 => exact .pure _
    case h_3 | h_4 =>
      refine .bind (raises_firstDifference _ _) fun pair? _ => ?_
      split
      · exact ih _ _
      · exact .pure _
    case h_5 t u =>
      cases op with
      | lt | le => exact .ite (fun _ => raises_isSubset a b) fun _ => .pure _
      | gt | ge => exact .ite (fun _ => raises_isSubset b a) fun _ => .pure _
      | eq | ne => exact raises_unsupported (oneLine_comparison _) a b
    case h_6 =>
      split
      · exact .pure _
      · exact raises_unsupported (oneLine_comparison op) a b

theorem raises_lessThan (a b : Handle) : heap.Raises S (lessThan a b) :=
  .bind .depth fun n _ => raises_orderedWithin n .lt a b

theorem raises_compares (op : Comparison) (a b : Handle) : heap.Raises S (compares op a b) := by
  have ordered : heap.Raises S (do orderedWithin (← depth) op a b) :=
    .bind .depth fun n _ => raises_orderedWithin n op a b
  have compared : heap.Raises S (do
      let x ← get a
      let y ← get b
      if comparable x y then return (← equal a b) == (op == .eq) else unsupported op.name a b) :=
    .get_bind fun _ _ => .get_bind fun _ _ =>
      .ite (fun _ => .bind (raises_equal a b) fun _ _ => .pure _) fun _ =>
        raises_unsupported (oneLine_comparison op) a b
  cases op with
  | eq | ne => exact compared
  | _ => exact ordered

theorem raises_merge (left right : List Handle) : heap.Raises S (merge left right) := by
  fun_induction merge left right with
  | case1 | case2 => exact .pure _
  | case3 l ls r rs ih₁ ih₂ =>
    refine .bind (raises_lessThan r l) fun _ _ => .ite (fun _ => ?_) fun _ => ?_
    · exact .bind ih₁ fun _ _ => .pure _
    · exact .bind ih₂ fun _ _ => .pure _

theorem raises_sort (items : List Handle) : heap.Raises S (sort items) := by
  fun_induction sort items with
  | case1 => exact .pure _
  | case2 items _ half ih₁ ih₂ =>
    exact .bind ih₁ fun left _ => .bind ih₂ fun right _ => raises_merge left right

theorem raises_best {better : Handle → Handle → Query Bool}
    (h : ∀ x y, heap.Raises S (better x y)) (first : Handle) (rest : List Handle) :
    heap.Raises S (best better first rest) :=
  .foldlM (fun b x => .bind (h x b) fun _ _ => .pure _) rest first

/-! ## Truth, membership and lengths -/

theorem raises_truthy (v : Handle) : heap.Raises S (truthy v) := .get_bind fun o _ => by
  split
  case h_11 => exact .bind (.dict _) fun _ _ => .pure _
  all_goals exact .pure _

theorem raises_contains (container item : Handle) : heap.Raises S (contains container item) := by
  have unsupported : heap.Raises S (unsupported "contains" container item : Query Bool) :=
    raises_unsupported (.ofList rfl) container item
  refine .get_bind fun o _ => ?_
  split
  case h_1 =>
    refine .bind (raises_asStr? item) fun t? _ => ?_
    split
    · exact .pure _
    · exact unsupported
  case h_2 =>
    refine .get_bind fun p _ => ?_
    split
    · exact .pure _
    · exact .pure _
    · exact unsupported
  case h_3 | h_4 => exact .bind (raises_indexOf? _ _) fun _ _ => .pure _
  case h_5 => exact .bind (raises_dictLookup _ _) fun _ _ => .pure _
  case h_6 => exact raises_setContains container item
  case h_7 => exact .bind (raises_asInt? item) fun _ _ => .pure _
  case h_8 => exact .bind (raises_dictLookup _ _) fun _ _ => .pure _
  case h_9 => exact .bind (.dict _) fun _ _ => .bind (raises_indexOf? _ _) fun _ _ => .pure _
  case h_10 =>
    refine .get_bind fun p _ => ?_
    split
    · split
      · refine .bind (raises_dictLookup _ _) fun stored? _ => ?_
        split
        · exact raises_equal _ _
        · exact .pure _
      · exact .pure _
    · exact .pure _
  case h_11 => exact raises_unimplemented (.ofList rfl) container

theorem raises_length (v : Handle) : heap.Raises S (length v) := .get_bind fun o _ => by
  split
  case h_8 => exact .bind (.dict _) fun _ _ => .pure _
  case h_9 => exact raises_unimplemented (.ofList rfl) v
  all_goals exact .pure _

theorem raises_codeOf (v : Handle) : heap.Raises S (codeOf v) := by
  refine .get_bind fun o _ => ?_
  extract_lets finish
  have hfinish (code? : Option Int64) : heap.Raises S (finish code?) := by
    cases code? with
    | some code => exact .pure _
    | none => exact .fatal (.field rfl (.line (.ofList rfl)))
  split
  · split <;> exact .bind (.pure _) fun code? _ => hfinish code?
  · exact .bind (.pure _) fun code? _ => hfinish code?
  · exact .bind (raises_badArgument (.line (.ofList rfl)) (.ofList rfl) v) fun code? _ =>
      hfinish code?

theorem raises_keyword? (kwargs : Option Handle) (name : String) :
    heap.Raises S (keyword? kwargs name) := by
  cases kwargs with
  | none => exact .pure _
  | some kw =>
    refine .bind (.dict kw) fun t _ => .bind (.findM? (fun e => ?_) _) fun _ _ => .pure _
    exact .bind (raises_asStr? e.1) fun _ _ => .pure _

/-! ## Formats -/

theorem raises_conversion {c : Char} {convert : Handle → Query String}
    (h : conversion? c = some convert) (v : Handle) : heap.Raises S (convert v) := by
  unfold conversion? at h
  split at h
  case h_6 => cases h
  all_goals obtain rfl := Option.some.inj h
  · exact raises_str v
  · exact (writes_repr v).raises S
  all_goals exact .bind (raises_expectInt (.line (.ofList rfl)) v) fun _ _ => .pure _

/-- Filling quotes at most one character of the format. -/
theorem raises_fill {format : String} (hf : (S.plus heap).text format) (done : String)
    (rest : List Char) (args : List Handle) (hrest : ∀ c ∈ rest, c ∈ format.toList) :
    heap.Raises S (fill done rest args) := by
  have fixed {reason : String} (h : OneLine reason) :
      heap.Raises S (fatal (.invalidValue reason) : Query String) := .fatal (.field rfl (.line h))
  fun_induction fill done rest args with
  | case1 => exact .pure _
  | case2 => exact fixed (.ofList rfl)
  | case3 _ _ _ ih => exact ih fun c hc => hrest c (by simp [hc])
  | case4 | case6 => exact fixed (.ofList rfl)
  | case5 _ c _ _ _ _ =>
    refine .fatal (Diagnostic.composed_message (List.forall_mem_singleton.2 ?_))
    have hc : Diagnostic.Quotes _ format c.toString := .conversion (hrest c (by simp))
    exact .between (.part (.inr ⟨format, hf, hc⟩)) (.ofList rfl) (.ofList rfl)
  | case7 _ c _ _ convert v _ hconvert ih =>
    exact .bind (raises_conversion hconvert v) fun t _ => ih t fun c hc => hrest c (by simp [hc])
  | case8 _ _ _ _ _ _ _ ih => exact ih fun c hc => hrest c (List.mem_cons_of_mem _ hc)

theorem raises_percentFormat {format : String} (hf : (S.plus heap).text format) (args : Handle) :
    heap.Raises S (percentFormat format args) := .get_bind fun o _ => by
  split <;> exact raises_fill hf "" _ _ fun _ => id

end ObjectSpace.Heap
