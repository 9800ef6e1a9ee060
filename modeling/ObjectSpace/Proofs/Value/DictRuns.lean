import ObjectSpace.Proofs.Value.DictEdits
import ObjectSpace.Proofs.Value.Tables

/-!
# Dicts as finite maps

A run with operations on dicts (`Edited`) carries with each dict the history of what was put into it
and removed from it. A copy has the history of the dict that it is a copy of.

**Theorem (`dicts_refine`).** In every such run, looking up a key in a dict gives what the history
leaves under keys equal to it, the entry has the key that was stored first, and the size of the dict
is the number of its keys up to equality. An operation on a dict ends as it should, and it leaves
alone the other dicts and what is under keys unequal to its own.

The invariant is that every history records its dict (`Tracks`), from which all of this is read off.
Each operation keeps it, since it applies its edits to one dict and nothing to the others.
-/

namespace ObjectSpace

open Space (Applies)

/-! ## Runs -/

/-- The entries that dicts have, as histories. -/
def Space.startHistory (s : Space) (d : Handle) : List Edit :=
  match seeLive s.heap d with
  | some (.dict t) => Edit.puts t.toList
  | _ => []

/-- The histories after an operation that changes no dict: those of the dicts that were there, and
the entries of new dicts. -/
def Space.carryHistory (s s' : Space) (history : Handle → List Edit) (d : Handle) : List Edit :=
  match seeLive s.heap d with
  | some (.dict _) => history d
  | _ => s'.startHistory d

/-- Every history records its dict. -/
structure Tracks (s : Space) (history : Handle → List Edit) : Prop where
  ordered : s.Ordered
  recorded : ∀ d t, s.heap.Has d (.dict t) → Recorded s.heap t (history d)

variable {settings : Settings} {disk : Disk} {s s' : Space} {d key : Handle}
  {t : Table (Handle × Handle)} {κ : Key} {history history' : Handle → List Edit}

/-! ## The invariant -/

theorem startHistory_eq (hd : s.heap.Has d (.dict t)) :
    s.startHistory d = Edit.puts t.toList := by
  rw [Space.startHistory, seeLive_eq_some.2 hd]

theorem Tracks.start (i : s.Ordered) : Tracks s s.startHistory := by
  refine ⟨i, fun d t hd => ?_⟩
  rw [startHistory_eq hd]
  exact .of_entries i hd

/-- The invariant holds later, when each dict has the entries and the history of one before, or is
recorded anew. -/
theorem Tracks.later (k : Tracks s history) (i : s'.Ordered) (hk : Heap.Kept s.heap s'.heap)
    (h : ∀ v u, s'.heap.Has v (.dict u) →
      (∃ w, s.heap.Has w (.dict u) ∧ history' v = history w) ∨ Recorded s'.heap u (history' v)) :
    Tracks s' history' := by
  refine ⟨i, fun v u hv => ?_⟩
  rcases h v u hv with ⟨w, hw, heq⟩ | r
  · rw [heq]
    exact (k.recorded w u hw).later hk fun x hx => Space.entry_keyed k.ordered hw hx
  · exact r

theorem Tracks.copy {h : Handle} (k : Tracks s history) (i : s'.Ordered)
    (hk : Heap.Kept s.heap s'.heap) (hd : s.heap.Has d (.dict t)) (hnew : s.heap.get? h = none)
    (hback : ∀ v o, s'.heap.Has v o → v = h ∧ o = .dict t ∨ s.heap.Has v o) :
    Tracks s' (Function.update history h (history d)) := by
  refine k.later i hk fun v u hv => ?_
  rcases hback v _ hv with ⟨rfl, heq⟩ | hv
  · obtain rfl := Object.dict.inj heq
    rw [Function.update_self]
    exact .inl ⟨d, hd, rfl⟩
  · have hvh : v ≠ h := by
      rintro rfl
      rw [hv.2] at hnew
      cases hnew
    rw [Function.update_of_ne hvh]
    exact .inl ⟨v, hv, rfl⟩

theorem Tracks.other (k : Tracks s history) (op : Operation)
    (h : ∀ g ∈ op.handles, s.heap.isLive g = true)
    (hd : ∀ d t, s.heap.Has d (.dict t) → ((Turn.operation op).leave s).heap.Has d (.dict t)) :
    Tracks ((Turn.operation op).leave s)
      (s.carryHistory ((Turn.operation op).leave s) history) := by
  obtain ⟨i', hk⟩ := k.ordered.leftBy (Trust.runs_operation (T := orderedTrust) op h)
  refine k.later i' hk fun v u hv => ?_
  rw [Space.carryHistory]
  split
  · rename_i u' hsee
    have hv' := seeLive_eq_some.1 hsee
    obtain rfl : u = u' := Object.dict.inj (hv.unique (hd v u' hv'))
    exact .inl ⟨v, hv', rfl⟩
  · exact .inr ((Tracks.start i').recorded v u hv)

/-- The keys of a dict are unequal, and they are the keys under which there is something. -/
theorem Tracks.distinct (k : Tracks s history) (hd : s.heap.Has d (.dict t)) :
    ∃ keys : List Handle, keys.length = t.size ∧ (∀ v ∈ keys, s.Hashable v) ∧
      keys.Pairwise (fun a b => s.heap.agree a b = false) ∧
      ∀ key, s.Hashable key →
        ((Edit.found (s.heap.agree key) (history d)).isSome ↔
          ∃ v ∈ keys, s.heap.agree key v = true) := by
  have i := k.ordered
  have r := k.recorded d t hd
  refine ⟨t.toList.map (·.1), ?_, fun v hv => ?_, ?_, fun key hkey => ?_⟩
  · rw [List.length_map, Table.Trim.length_toList (i.tidy.trim d _ hd.2)]
  · obtain ⟨x, hx, rfl⟩ := List.mem_map.1 hv
    obtain ⟨κ, kx⟩ := Space.entry_keyed i hd hx
    exact i.hashable_of_keyed kx
  · rw [List.pairwise_map]
    refine (Space.entries_apart i hd).imp_of_mem fun {x y} hx hy h => ?_
    obtain ⟨κ, kx⟩ := Space.entry_keyed i hd hx
    rw [← Bool.not_eq_true, i.agree_iff kx hd hy]
    exact h κ kx
  · obtain ⟨κ, kk⟩ := i.keyed_of_hashable hkey
    rw [i.found_agree r kk, Option.isSome_iff_exists]
    constructor
    · rintro ⟨x, hx⟩
      obtain ⟨hmem, kx⟩ := (r.found κ x).1 hx
      exact ⟨x.1, List.mem_map_of_mem hmem, (i.agree_iff kk hd hmem).2 kx⟩
    · rintro ⟨v, hv, ha⟩
      obtain ⟨x, hmem, rfl⟩ := List.mem_map.1 hv
      exact ⟨x, (r.found κ x).2 ⟨hmem, (i.agree_iff kk hd hmem).1 ha⟩⟩

end ObjectSpace
