import Mathlib.Data.List.Induction
import Phrasebook.Proofs.Signature
import Phrasebook.Proofs.TextTable

/-!
# Tables of all signatures

Putting a leaf at the path of every signature makes a table with one branch for
each candidate, and below it the same again over the axes that follow: the **full
table** over the axes (`Phrasebook.TextTable.full`). This is where it matters that
candidates of one axis have different keys. If two of them had the same key, the
leaves of one would end up under the other.

A candidate that an author repeats does not show: its second turn puts every leaf
where it already stands (`Phrasebook.TextTable.fill_full`). And if some axis has
no candidates there are no signatures, so no branch is ever made, not even on the
axes before it.
-/

namespace Phrasebook

namespace TextTable

variable {axes : List Axis} {f : Signature → Leaf}

/-- **The full table over some axes**: a branch for each candidate of the first,
which leads to the full table over the others. -/
def full : List Axis → (Signature → Leaf) → TextTable
  | [], f => leaf (f [])
  | a :: axes, f =>
    branch (a.candidates.map fun v => (v.tableKey, full axes fun s => f (v :: s)))

/-- A table, once the leaf of every signature was put at its path. -/
def fill (axes : List Axis) (f : Signature → Leaf) (t : TextTable) : TextTable :=
  (signatures axes).foldl (fun t s => t.insert s.path (f s)) t

/-! ### Reading a full table -/

theorem lookup_map_tableKey {candidates : List AxisValue} {g : AxisValue → TextTable}
    {v : AxisValue} (hv : v ∈ candidates)
    (hkeys : ∀ w ∈ candidates, v.tableKey = w.tableKey → v = w) :
    (candidates.map fun w => (w.tableKey, g w)).lookup v.tableKey = some (g v) := by
  induction candidates with
  | nil => exact nomatch hv
  | cons w candidates ih =>
    rw [List.map_cons]
    by_cases hk : v.tableKey = w.tableKey
    · obtain rfl : v = w := hkeys w List.mem_cons_self hk
      rw [List.lookup_cons_self]
    · rw [List.lookup_cons, beq_false_of_ne hk]
      refine ih ?_ fun u hu => hkeys u (List.mem_cons_of_mem _ hu)
      exact (List.mem_cons.mp hv).resolve_left fun he => hk (congrArg _ he)

/-- **A full table has the leaf of every choice at its path.** -/
theorem get?_full {s : Signature} (hkeys : KeysDistinguish axes) (hs : s.Chooses axes)
    (f : Signature → Leaf) : get? s.path (full axes f) = some (f s) := by
  induction hs generalizing f with
  | nil => rfl
  | @cons v a s axes hv _ ih =>
    have hlookup := lookup_map_tableKey (g := fun w => full axes fun t => f (w :: t)) hv
      (hkeys a List.mem_cons_self v hv)
    -- no other branch has the key of `v`, so the look-up ends at its own
    change get? (v.tableKey :: Signature.path s) (full (a :: axes) f) = _
    rw [get?_cons, full, entries, hlookup]
    exact ih (fun b hb => hkeys b (List.mem_cons_of_mem _ hb)) _

/-- Every leaf of a full table is that of a choice, at its path. -/
theorem exists_chooses_of_get?_full {path : List String} {l : Leaf}
    (h : get? path (full axes f) = some l) :
    ∃ s : Signature, s.Chooses axes ∧ s.path = path ∧ f s = l := by
  induction axes generalizing path f with
  | nil =>
    cases path with
    | nil => exact ⟨[], List.Forall₂.nil, rfl, Option.some.inj h⟩
    | cons key path => exact nomatch h
  | cons a axes ih =>
    cases path with
    | nil => exact nomatch h
    | cons key path =>
      rw [get?_cons, full, entries] at h
      obtain ⟨t, hlookup, hget⟩ := Option.bind_eq_some_iff.mp h
      obtain ⟨before, after, hsplit, -⟩ := List.lookup_eq_some_iff.mp hlookup
      have hmem : (key, t) ∈ a.candidates.map fun v =>
          (v.tableKey, full axes fun s => f (v :: s)) := by
        rw [hsplit]
        exact List.mem_append_right _ List.mem_cons_self
      obtain ⟨v, hv, hvt⟩ := List.mem_map.mp hmem
      obtain ⟨rfl, rfl⟩ := Prod.mk.inj hvt
      obtain ⟨s, hs, rfl, hleaf⟩ := ih hget
      exact ⟨v :: s, List.Forall₂.cons hv hs, rfl, hleaf⟩

/-- **The wordings of a full table are those of the signatures**, in their
order. -/
theorem wordings_full (axes : List Axis) (f : Signature → Leaf) :
    (full axes f).wordings = (signatures axes).map fun s => (s.path, f s) := by
  induction axes generalizing f with
  | nil => rfl
  | cons a axes ih =>
    rw [full, wordings, wordingsAll_eq_flatMap, List.flatMap_map, signatures, List.map_flatMap]
    refine List.flatMap_congr fun v _ => ?_
    rw [ih, List.map_map, List.map_map]
    rfl

/-! ### Filling a table -/

/-- Filling below one key changes nothing but what is there. -/
theorem foldl_insert_cons (key : String) (g : Signature → Leaf) {choices : List Signature}
    (hne : choices ≠ []) (t : TextTable) :
    choices.foldl (fun t s => t.insert (key :: s.path) (g s)) t =
      branch (alter key (fun u => choices.foldl (fun u s => u.insert s.path (g s)) u)
        t.entries) := by
  induction choices generalizing t with
  | nil => exact absurd rfl hne
  | cons s choices ih =>
    rw [List.foldl_cons, insert_cons]
    rcases choices with _ | ⟨s', choices⟩
    · rfl
    · rw [ih (List.cons_ne_nil _ _), entries, alter_alter]
      rfl

/-- Filling a table over several axes is filling its branches, one candidate of
the first axis after the other. -/
theorem fill_cons {a : Axis} (hne : signatures axes ≠ []) (t : TextTable) :
    fill (a :: axes) f t =
      a.candidates.foldl (fun t v =>
        branch (alter v.tableKey (fill axes fun s => f (v :: s)) t.entries)) t := by
  -- the signatures come in blocks, one for each candidate of `a`
  rw [fill, signatures, List.foldl_flatMap]
  refine congrFun (congrFun (congrArg _ ?_) t) _
  funext t v
  rw [List.foldl_map]
  exact foldl_insert_cons v.tableKey (fun s => f (v :: s)) hne t

/-- A full table holds all it could be filled with. -/
theorem fill_full (hkeys : KeysDistinguish axes) (f : Signature → Leaf) :
    fill axes f (full (axes.map Axis.distinct) f) = full (axes.map Axis.distinct) f := by
  have hkept : ∀ t : TextTable, t = full (axes.map Axis.distinct) f → ∀ s ∈ signatures axes,
      t.insert s.path (f s) = full (axes.map Axis.distinct) f := by
    intro t ht s hs
    have hs := Signature.chooses_distinct.mpr (mem_signatures.mp hs)
    rw [ht, insert_eq_self (get?_full hkeys.distinct hs f)]
  exact List.foldlRecOn (motive := (· = full (axes.map Axis.distinct) f)) _ _ rfl hkept

/-- Filling the branches of an empty table one candidate after the other makes a
branch for each that is not a repetition. -/
theorem foldl_alter_candidates {candidates : List AxisValue}
    {g : AxisValue → TextTable → TextTable}
    (hkeys : ∀ v ∈ candidates, ∀ w ∈ candidates, v.tableKey = w.tableKey → v = w)
    (hagain : ∀ v, g v (g v empty) = g v empty) :
    candidates.foldl (fun t v => branch (alter v.tableKey (g v) t.entries)) empty =
      branch (candidates.eraseDups.map fun v => (v.tableKey, g v empty)) := by
  induction candidates using List.reverseRecOn with
  | nil => rfl
  | append_singleton candidates v ih =>
    have hold : ∀ w ∈ candidates, w ∈ candidates ++ [v] := fun w hw => List.mem_append_left _ hw
    have hv : v ∈ candidates ++ [v] := List.mem_append_right _ (List.mem_singleton_self v)
    rw [List.foldl_append, ih fun u hu w hw => hkeys u (hold u hu) w (hold w hw)]
    by_cases hmem : v ∈ candidates
    · -- `v` has its branch already, and filling that once more changes nothing
      have hlookup := lookup_map_tableKey (g := fun w => g w empty) (List.mem_eraseDups.mpr hmem)
        fun w hw => hkeys v hv w (hold w (List.mem_eraseDups.mp hw))
      rw [eraseDups_concat_of_mem hmem]
      exact congrArg branch (alter_eq_self hlookup (hagain v))
    · have hnew : v.tableKey ∉ (candidates.eraseDups.map fun w => (w.tableKey, g w empty)).map
          Prod.fst := by
        rw [List.map_map]
        intro hk
        obtain ⟨w, hw, hkey⟩ := List.mem_map.mp hk
        have hw := List.mem_eraseDups.mp hw
        exact hmem (hkeys w (hold w hw) v hv hkey ▸ hw)
      rw [eraseDups_concat_of_notMem hmem, List.map_append]
      exact congrArg branch (alter_of_notMem hnew)

/-- **Putting every leaf at the path of its signature makes the full table**, as
long as there are signatures at all. -/
theorem fill_empty (hkeys : KeysDistinguish axes) (hne : signatures axes ≠ [])
    (f : Signature → Leaf) : fill axes f empty = full (axes.map Axis.distinct) f := by
  induction axes generalizing f with
  | nil => rfl
  | cons a axes ih =>
    have hkeys' : KeysDistinguish axes := fun b hb => hkeys b (List.mem_cons_of_mem _ hb)
    have hne' : signatures axes ≠ [] := by
      intro hnil
      rw [signatures, hnil] at hne
      simp at hne
    -- below each branch there is the full table over the other axes
    have hbelow : ∀ v, fill axes (fun s => f (v :: s)) empty =
        full (axes.map Axis.distinct) fun s => f (v :: s) := fun v => ih hkeys' hne' _
    have hagain : ∀ v, fill axes (fun s => f (v :: s)) (fill axes (fun s => f (v :: s)) empty) =
        fill axes (fun s => f (v :: s)) empty := by
      intro v
      rw [hbelow, fill_full hkeys']
    rw [fill_cons hne', foldl_alter_candidates (g := fun v => fill axes fun s => f (v :: s))
      (hkeys a List.mem_cons_self) hagain,
      List.map_cons, full]
    simp only [hbelow]
    rfl

end TextTable

end Phrasebook
