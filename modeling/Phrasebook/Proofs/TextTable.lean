import Mathlib.Tactic.Common
import Phrasebook.TextTable

/-!
# Laws of text tables

A text table is read key by key: a path looks into the first entry under its first
key (`Phrasebook.TextTable.get?_cons`), and an insertion changes this entry and no
other, or adds one behind the others. Inserting a leaf where it already stands
changes nothing at all (`Phrasebook.TextTable.insert_eq_self`), not even the order
of branches.

The leaves of a table in order, each with its path, are its **wordings**
(`Phrasebook.TextTable.wordings`).
-/

namespace Phrasebook

namespace TextTable

/-! ### Entries of a branch -/

variable {key key' : String} {f g : TextTable → TextTable} {entries : List (String × TextTable)}

theorem lookup_alter_self :
    (alter key f entries).lookup key = some (f ((entries.lookup key).getD empty)) := by
  induction entries with
  | nil => simp [alter]
  | cons e entries ih =>
    obtain ⟨k, t⟩ := e
    rw [alter]
    split
    · rename_i hk
      simp [hk]
    · rename_i hk
      have hne : (key == k) = false := beq_false_of_ne fun h => hk h.symm
      simp only [List.lookup_cons, hne]
      exact ih

theorem lookup_alter_of_ne (h : key' ≠ key) :
    (alter key f entries).lookup key' = entries.lookup key' := by
  induction entries with
  | nil => simp [alter, h]
  | cons e entries ih =>
    obtain ⟨k, t⟩ := e
    rw [alter]
    split
    · rename_i hk
      have hne : (key' == k) = false := beq_false_of_ne (hk ▸ h)
      simp only [List.lookup_cons, hne]
    · simp only [List.lookup_cons]
      rw [ih]

theorem alter_eq_self {t : TextTable} (ht : entries.lookup key = some t) (hf : f t = t) :
    alter key f entries = entries := by
  induction entries with
  | nil => exact nomatch ht
  | cons e entries ih =>
    obtain ⟨k, u⟩ := e
    rw [alter]
    by_cases hk : k = key
    · rw [hk, List.lookup_cons_self] at ht
      rw [if_pos hk, Option.some.inj ht, hf]
    · have hne : (key == k) = false := beq_false_of_ne fun h => hk h.symm
      rw [List.lookup_cons, hne] at ht
      rw [if_neg hk, ih ht]

theorem alter_alter : alter key g (alter key f entries) = alter key (fun t => g (f t)) entries := by
  induction entries with
  | nil => simp [alter]
  | cons e entries ih =>
    obtain ⟨k, t⟩ := e
    by_cases hk : k = key
    · simp [alter, hk]
    · simp [alter, hk, ih]

theorem alter_of_notMem (h : key ∉ entries.map Prod.fst) :
    alter key f entries = entries ++ [(key, f empty)] := by
  induction entries with
  | nil => rfl
  | cons e entries ih =>
    obtain ⟨k, t⟩ := e
    rw [List.map_cons, List.mem_cons, not_or] at h
    rw [alter, if_neg (fun hk => h.1 hk.symm), ih h.2, List.cons_append]

/-! ### Insertion -/

@[simp] theorem get?_empty (path : List String) : get? path empty = none := by
  cases path <;> rfl

theorem insert_cons (path : List String) (l : Leaf) (t : TextTable) :
    insert (key :: path) l t = branch (alter key (insert path l) t.entries) := rfl

/-- Reading past a key looks into the entry under it. -/
theorem get?_cons (path : List String) (t : TextTable) :
    get? (key :: path) t = (t.entries.lookup key).bind (get? path) := by
  cases t <;> rfl

/-- **Inserting a leaf where it stands already changes nothing.** -/
theorem insert_eq_self {path : List String} {l : Leaf} {t : TextTable}
    (h : get? path t = some l) : insert path l t = t := by
  induction path generalizing t with
  | nil =>
    cases t with
    | leaf m => rw [insert, Option.some.inj h]
    | branch entries => exact nomatch h
  | cons key path ih =>
    cases t with
    | leaf m => exact nomatch h
    | branch entries =>
      obtain ⟨u, hu, hget⟩ := Option.bind_eq_some_iff.mp h
      rw [insert_cons, TextTable.entries, alter_eq_self hu (ih hget)]

/-! ### Wordings -/

mutual

/-- **The wordings of a table**: its leaves, each with its path, in the order of
its branches. -/
def wordings : TextTable → List (List String × Leaf)
  | leaf l => [([], l)]
  | branch entries => wordingsAll entries

/-- The wordings of some branches. -/
def wordingsAll : List (String × TextTable) → List (List String × Leaf)
  | [] => []
  | (key, t) :: rest => t.wordings.map (fun w => (key :: w.1, w.2)) ++ wordingsAll rest

end

mutual

theorem map_snd_wordings : ∀ t : TextTable, t.wordings.map Prod.snd = t.leaves
  | leaf _ => rfl
  | branch entries => map_snd_wordingsAll entries

theorem map_snd_wordingsAll : ∀ entries : List (String × TextTable),
    (wordingsAll entries).map Prod.snd = leavesAll entries
  | [] => rfl
  | (key, t) :: rest => by
    rw [wordingsAll, leavesAll, List.map_append, List.map_map, map_snd_wordingsAll rest,
      ← map_snd_wordings t]
    rfl

end

theorem wordingsAll_eq_flatMap (entries : List (String × TextTable)) :
    wordingsAll entries =
      entries.flatMap fun e => e.2.wordings.map fun w => (e.1 :: w.1, w.2) := by
  induction entries with
  | nil => rfl
  | cons e entries ih => rw [wordingsAll, ih, List.flatMap_cons]

end TextTable

end Phrasebook
