import Mathlib.Data.List.Infix
import Phrasebook.Proofs.TextTable

/-!
# What an insertion does to a table

A table is read in two ways: path by path, and as the list of its leaves. An insertion changes
both in one place only, whatever the table looks like.

* **Path by path** there are three kinds of paths. The path of the leaf leads to it; a path that is
  a beginning of it, or that it is a beginning of, leads nowhere afterwards, for where one leaf
  stands no other can be on the way to it or behind it; and all other paths part from it at some
  key and lead where they did (`Phrasebook.TextTable.get?_insert`).
* **As a list**, the leaves that were in the way of the new one give way to it, and they stood
  next to one another (`Phrasebook.TextTable.leaves_insert`): a leaf that the path meets before its
  end, or else all that stands at its end (`Phrasebook.TextTable.displaced`).

So nothing is lost exactly if the path was free (`Phrasebook.TextTable.Free`). Repeated keys are the
reason why this is not said by paths alone: a leaf behind the second entry under a key is at no
path, but it is among the leaves, and it gives way with the rest.
-/

namespace Phrasebook

namespace TextTable

variable {key : String} {path other : List String} {l : Leaf} {t : TextTable}
  {entries : List (String × TextTable)}

/-! ### Paths -/

/-- **A leaf stands where it was inserted.** -/
theorem get?_insert_self (path : List String) (l : Leaf) (t : TextTable) :
    get? path (insert path l t) = some l := by
  induction path generalizing t with
  | nil => rfl
  | cons key path ih =>
    rw [insert_cons, get?_cons, TextTable.entries, lookup_alter_self]
    exact ih _

/-- A path that goes on behind an inserted leaf leads nowhere. -/
theorem get?_insert_below (h : path <+: other) (hne : other ≠ path) :
    get? other (insert path l t) = none := by
  induction path generalizing other t with
  | nil =>
    cases other with
    | nil => exact absurd rfl hne
    | cons key other => rfl
  | cons key path ih =>
    obtain ⟨rest, rfl⟩ := h
    have hne' : path ++ rest ≠ path := fun h => hne (congrArg _ h)
    rw [List.cons_append, insert_cons, get?_cons, TextTable.entries, lookup_alter_self]
    exact ih (List.prefix_append _ _) hne'

/-- A path that ends on the way to an inserted leaf leads nowhere. -/
theorem get?_insert_above (h : other <+: path) (hne : other ≠ path) :
    get? other (insert path l t) = none := by
  induction other generalizing path t with
  | nil =>
    cases path with
    | nil => exact absurd rfl hne
    | cons key path => rfl
  | cons key other ih =>
    obtain ⟨rest, rfl⟩ := h
    have hne' : other ≠ other ++ rest := fun h => hne (congrArg _ h)
    rw [List.cons_append, insert_cons, get?_cons, TextTable.entries, lookup_alter_self]
    exact ih (List.prefix_append _ _) hne'

/-- **A path that parts from the path of an inserted leaf leads where it did.** -/
theorem get?_insert_of_apart (h : ¬path <+: other) (h' : ¬other <+: path) :
    get? other (insert path l t) = get? other t := by
  induction path generalizing other t with
  | nil => exact absurd List.nil_prefix h
  | cons key path ih =>
    rcases other with _ | ⟨key', other⟩
    · exact absurd List.nil_prefix h'
    · rw [insert_cons, get?_cons, get?_cons, TextTable.entries]
      by_cases hk : key' = key
      · -- they part further down, in a table that was perhaps made for the new leaf
        subst hk
        rw [List.prefix_cons_inj] at h h'
        rw [lookup_alter_self, Option.bind_some, ih h h']
        cases t.entries.lookup key' <;> simp
      · rw [lookup_alter_of_ne hk]

/-- **What an insertion does to the leaf at each path.** -/
theorem get?_insert (path other : List String) (l : Leaf) (t : TextTable) :
    get? other (insert path l t) =
      if other = path then some l
      else if path <+: other ∨ other <+: path then none
      else get? other t := by
  split_ifs with heq hprefix
  · rw [heq, get?_insert_self]
  · exact hprefix.elim (get?_insert_below · heq) (get?_insert_above · heq)
  · exact get?_insert_of_apart (fun h => hprefix (.inl h)) fun h => hprefix (.inr h)

/-! ### Leaves -/

/-- The leaves that give way to a leaf inserted at a path: a leaf the path meets before its end, or
all those of the table at its end. -/
def displaced : List String → TextTable → List Leaf
  | [], t => t.leaves
  | _ :: _, leaf l => [l]
  | key :: path, branch entries => displaced path ((entries.lookup key).getD empty)

/-- The leaves under the first entry of a key stand next to one another, and only they change with
the entry. -/
theorem leavesAll_alter (key : String) (entries : List (String × TextTable)) :
    ∃ before after,
      leavesAll entries = before ++ ((entries.lookup key).getD empty).leaves ++ after ∧
        ∀ f, leavesAll (alter key f entries) =
          before ++ (f ((entries.lookup key).getD empty)).leaves ++ after := by
  induction entries with
  | nil => exact ⟨[], [], rfl, fun f => by simp [alter, leavesAll]⟩
  | cons e entries ih =>
    obtain ⟨k, u⟩ := e
    by_cases hk : k = key
    · refine ⟨[], leavesAll entries, ?_, fun f => ?_⟩
      · simp [leavesAll, hk]
      · simp [alter, leavesAll, hk]
    · obtain ⟨before, after, hleaves, halter⟩ := ih
      have hlookup : ((k, u) :: entries).lookup key = entries.lookup key := by
        rw [List.lookup_cons, beq_false_of_ne fun h => hk h.symm]
      refine ⟨u.leaves ++ before, after, ?_, fun f => ?_⟩
      · simp [leavesAll, hlookup, hleaves]
      · simp [alter, leavesAll, hk, hlookup, halter]

/-- **A new leaf takes the place of those that give way to it.** -/
theorem leaves_insert (path : List String) (l : Leaf) (t : TextTable) :
    ∃ before after, t.leaves = before ++ displaced path t ++ after ∧
      (insert path l t).leaves = before ++ l :: after := by
  induction path generalizing t with
  | nil => exact ⟨[], [], by simp [displaced], rfl⟩
  | cons key path ih =>
    cases t with
    | leaf m =>
      -- the leaf in the way is all there was, and the branches made in its place hold the new one
      obtain ⟨before, after, hempty, hinsert⟩ := ih empty
      obtain ⟨hbefore, rfl⟩ := List.append_eq_nil_iff.mp (Eq.symm hempty)
      obtain ⟨rfl, -⟩ := List.append_eq_nil_iff.mp hbefore
      refine ⟨[], [], rfl, ?_⟩
      rw [insert_cons, TextTable.entries, alter, leaves, leavesAll, leavesAll, hinsert]
      rfl
    | branch entries =>
      obtain ⟨before, after, hleaves, halter⟩ := leavesAll_alter key entries
      obtain ⟨before', after', hleaves', hinsert⟩ := ih ((entries.lookup key).getD empty)
      refine ⟨before ++ before', after' ++ after, ?_, ?_⟩
      · rw [leaves, hleaves, hleaves', displaced]
        simp only [List.append_assoc]
      · rw [insert_cons, TextTable.entries, leaves, halter, hinsert]
        simp only [List.append_assoc, List.cons_append]

/-! ### Free paths -/

/-- The table a path comes to, followed through the first entry under each key. -/
def at? : List String → TextTable → Option TextTable
  | [], t => some t
  | key :: path, t => (t.entries.lookup key).bind (at? path)

/-- **A path is free** in a table: followed through the first entry under each key, it meets no
leaf, neither on its way nor at its end, and the table it comes to, if any, holds none. -/
structure Free (path : List String) (t : TextTable) : Prop where
  way : ∀ start, start <+: path → get? start t = none
  below : ∀ u, at? path t = some u → u.leaves = []

theorem at?_empty (path : List String) (u : TextTable) (h : at? path empty = some u) :
    u.leaves = [] := by
  cases path with
  | nil =>
    obtain rfl := Option.some.inj h
    rfl
  | cons key path => exact nomatch h

theorem free_nil : Free [] t ↔ t.leaves = [] := by
  constructor
  · exact fun h => h.below t rfl
  · intro h
    refine ⟨fun start hstart => ?_, fun u hu => Option.some.inj hu ▸ h⟩
    obtain rfl := List.prefix_nil.mp hstart
    cases t with
    | leaf l => exact nomatch h
    | branch entries => rfl

theorem not_free_leaf : ¬Free path (leaf l) :=
  fun h => nomatch h.way [] List.nil_prefix

/-- A path is free if what follows its first key is free in the entry under it. -/
theorem free_cons : Free (key :: path) (branch entries) ↔
    Free path ((entries.lookup key).getD empty) := by
  constructor
  · intro h
    cases hlookup : entries.lookup key with
    | none => exact ⟨fun start _ => get?_empty start, at?_empty path⟩
    | some u =>
      refine ⟨fun start hstart => ?_, fun v hv => h.below v ?_⟩
      · have hway := h.way (key :: start) ((List.prefix_cons_inj key).mpr hstart)
        rwa [get?_cons, TextTable.entries, hlookup] at hway
      · rw [at?, TextTable.entries, hlookup]
        exact hv
  · intro h
    refine ⟨fun start hstart => ?_, fun u hu => ?_⟩
    · rcases start with _ | ⟨key', start⟩
      · rfl
      · obtain ⟨rfl, hrest⟩ := List.cons_prefix_cons.mp hstart
        have hway := h.way start hrest
        rw [get?_cons, TextTable.entries]
        cases hlookup : entries.lookup key' with
        | none => rfl
        | some v =>
          rw [hlookup] at hway
          exact hway
    · rw [at?, TextTable.entries] at hu
      obtain ⟨v, hlookup, hv⟩ := Option.bind_eq_some_iff.mp hu
      rw [hlookup] at h
      exact h.below u hv

/-- **Nothing gives way exactly on a free path.** -/
theorem displaced_eq_nil_iff : displaced path t = [] ↔ Free path t := by
  induction path generalizing t with
  | nil => exact free_nil.symm
  | cons key path ih =>
    cases t with
    | leaf l => exact ⟨fun h => (nomatch h), fun h => absurd h not_free_leaf⟩
    | branch entries => rw [displaced, ih, free_cons]

/-- **Insertion and look-up obey one law**, in a table of any shape. The leaf inserted is at its
path; paths that are a beginning of this one, and those this one is a beginning of, lead nowhere
afterwards; and all others lead where they did. The leaves are those from before with the new one
put in at one position, exactly if its path was free. -/
theorem get?_insert_and_leaves_insert (path : List String) (l : Leaf) (t : TextTable) :
    (∀ other, get? other (insert path l t) =
      if other = path then some l
      else if path <+: other ∨ other <+: path then none
      else get? other t) ∧
    (Free path t ↔ ∃ before after, t.leaves = before ++ after ∧
      (insert path l t).leaves = before ++ l :: after) := by
  refine ⟨fun other => get?_insert path other l t, ?_⟩
  rw [← displaced_eq_nil_iff]
  obtain ⟨before, after, hleaves, hinsert⟩ := leaves_insert path l t
  constructor
  · intro h
    exact ⟨before, after, by rw [hleaves, h, List.append_nil], hinsert⟩
  · rintro ⟨before', after', hleaves', hinsert'⟩
    -- there is one leaf more than before, so none was lost
    have hlength : t.leaves.length + 1 = (insert path l t).leaves.length := by
      rw [hleaves', hinsert']
      simp only [List.length_append, List.length_cons]
      omega
    rw [hleaves, hinsert] at hlength
    simp only [List.length_append, List.length_cons] at hlength
    exact List.eq_nil_of_length_eq_zero (by omega)

end TextTable

end Phrasebook
