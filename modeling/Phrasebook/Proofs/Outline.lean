import Mathlib.Data.List.Nodup
import Mathlib.Data.List.Range
import Phrasebook.Outline

/-!
# What numbering a phrase keeps and adds

Numbering changes nothing about a phrase: read in order, the constructs of its
outline are its own (`Phrasebook.Phrase.map_construct_placed`). What it adds is an
identity. The numbers of the constructs increase in reading order
(`Phrasebook.Phrase.pairwise_placed`), so two constructs of one phrase with the same
number are the same one, however much they read alike.

Fragments are counted as they open, so the fragments of an outline, in reading
order, bear the ordinals from zero on
(`Phrasebook.Phrase.map_ordinal_fragmentNodes`).
-/

namespace Phrasebook

/-! ### The constructs of a phrase -/

mutual

/-- The constructs in a node, in reading order. -/
def Node.constructs : Node → List Construct
  | .construct c => [c]
  | .fragment children _ => constructsIn children

/-- The constructs in a list of nodes, in reading order. -/
def constructsIn : List Node → List Construct
  | [] => []
  | n :: ns => n.constructs ++ constructsIn ns

end

/-- The constructs of a phrase at every depth, in reading order. -/
def Phrase.constructs (p : Phrase) : List Construct :=
  constructsIn p.children

/-- The constructs of a phrase with their numbers, in reading order. -/
def Phrase.placed (p : Phrase) : List Placed :=
  constructsAll p.outline

/-- Some node of a phrase is a fragment. -/
def Phrase.HasFragments (p : Phrase) : Prop :=
  fragmentCountAll p.children ≠ 0

instance (p : Phrase) : Decidable p.HasFragments :=
  inferInstanceAs (Decidable (_ ≠ _))

mutual

theorem Node.map_construct_outline : ∀ (n : Node) (id ordinal : Nat),
    (n.outline id ordinal).constructs.map (·.construct) = n.constructs
  | .construct _, _, _ => rfl
  | .fragment children _, id, ordinal =>
    map_construct_outlineAll children (id + 1) (ordinal + 1)

theorem map_construct_outlineAll : ∀ (ns : List Node) (id ordinal : Nat),
    (constructsAll (outlineAll id ordinal ns)).map (·.construct) = constructsIn ns
  | [], _, _ => rfl
  | n :: ns, id, ordinal => by
    rw [outlineAll, constructsAll, List.map_append, constructsIn,
      Node.map_construct_outline n, map_construct_outlineAll ns]

end

/-- **Numbering keeps the constructs** and their order. -/
theorem Phrase.map_construct_placed (p : Phrase) :
    p.placed.map (·.construct) = p.constructs :=
  map_construct_outlineAll p.children 0 0

/-! ### Numbers -/

mutual

/-- The numbers of a node and of all it wraps, in reading order. -/
def Outline.ids : Outline → List Nat
  | .construct id _ => [id]
  | .fragment id _ _ children => id :: idsAll children

/-- The numbers of some nodes and of all they wrap, in reading order. -/
def idsAll : List Outline → List Nat
  | [] => []
  | o :: os => o.ids ++ idsAll os

end

mutual

theorem Node.ids_outline : ∀ (n : Node) (id ordinal : Nat),
    (n.outline id ordinal).ids = List.range' id n.size
  | .construct _, _, _ => rfl
  | .fragment children _, id, ordinal => by
    rw [Node.outline, Outline.ids, Node.size, List.range'_succ, idsAll_outlineAll children]

theorem idsAll_outlineAll : ∀ (ns : List Node) (id ordinal : Nat),
    idsAll (outlineAll id ordinal ns) = List.range' id (sizeAll ns)
  | [], _, _ => rfl
  | n :: ns, id, ordinal => by
    rw [outlineAll, idsAll, sizeAll, Node.ids_outline n, idsAll_outlineAll ns, List.range'_append_1]

end

/-- **The nodes of a phrase are numbered in reading order**, from zero on. -/
theorem Phrase.idsAll_outline (p : Phrase) :
    idsAll p.outline = List.range (sizeAll p.children) := by
  rw [Phrase.outline, idsAll_outlineAll, List.range_eq_range']

/-- Numbers increase in reading order. -/
theorem Phrase.pairwise_ids (p : Phrase) : (idsAll p.outline).Pairwise (· < ·) := by
  rw [p.idsAll_outline]
  exact List.pairwise_lt_range

mutual

theorem Outline.map_id_constructs_sublist : ∀ o : Outline,
    (o.constructs.map (·.id)).Sublist o.ids
  | .construct _ _ => .refl _
  | .fragment id _ _ children => (map_id_constructsAll_sublist children).cons id

/-- Of all numbers, constructs have some, in their order. -/
theorem map_id_constructsAll_sublist : ∀ os : List Outline,
    ((constructsAll os).map (·.id)).Sublist (idsAll os)
  | [] => .refl _
  | o :: os => by
    rw [constructsAll, List.map_append, idsAll]
    exact (Outline.map_id_constructs_sublist o).append (map_id_constructsAll_sublist os)

end

/-- **The numbers of the constructs of a phrase increase** in reading order. -/
theorem Phrase.pairwise_placed (p : Phrase) : p.placed.Pairwise (·.id < ·.id) :=
  List.pairwise_map.mp (p.pairwise_ids.sublist (map_id_constructsAll_sublist p.outline))

/-- No two constructs of a phrase have the same number. -/
theorem Phrase.nodup_ids (p : Phrase) : (p.placed.map (·.id)).Nodup :=
  List.pairwise_map.mpr (p.pairwise_placed.imp fun h => ne_of_lt h)

/-! ### Fragments -/

/-- A fragment of an outline, with the level it wraps. -/
structure PlacedFragment where
  id : Nat
  ordinal : Nat
  location : Location
  children : List Outline

mutual

/-- The fragments in a node, in reading order. -/
def Outline.fragmentNodes : Outline → List PlacedFragment
  | .construct _ _ => []
  | .fragment id ordinal location children =>
    ⟨id, ordinal, location, children⟩ :: fragmentNodesIn children

/-- The fragments in a list of nodes, in reading order. -/
def fragmentNodesIn : List Outline → List PlacedFragment
  | [] => []
  | o :: os => o.fragmentNodes ++ fragmentNodesIn os

end

/-- The fragments of a phrase at every depth, in reading order. -/
def Phrase.fragmentNodes (p : Phrase) : List PlacedFragment :=
  fragmentNodesIn p.outline

mutual

theorem Node.map_ordinal_outline : ∀ (n : Node) (id ordinal : Nat),
    (n.outline id ordinal).fragmentNodes.map (·.ordinal) = List.range' ordinal n.fragmentCount
  | .construct _, _, _ => rfl
  | .fragment children _, id, ordinal => by
    rw [Node.outline, Outline.fragmentNodes, List.map_cons, Node.fragmentCount, List.range'_succ,
      map_ordinal_outlineAll children]

theorem map_ordinal_outlineAll : ∀ (ns : List Node) (id ordinal : Nat),
    (fragmentNodesIn (outlineAll id ordinal ns)).map (·.ordinal) =
      List.range' ordinal (fragmentCountAll ns)
  | [], _, _ => rfl
  | n :: ns, id, ordinal => by
    rw [outlineAll, fragmentNodesIn, List.map_append, fragmentCountAll,
      Node.map_ordinal_outline n, map_ordinal_outlineAll ns, List.range'_append_1]

end

/-- **The fragments of a phrase bear the ordinals from zero on**, in reading
order. -/
theorem Phrase.map_ordinal_fragmentNodes (p : Phrase) :
    p.fragmentNodes.map (·.ordinal) = List.range (fragmentCountAll p.children) := by
  rw [Phrase.fragmentNodes, Phrase.outline, map_ordinal_outlineAll, List.range_eq_range']

mutual

theorem Outline.constructs_of_mem_fragmentNodes {n : PlacedFragment} : ∀ o : Outline,
    n ∈ o.fragmentNodes → ∀ q ∈ constructsAll n.children, q ∈ o.constructs
  | .construct _ _, hn, _, _ => nomatch hn
  | .fragment _ _ _ children, hn, q, hq => by
    rcases List.mem_cons.mp hn with rfl | hn
    · exact hq
    · exact constructsAll_of_mem_fragmentNodesIn children hn q hq

/-- What a fragment wraps is part of what it stands in. -/
theorem constructsAll_of_mem_fragmentNodesIn {n : PlacedFragment} : ∀ os : List Outline,
    n ∈ fragmentNodesIn os → ∀ q ∈ constructsAll n.children, q ∈ constructsAll os
  | [], hn, _, _ => nomatch hn
  | o :: os, hn, q, hq => by
    rw [constructsAll, List.mem_append]
    rcases List.mem_append.mp hn with hn | hn
    · exact Or.inl (Outline.constructs_of_mem_fragmentNodes o hn q hq)
    · exact Or.inr (constructsAll_of_mem_fragmentNodesIn os hn q hq)

end

mutual

theorem Outline.mem_fragmentNodes_trans {m n : PlacedFragment} : ∀ o : Outline,
    n ∈ o.fragmentNodes → m ∈ fragmentNodesIn n.children → m ∈ o.fragmentNodes
  | .construct _ _, hn, _ => nomatch hn
  | .fragment _ _ _ children, hn, hm => by
    rcases List.mem_cons.mp hn with rfl | hn
    · exact List.mem_cons_of_mem _ hm
    · exact List.mem_cons_of_mem _ (mem_fragmentNodesIn_trans children hn hm)

/-- A fragment that another one wraps stands in all that the other stands in. -/
theorem mem_fragmentNodesIn_trans {m n : PlacedFragment} : ∀ os : List Outline,
    n ∈ fragmentNodesIn os → m ∈ fragmentNodesIn n.children → m ∈ fragmentNodesIn os
  | [], hn, _ => nomatch hn
  | o :: os, hn, hm => by
    rw [fragmentNodesIn, List.mem_append]
    rcases List.mem_append.mp hn with hn | hn
    · exact Or.inl (Outline.mem_fragmentNodes_trans o hn hm)
    · exact Or.inr (mem_fragmentNodesIn_trans os hn hm)

end

/-- **The fragment with an ordinal stands at that place** among the fragments of the
phrase. -/
theorem Phrase.getElem?_fragmentNodes {p : Phrase} {n : PlacedFragment}
    (hn : n ∈ p.fragmentNodes) : p.fragmentNodes[n.ordinal]? = some n := by
  obtain ⟨i, hi⟩ := List.mem_iff_getElem?.mp hn
  have hordinal := congrArg (·[i]?) p.map_ordinal_fragmentNodes
  simp only [List.getElem?_map, hi, Option.map_some] at hordinal
  obtain ⟨_, hget⟩ := List.getElem?_eq_some_iff.mp hordinal.symm
  rw [List.getElem_range] at hget
  exact hget ▸ hi

/-- A node as a fragment of an outline, if it is one. -/
def Outline.fragment? : Outline → Option PlacedFragment
  | .construct _ _ => none
  | .fragment id ordinal location children => some ⟨id, ordinal, location, children⟩

/-- The fragments that stand on a level are among the fragments in it. -/
theorem mem_fragmentNodesIn_of_mem {level : List Outline} {n : PlacedFragment}
    (h : n ∈ level.filterMap Outline.fragment?) : n ∈ fragmentNodesIn level := by
  induction level with
  | nil => exact nomatch h
  | cons o level ih =>
    rw [fragmentNodesIn, List.mem_append]
    cases o with
    | construct id c => exact Or.inr (ih h)
    | fragment id ordinal location children =>
      rcases List.mem_cons.mp h with rfl | h
      · exact Or.inl List.mem_cons_self
      · exact Or.inr (ih h)

theorem Node.isFragment_outline (n : Node) (id ordinal : Nat) :
    (n.outline id ordinal).isFragment = true ↔ n.fragmentCount ≠ 0 := by
  cases n <;> simp [Node.outline, Outline.isFragment, Node.fragmentCount]

theorem hasFragment_outlineAll : ∀ (ns : List Node) (id ordinal : Nat),
    hasFragment (outlineAll id ordinal ns) = true ↔ fragmentCountAll ns ≠ 0
  | [], _, _ => by simp [outlineAll, hasFragment, fragmentCountAll]
  | n :: ns, id, ordinal => by
    have hns := hasFragment_outlineAll ns (id + n.size) (ordinal + n.fragmentCount)
    rw [hasFragment] at hns ⊢
    rw [outlineAll, List.any_cons, Bool.or_eq_true, Node.isFragment_outline, hns,
      fragmentCountAll]
    omega

/-- A phrase has fragments at some depth just when one stands at its top. -/
theorem Phrase.hasFragment_outline (p : Phrase) :
    hasFragment p.outline = true ↔ p.HasFragments :=
  hasFragment_outlineAll p.children 0 0

/-! ### Levels -/

mutual

theorem Outline.levels_eq : ∀ o : Outline, o.levels = o.fragmentNodes.map (·.children)
  | .construct _ _ => rfl
  | .fragment _ _ _ children => by
    rw [Outline.levels, Outline.fragmentNodes, List.map_cons, levelsAll_eq children]

/-- The levels inside some nodes are what their fragments wrap. -/
theorem levelsAll_eq : ∀ os : List Outline, levelsAll os = (fragmentNodesIn os).map (·.children)
  | [] => rfl
  | o :: os => by
    rw [levelsAll, fragmentNodesIn, List.map_append, Outline.levels_eq o, levelsAll_eq os]

end

/-- The constructs that stand on a level are among the constructs in it. -/
theorem mem_constructsAll_of_mem {level : List Outline} {id : Nat} {c : Construct}
    (h : .construct id c ∈ level) : ⟨id, c⟩ ∈ constructsAll level := by
  induction level with
  | nil => exact nomatch h
  | cons o level ih =>
    rw [constructsAll, List.mem_append]
    rcases List.mem_cons.mp h with rfl | h
    · exact Or.inl (List.mem_singleton_self _)
    · exact Or.inr (ih h)

/-- On a level without fragments all constructs in it stand on it. -/
theorem mem_of_mem_constructsAll {level : List Outline} (hlevel : hasFragment level = false)
    {q : Placed} (h : q ∈ constructsAll level) : .construct q.id q.construct ∈ level := by
  induction level with
  | nil => exact nomatch h
  | cons o level ih =>
    rw [hasFragment, List.any_cons, Bool.or_eq_false_iff] at hlevel
    rcases List.mem_append.mp h with h | h
    · cases o with
      | construct id c =>
        obtain rfl : q = ⟨id, c⟩ := List.mem_singleton.mp h
        exact List.mem_cons_self
      | fragment id ordinal location children => exact nomatch hlevel.1
    · exact List.mem_cons_of_mem _ (ih hlevel.2 h)

end Phrasebook
