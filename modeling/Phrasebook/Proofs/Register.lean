import Mathlib.Data.List.Perm.Basic
import Mathlib.Logic.Relation
import Phrasebook.Compile
import Phrasebook.Proofs.Outline

/-!
# The register of a phrase

An outline numbers a node by counting: it adds up the sizes of what comes before. The same numbers
come about without counting anything if the nodes are **entered** in a register
(`Phrasebook.Phrase.register`), one behind the other in reading order, each under the number of
entries there are at that moment. A fragment is entered before what it wraps, when the numbers of
its children are not known yet; they are put down in its entry once all it wraps has been entered.

The two agree (`Phrasebook.Phrase.register_eq`). What has to be said for that is what entering a
node does to a register that is only begun: the entries already there stay as they are, and those of
the node and of all it wraps are appended in reading order, with their children put down
(`Phrasebook.Node.enter_eq`).

Hence whatever is decided by number may be looked up either way. A register lists the nodes of a
phrase in reading order, and its lists of siblings share out all numbers among themselves, each of
them increasing. What a fragment wraps, at any depth, is a block of numbers right behind its own
(`Phrasebook.Phrase.register_lists`).
-/

namespace Phrasebook

/-! ### Entering nodes -/

/-- A node in a register, with the numbers of the nodes that stand directly in it. -/
structure Entry where
  node : Node
  children : List Nat

mutual

/-- Enters a node and all it wraps behind some entries, and tells the number of the node. -/
def Node.enter (entries : List Entry) : Node → Nat × List Entry
  | .construct c => (entries.length, entries ++ [⟨.construct c, []⟩])
  | .fragment children location =>
    let (ids, entries') := enterAll (entries ++ [⟨.fragment children location, []⟩]) children
    (entries.length, entries'.modify entries.length fun e => { e with children := ids })

/-- Enters some nodes one after the other, and tells their numbers. -/
def enterAll (entries : List Entry) : List Node → List Nat × List Entry
  | [] => ([], entries)
  | n :: ns =>
    let (id, entries) := n.enter entries
    let (ids, entries) := enterAll entries ns
    (id :: ids, entries)

end

/-- The nodes of a phrase at every depth, each under its number. -/
structure Register where
  entries : List Entry
  /-- The numbers of the nodes that stand on the phrase itself. -/
  top : List Nat

/-- **The register of a phrase**, with all its nodes entered. -/
def Phrase.register (p : Phrase) : Register :=
  let (top, entries) := enterAll [] p.children
  { entries, top }

/-- Whether a node is a fragment. -/
def Node.isFragment : Node → Bool
  | .construct _ => false
  | .fragment _ _ => true

namespace Register

/-- The node with a number. -/
def node? (r : Register) (id : Nat) : Option Node :=
  r.entries[id]?.map (·.node)

/-- The numbers of the nodes that stand directly in the node with a number. -/
def children (r : Register) (id : Nat) : List Nat :=
  (r.entries[id]?.map (·.children)).getD []

/-- The lists of siblings in a register: the nodes of the phrase itself, and what each fragment
wraps. -/
def levels (r : Register) : List (List Nat) :=
  r.top :: (r.entries.filter (·.node.isFragment)).map (·.children)

/-- One number is that of a node which the node with another one wraps, at any depth. -/
def Wraps (r : Register) : Nat → Nat → Prop :=
  Relation.TransGen fun id id' => id' ∈ r.children id

end Register

/-! ### Nodes in reading order -/

mutual

/-- A node and all it wraps, in reading order. -/
def Node.nodes : Node → List Node
  | .construct c => [.construct c]
  | .fragment children location => .fragment children location :: nodesIn children

/-- Some nodes and all they wrap, in reading order. -/
def nodesIn : List Node → List Node
  | [] => []
  | n :: ns => n.nodes ++ nodesIn ns

end

mutual

/-- A numbered node and all it wraps, in reading order. -/
def Outline.nodes : Outline → List Outline
  | .construct id c => [.construct id c]
  | .fragment id ordinal location children =>
    .fragment id ordinal location children :: outlinesIn children

/-- Some numbered nodes and all they wrap, in reading order. -/
def outlinesIn : List Outline → List Outline
  | [] => []
  | o :: os => o.nodes ++ outlinesIn os

end

mutual

/-- The node that was numbered. -/
def Outline.toNode : Outline → Node
  | .construct _ c => .construct c
  | .fragment _ _ location children => .fragment (toNodes children) location

/-- The nodes that were numbered. -/
def toNodes : List Outline → List Node
  | [] => []
  | o :: os => o.toNode :: toNodes os

end

/-- What stands directly in a numbered node. -/
def Outline.children : Outline → List Outline
  | .construct _ _ => []
  | .fragment _ _ _ children => children

/-- The entry of a numbered node. -/
def Outline.entry (o : Outline) : Entry :=
  ⟨o.toNode, o.children.map Outline.id⟩

/-- The register that an outline comes to. -/
def Register.ofOutline (os : List Outline) : Register where
  entries := (outlinesIn os).map Outline.entry
  top := os.map Outline.id

theorem toNodes_eq_map (os : List Outline) : toNodes os = os.map Outline.toNode := by
  induction os with
  | nil => rfl
  | cons o os ih => rw [toNodes, ih, List.map_cons]

theorem Outline.self_mem_nodes (o : Outline) : o ∈ o.nodes := by
  cases o <;> exact List.mem_cons_self

theorem Outline.nodes_eq_cons (o : Outline) : o.nodes = o :: outlinesIn o.children := by
  cases o <;> rfl

/-- Nodes stand in themselves. -/
theorem mem_outlinesIn {o : Outline} {os : List Outline} (h : o ∈ os) : o ∈ outlinesIn os := by
  induction os with
  | nil => exact nomatch h
  | cons o' os ih =>
    rcases List.mem_cons.mp h with rfl | h
    · exact List.mem_append_left _ o.self_mem_nodes
    · exact List.mem_append_right _ (ih h)

mutual

theorem Outline.nodes_sublist_nodes {o : Outline} : ∀ o' : Outline, o ∈ o'.nodes →
    o.nodes.Sublist o'.nodes
  | .construct id c, h => by
    obtain rfl := List.mem_singleton.mp h
    exact .refl _
  | .fragment id _ _ children, h => by
    rcases List.mem_cons.mp h with rfl | h
    · exact .refl _
    · exact (nodes_sublist_of_mem children h).cons _

/-- A node and what it wraps stand in all that the node stands in. -/
theorem nodes_sublist_of_mem {o : Outline} : ∀ os : List Outline, o ∈ outlinesIn os →
    o.nodes.Sublist (outlinesIn os)
  | [], h => nomatch h
  | o' :: os, h => by
    rcases List.mem_append.mp h with h | h
    · exact (Outline.nodes_sublist_nodes o' h).trans (List.sublist_append_left _ _)
    · exact (nodes_sublist_of_mem os h).trans (List.sublist_append_right _ _)

end

theorem outlinesIn_children_sublist {o : Outline} {os : List Outline} (h : o ∈ outlinesIn os) :
    (outlinesIn o.children).Sublist (outlinesIn os) := by
  have hnodes := nodes_sublist_of_mem os h
  rw [o.nodes_eq_cons] at hnodes
  exact (List.sublist_cons_self _ _).trans hnodes

mutual

theorem Outline.map_id_nodes : ∀ o : Outline, o.nodes.map Outline.id = o.ids
  | .construct _ _ => rfl
  | .fragment id _ _ children => congrArg (id :: ·) (map_id_outlinesIn children)

/-- The numbers of an outline are those of its nodes. -/
theorem map_id_outlinesIn : ∀ os : List Outline, (outlinesIn os).map Outline.id = idsAll os
  | [] => rfl
  | o :: os => by
    rw [outlinesIn, idsAll, List.map_append, o.map_id_nodes, map_id_outlinesIn os]

end

mutual

theorem Outline.map_toNode_nodes : ∀ o : Outline, o.nodes.map Outline.toNode = o.toNode.nodes
  | .construct _ _ => rfl
  | .fragment _ _ _ children => congrArg (_ :: ·) (map_toNode_outlinesIn children)

/-- Numbering keeps the reading order. -/
theorem map_toNode_outlinesIn : ∀ os : List Outline,
    (outlinesIn os).map Outline.toNode = nodesIn (toNodes os)
  | [] => rfl
  | o :: os => by
    rw [outlinesIn, toNodes, nodesIn, List.map_append, o.map_toNode_nodes,
      map_toNode_outlinesIn os]

end

mutual

theorem Node.toNode_outline : ∀ (n : Node) (id ordinal : Nat), (n.outline id ordinal).toNode = n
  | .construct _, _, _ => rfl
  | .fragment children location, id, ordinal =>
    congrArg (Node.fragment · location) (toNodes_outlineAll children (id + 1) (ordinal + 1))

/-- **Numbering keeps the nodes.** -/
theorem toNodes_outlineAll : ∀ (ns : List Node) (id ordinal : Nat),
    toNodes (outlineAll id ordinal ns) = ns
  | [], _, _ => rfl
  | n :: ns, id, ordinal => by
    rw [outlineAll, toNodes, n.toNode_outline, toNodes_outlineAll ns]

end

mutual

theorem Node.eq_outline_of_mem {o : Outline} : ∀ (n : Node) (id ordinal : Nat),
    o ∈ (n.outline id ordinal).nodes → ∃ (n : Node) (id ordinal : Nat), o = n.outline id ordinal
  | .construct c, id, ordinal, h => ⟨.construct c, id, ordinal, List.mem_singleton.mp h⟩
  | .fragment children location, id, ordinal, h => by
    rcases List.mem_cons.mp h with h | h
    · exact ⟨.fragment children location, id, ordinal, h⟩
    · exact eq_outline_of_mem_outlineAll children (id + 1) (ordinal + 1) h

/-- Each node in an outline was numbered by itself, with all it wraps. -/
theorem eq_outline_of_mem_outlineAll {o : Outline} : ∀ (ns : List Node) (id ordinal : Nat),
    o ∈ outlinesIn (outlineAll id ordinal ns) →
      ∃ (n : Node) (id ordinal : Nat), o = n.outline id ordinal
  | [], _, _, h => nomatch h
  | n :: ns, id, ordinal, h => by
    rcases List.mem_append.mp h with h | h
    · exact n.eq_outline_of_mem id ordinal h
    · exact eq_outline_of_mem_outlineAll ns (id + n.size) (ordinal + n.fragmentCount) h

end

/-! ### What is entered -/

theorem Node.length_nodes_outline (n : Node) (id ordinal : Nat) :
    (n.outline id ordinal).nodes.length = n.size := by
  rw [← List.length_map Outline.id, Outline.map_id_nodes, n.ids_outline, List.length_range']

mutual

/-- **Entering a node** appends the entries of the node and of all it wraps, with the numbers that
the outline gives them if it begins at the number of entries there are. -/
theorem Node.enter_eq : ∀ (n : Node) (entries : List Entry) (ordinal : Nat),
    n.enter entries =
      (entries.length, entries ++ (n.outline entries.length ordinal).nodes.map Outline.entry)
  | .construct c, entries, ordinal => rfl
  | .fragment children location, entries, ordinal => by
    rw [Node.enter, enterAll_eq children _ (ordinal + 1)]
    dsimp only
    -- only the children of the fragment are still to be put down, behind the old entries
    rw [List.append_assoc, List.modify_eq_take_drop, List.take_left, List.drop_left,
      List.singleton_append, List.modifyHead_cons, List.length_append, List.length_singleton,
      Node.outline, Outline.nodes, List.map_cons, Outline.entry, Outline.toNode,
      toNodes_outlineAll, Outline.children]

theorem enterAll_eq : ∀ (ns : List Node) (entries : List Entry) (ordinal : Nat),
    enterAll entries ns =
      ((outlineAll entries.length ordinal ns).map Outline.id,
        entries ++ (outlinesIn (outlineAll entries.length ordinal ns)).map Outline.entry)
  | [], entries, ordinal => by
    rw [enterAll, outlineAll, outlinesIn, List.map_nil, List.map_nil, List.append_nil]
  | n :: ns, entries, ordinal => by
    have hlength : (entries ++ (n.outline entries.length ordinal).nodes.map Outline.entry).length =
        entries.length + n.size := by
      rw [List.length_append, List.length_map, n.length_nodes_outline]
    have hid : (n.outline entries.length ordinal).id = entries.length := by cases n <;> rfl
    rw [enterAll, n.enter_eq entries ordinal]
    dsimp only
    rw [enterAll_eq ns _ (ordinal + n.fragmentCount), hlength, outlineAll, outlinesIn,
      List.map_cons, List.map_append, List.append_assoc, hid]

end

/-- **The register of a phrase is that of its outline.** -/
theorem Phrase.register_eq (p : Phrase) : p.register = .ofOutline p.outline := by
  rw [Phrase.register, enterAll_eq p.children [] 0]
  rfl

/-! ### Looking up numbers -/

/-- The nodes of an outline are numbered from zero on, in reading order. -/
theorem Phrase.map_id_outline (p : Phrase) :
    (outlinesIn p.outline).map Outline.id = List.range (sizeAll p.children) := by
  rw [map_id_outlinesIn, p.idsAll_outline]

/-- A number leads to the node of the outline that bears it. -/
theorem Phrase.getElem?_outlinesIn {p : Phrase} {id : Nat} {o : Outline} :
    (outlinesIn p.outline)[id]? = some o ↔ o ∈ outlinesIn p.outline ∧ o.id = id := by
  have hid : ∀ i, (outlinesIn p.outline)[i]? = some o → o.id = i := by
    intro i h
    have hget := congrArg (·[i]?) p.map_id_outline
    simp only [List.getElem?_map, h, Option.map_some] at hget
    obtain ⟨_, hget⟩ := List.getElem?_eq_some_iff.mp hget.symm
    rw [← hget, List.getElem_range]
  constructor
  · exact fun h => ⟨List.mem_of_getElem? h, hid id h⟩
  · rintro ⟨ho, rfl⟩
    obtain ⟨i, h⟩ := List.mem_iff_getElem?.mp ho
    rwa [hid i h]

theorem Phrase.node?_register {p : Phrase} {o : Outline} (h : o ∈ outlinesIn p.outline) :
    p.register.node? o.id = some o.toNode := by
  rw [p.register_eq, Register.node?, Register.ofOutline, List.getElem?_map,
    Phrase.getElem?_outlinesIn.mpr ⟨h, rfl⟩]
  rfl

theorem Phrase.children_register {p : Phrase} {o : Outline} (h : o ∈ outlinesIn p.outline) :
    p.register.children o.id = o.children.map Outline.id := by
  rw [p.register_eq, Register.children, Register.ofOutline, List.getElem?_map,
    Phrase.getElem?_outlinesIn.mpr ⟨h, rfl⟩]
  rfl

/-- Each number that leads to a node is that of a node of the outline. -/
theorem Phrase.exists_outline_of_node? {p : Phrase} {id : Nat} {n : Node}
    (h : p.register.node? id = some n) : ∃ o ∈ outlinesIn p.outline, o.id = id ∧ o.toNode = n := by
  rw [p.register_eq, Register.node?, Register.ofOutline, List.getElem?_map] at h
  obtain ⟨e, he, rfl⟩ := Option.map_eq_some_iff.mp h
  obtain ⟨o, ho, rfl⟩ := Option.map_eq_some_iff.mp he
  obtain ⟨hmem, hid⟩ := Phrase.getElem?_outlinesIn.mp ho
  exact ⟨o, hmem, hid, rfl⟩

/-! ### Siblings -/

mutual

theorem Outline.levels_eq_filter : ∀ o : Outline,
    (o.nodes.filter Outline.isFragment).map Outline.children = o.levels
  | .construct _ _ => rfl
  | .fragment _ _ _ children => congrArg (children :: ·) (levelsAll_eq_filter children)

/-- The levels of an outline are the children of its fragments. -/
theorem levelsAll_eq_filter : ∀ os : List Outline,
    ((outlinesIn os).filter Outline.isFragment).map Outline.children = levelsAll os
  | [] => rfl
  | o :: os => by
    rw [outlinesIn, levelsAll, List.filter_append, List.map_append, o.levels_eq_filter,
      levelsAll_eq_filter os]

end

theorem Phrase.levels_register (p : Phrase) :
    p.register.levels = p.levels.map (·.map Outline.id) := by
  have hfragment : ∀ o : Outline, o.entry.node.isFragment = o.isFragment := fun o => by
    cases o <;> rfl
  rw [p.register_eq, Register.levels, Register.ofOutline, Phrase.levels, List.map_cons,
    ← levelsAll_eq_filter, List.filter_map, List.map_map, List.map_map]
  simp only [Function.comp_def, hfragment]
  rfl

theorem map_id_sublist (os : List Outline) : (os.map Outline.id).Sublist (idsAll os) := by
  induction os with
  | nil => exact .slnil
  | cons o os ih =>
    have hhead : [o.id].Sublist o.ids := by
      cases o with
      | construct id c => exact .refl _
      | fragment id ordinal location children => exact (List.nil_sublist _).cons_cons id
    exact hhead.append ih

mutual

theorem Outline.idsAll_level_sublist {level : List Outline} : ∀ o : Outline, level ∈ o.levels →
    (idsAll level).Sublist o.ids
  | .construct _ _, h => nomatch h
  | .fragment id _ _ children, h => by
    rcases List.mem_cons.mp h with rfl | h
    · exact List.sublist_cons_self _ _
    · exact (idsAll_level_sublist children h).cons id

/-- The numbers on a level come in the order they have in the whole outline. -/
theorem idsAll_level_sublist {level : List Outline} : ∀ os : List Outline, level ∈ levelsAll os →
    (idsAll level).Sublist (idsAll os)
  | [], h => nomatch h
  | o :: os, h => by
    rcases List.mem_append.mp h with h | h
    · exact (o.idsAll_level_sublist h).trans (List.sublist_append_left _ _)
    · exact (idsAll_level_sublist os h).trans (List.sublist_append_right _ _)

end

/-- **The numbers of siblings increase.** -/
theorem Phrase.pairwise_level {p : Phrase} {level : List Outline} (h : level ∈ p.levels) :
    (level.map Outline.id).Pairwise (· < ·) := by
  refine p.pairwise_ids.sublist ((map_id_sublist level).trans ?_)
  rcases List.mem_cons.mp h with rfl | h
  · exact .refl _
  · exact idsAll_level_sublist p.outline h

mutual

theorem Outline.perm_ids : ∀ o : Outline,
    (o.id :: (o.levels.flatMap (·.map Outline.id))).Perm o.ids
  | .construct _ _ => .refl _
  | .fragment id _ _ children => (perm_idsAll children).cons id

/-- **Each number is on one level**: that on which its node stands. -/
theorem perm_idsAll : ∀ os : List Outline,
    (os.map Outline.id ++ (levelsAll os).flatMap (·.map Outline.id)).Perm (idsAll os)
  | [] => .refl _
  | o :: os => by
    rw [List.map_cons, levelsAll, List.flatMap_append, idsAll, List.cons_append]
    refine .trans ?_ (o.perm_ids.append (perm_idsAll os))
    rw [List.cons_append]
    exact (List.perm_append_comm_assoc _ _ _).cons _

end

/-! ### What a fragment wraps -/

section Wraps

variable {p : Phrase} {o : Outline}

mutual

theorem Outline.wraps_of_mem {id' : Nat} : ∀ o : Outline,
    o.nodes.Sublist (outlinesIn p.outline) → id' ∈ idsAll o.children → p.register.Wraps o.id id'
  | .construct _ _, _, h => nomatch h
  | .fragment id ordinal location children, ho, h => by
    have hchildren := Phrase.children_register (ho.subset (Outline.self_mem_nodes _))
    refine wraps_of_memAll children ((List.sublist_cons_self _ _).trans ho) (fun c hc => ?_) h
    rw [hchildren]
    exact List.mem_map_of_mem hc

/-- All that stands below a number is wrapped by it. -/
theorem wraps_of_memAll {id id' : Nat} : ∀ os : List Outline,
    (outlinesIn os).Sublist (outlinesIn p.outline) → (∀ o ∈ os, o.id ∈ p.register.children id) →
      id' ∈ idsAll os → p.register.Wraps id id'
  | [], _, _, h => nomatch h
  | o :: os, hos, hchildren, h => by
    have hchild := hchildren o List.mem_cons_self
    rcases List.mem_append.mp h with h | h
    · rw [← o.map_id_nodes, o.nodes_eq_cons, List.map_cons, map_id_outlinesIn] at h
      rcases List.mem_cons.mp h with rfl | h
      · exact .single hchild
      · exact .head hchild (o.wraps_of_mem ((List.sublist_append_left _ _).trans hos) h)
    · exact wraps_of_memAll os ((List.sublist_append_right _ _).trans hos)
        (fun o ho => hchildren o (List.mem_cons_of_mem _ ho)) h

end

/-- **A number wraps the numbers of what its node wraps**, and no others. -/
theorem Phrase.wraps_iff (ho : o ∈ outlinesIn p.outline) {id : Nat} :
    p.register.Wraps o.id id ↔ id ∈ idsAll o.children := by
  constructor
  · intro h
    have hstep : ∀ {o id}, o ∈ outlinesIn p.outline → id ∈ p.register.children o.id →
        id ∈ idsAll o.children := fun {o id} ho hid => by
      rw [Phrase.children_register ho] at hid
      exact (map_id_sublist _).subset hid
    induction h with
    | single h => exact hstep ho h
    | @tail id id' _ h ih =>
      -- the node between stands in `o`, hence all that stands in it does as well
      rw [← map_id_outlinesIn] at ih ⊢
      obtain ⟨o', ho', rfl⟩ := List.mem_map.mp ih
      have hid := hstep ((outlinesIn_children_sublist ho).subset ho') h
      rw [← map_id_outlinesIn] at hid
      exact ((outlinesIn_children_sublist ho').map _).subset hid
  · exact o.wraps_of_mem (nodes_sublist_of_mem _ ho)

end Wraps

/-! ### The register lists the phrase -/

/-- **A register lists a phrase.** -/
structure Register.Lists (r : Register) (p : Phrase) : Prop where
  /-- The entries are the nodes of the phrase at every depth, in reading order. -/
  nodes : r.entries.map (·.node) = nodesIn p.children
  /-- There are as many as the phrase has nodes. -/
  length : r.entries.length = sizeAll p.children
  /-- The node with a number in the outline is the one entered under this number, and the `i`-th
  node of the outline has the number `i`. -/
  outline : r = .ofOutline p.outline ∧
    (outlinesIn p.outline).map Outline.id = List.range (sizeAll p.children)
  /-- The lists of siblings are the levels of the phrase. -/
  levels : r.levels = p.levels.map (·.map Outline.id)
  /-- The numbers of siblings increase. -/
  increasing : ∀ ids ∈ r.levels, ids.Pairwise (· < ·)
  /-- Each number is on one of the lists of siblings, once. -/
  once : r.levels.flatten.Perm (List.range (sizeAll p.children))
  /-- The nodes at the top are those of the phrase itself, in their order. -/
  top : r.top.map r.node? = p.children.map some
  /-- The children of a fragment are its own, in their order. -/
  children : ∀ id children location, r.node? id = some (.fragment children location) →
    (r.children id).map r.node? = children.map some
  /-- A fragment wraps the numbers of the block right behind its own. -/
  block : ∀ id children location, r.node? id = some (.fragment children location) →
    ∀ id', r.Wraps id id' ↔ id < id' ∧ id' ≤ id + sizeAll children

section Fragments

variable {p : Phrase} {id : Nat} {children : List Node} {location : Location}

/-- Nodes that stand in the outline are found under their numbers. -/
theorem Phrase.map_node?_register {os : List Outline}
    (h : (outlinesIn os).Sublist (outlinesIn p.outline)) :
    (os.map Outline.id).map p.register.node? = (toNodes os).map some := by
  rw [toNodes_eq_map, List.map_map, List.map_map]
  refine List.map_congr_left fun o ho => ?_
  exact Phrase.node?_register (h.subset (mem_outlinesIn ho))

theorem Phrase.map_node?_children (h : p.register.node? id = some (.fragment children location)) :
    (p.register.children id).map p.register.node? = children.map some := by
  obtain ⟨o, ho, rfl, hnode⟩ := Phrase.exists_outline_of_node? h
  rw [Phrase.children_register ho, Phrase.map_node?_register (outlinesIn_children_sublist ho)]
  cases o with
  | construct => exact nomatch hnode
  | fragment => rw [← (Node.fragment.inj hnode).1, Outline.children]

theorem Phrase.wraps_fragment_iff (h : p.register.node? id = some (.fragment children location))
    {id' : Nat} : p.register.Wraps id id' ↔ id < id' ∧ id' ≤ id + sizeAll children := by
  obtain ⟨o, ho, rfl, hnode⟩ := Phrase.exists_outline_of_node? h
  obtain ⟨n, id, ordinal, rfl⟩ := eq_outline_of_mem_outlineAll p.children 0 0 ho
  rw [n.toNode_outline] at hnode
  subst hnode
  -- what the fragment wraps was numbered from the number behind its own on
  rw [Phrase.wraps_iff ho, Node.outline, Outline.children, idsAll_outlineAll, List.mem_range'_1,
    Outline.id]
  omega

end Fragments

/-- **The register of a phrase lists it** in reading order, and agrees with its outline. -/
theorem Phrase.register_lists (p : Phrase) : p.register.Lists p := by
  have hnodes : toNodes p.outline = p.children := toNodes_outlineAll p.children 0 0
  refine
    { nodes := ?_, length := ?_, outline := ⟨p.register_eq, p.map_id_outline⟩,
      levels := p.levels_register, increasing := ?_, once := ?_, top := ?_,
      children := fun _ _ _ => Phrase.map_node?_children,
      block := fun _ _ _ h _ => Phrase.wraps_fragment_iff h }
  · rw [p.register_eq, Register.ofOutline, List.map_map, ← hnodes]
    exact map_toNode_outlinesIn p.outline
  · rw [p.register_eq, Register.ofOutline, List.length_map, ← List.length_map Outline.id,
      p.map_id_outline, List.length_range]
  · rw [p.levels_register]
    exact List.forall_mem_map.mpr fun level hlevel => Phrase.pairwise_level hlevel
  · rw [p.levels_register, ← p.idsAll_outline, Phrase.levels, List.map_cons, List.flatten_cons,
      ← List.flatMap_def]
    exact perm_idsAll p.outline
  · have htop : p.register.top = p.outline.map Outline.id := by
      rw [p.register_eq]
      rfl
    rw [htop, Phrase.map_node?_register (.refl _), hnodes]

end Phrasebook
