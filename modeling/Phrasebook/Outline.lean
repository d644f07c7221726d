import Phrasebook.Phrase

/-!
# The outline of a phrase

The **outline** of a phrase is its tree of nodes with every node numbered in
reading order: a node comes before the nodes it wraps, and those before the
nodes that follow it. All that is decided about a node – the axis it drives, the
token it renders, the alias it goes by – is decided by its number, so that two
nodes that read alike are never taken for one another.

A fragment also carries how many fragments open before it, which is what its
alias is made of. A **level** is a list of siblings: the nodes of the phrase
itself, or those one fragment wraps.
-/

namespace Phrasebook

/-! ### Counting nodes -/

mutual

/-- The number of nodes in a node: itself and all it wraps. -/
def Node.size : Node → Nat
  | .construct _ => 1
  | .fragment children _ => sizeAll children + 1

/-- The number of nodes in a list of nodes. -/
def sizeAll : List Node → Nat
  | [] => 0
  | n :: ns => n.size + sizeAll ns

end

mutual

/-- The number of fragments in a node. -/
def Node.fragmentCount : Node → Nat
  | .construct _ => 0
  | .fragment children _ => fragmentCountAll children + 1

/-- The number of fragments in a list of nodes. -/
def fragmentCountAll : List Node → Nat
  | [] => 0
  | n :: ns => n.fragmentCount + fragmentCountAll ns

end

/-! ### Numbering nodes -/

/-- A node with its number. -/
inductive Outline where
  | construct (id : Nat) (construct : Construct)
  /-- A fragment that opens after `ordinal` others. -/
  | fragment (id ordinal : Nat) (location : Location) (children : List Outline)

/-- The number of a node. -/
def Outline.id : Outline → Nat
  | .construct id _ => id
  | .fragment id _ _ _ => id

mutual

/-- Numbers a node and all it wraps, from `id` on; `ordinal` fragments come
before it. -/
def Node.outline (id ordinal : Nat) : Node → Outline
  | .construct c => .construct id c
  | .fragment children location =>
    .fragment id ordinal location (outlineAll (id + 1) (ordinal + 1) children)

/-- Numbers a list of nodes, from `id` on. -/
def outlineAll (id ordinal : Nat) : List Node → List Outline
  | [] => []
  | n :: ns =>
    n.outline id ordinal :: outlineAll (id + n.size) (ordinal + n.fragmentCount) ns

end

/-- **The outline of a phrase**: its nodes, numbered from zero. -/
def Phrase.outline (p : Phrase) : List Outline :=
  outlineAll 0 0 p.children

/-! ### Reading an outline -/

/-- A construct and its number. -/
structure Placed where
  id : Nat
  construct : Construct

mutual

/-- The constructs in a node, in reading order. -/
def Outline.constructs : Outline → List Placed
  | .construct id construct => [{ id, construct }]
  | .fragment _ _ _ children => constructsAll children

/-- The constructs in a list of nodes, in reading order. -/
def constructsAll : List Outline → List Placed
  | [] => []
  | o :: os => o.constructs ++ constructsAll os

end

mutual

/-- The levels inside a node: what each of its fragments wraps, in reading
order. -/
def Outline.levels : Outline → List (List Outline)
  | .construct _ _ => []
  | .fragment _ _ _ children => children :: levelsAll children

/-- The levels inside a list of nodes. -/
def levelsAll : List Outline → List (List Outline)
  | [] => []
  | o :: os => o.levels ++ levelsAll os

end

/-- Whether a node is a fragment. -/
def Outline.isFragment : Outline → Bool
  | .construct _ _ => false
  | .fragment _ _ _ _ => true

/-- Whether some node of a level is a fragment. A level that holds none has none
further down. -/
def hasFragment (level : List Outline) : Bool :=
  level.any Outline.isFragment

end Phrasebook
