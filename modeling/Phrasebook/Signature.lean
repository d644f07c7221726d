import Phrasebook.Axis

/-!
# Signatures

A **signature** chooses one value on every axis. It fixes the wording of the
whole phrase, and the keys of its values, outermost axis first, are the path of
that wording in a text table.
-/

namespace Phrasebook

/-- One value for each axis, in the order of the axes. -/
abbrev Signature := List AxisValue

/-- The path of a signature in a text table. -/
def Signature.path (s : Signature) : List String :=
  s.map AxisValue.tableKey

/-- **Every signature over some axes**: the first axis varies slowest, and each
takes its values in their order. Without axes there is one, the empty one. -/
def signatures : List Axis → List Signature
  | [] => [[]]
  | a :: rest => a.candidates.flatMap fun v => (signatures rest).map (v :: ·)

/-- The value a signature gives to the axis of a node. -/
def Signature.valueFor (axes : List Axis) (s : Signature) (id : Nat) : Option AxisValue :=
  (drivenAxis? axes id).bind (s[·]?)

end Phrasebook
