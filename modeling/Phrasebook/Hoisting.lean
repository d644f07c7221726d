import Phrasebook.Argument
import Phrasebook.CompileError

/-!
# Hoisting

A phrase with fragments shares the values its axes run over between all its
levels: each is evaluated once, ahead of the phrase, in a **temporary**. That
moves the evaluation out of its place in the source, so an expression that picks
the value of an axis must hold no call and no construction, whose effects could
tell the difference (`Phrasebook.hoistFault?`). What is merely shown – the value
of a param, of a name, or what a plural displays – is not looked at.
-/

namespace Phrasebook

/-- A call evaluated ahead of a phrase, and the axis it drives. -/
structure Hoisted where
  axis : Nat
  call : Call

/-- The expression by which a call picks the value of its axis, with the name
diagnostics give that argument. -/
def Call.driving? : Call → Option (String × Expr)
  | enumeration value _ => some ("value", value)
  | plural count _ _ => some ("count", count)
  | pronoun _ gender _ => some ("gender", gender)
  | name _ _ gender => some ("gender", gender)
  | param _ _ (.gender gender) => some ("gender", gender)
  | subject gender => some ("subject", gender)
  | param _ _ _ => none

/-- **The temporaries of a phrase**, one for each axis. -/
def hoisted (subject : Option Expr) (axes : List Axis) : List Hoisted :=
  axes.zipIdx.filterMap fun (a, i) => (a.call? subject).map fun call => ⟨i, call⟩

/-- What stands in the way of evaluating the call of an axis ahead of a phrase:
`index` is the place of the axis, and `root` the location of the phrase. -/
def Axis.hoistFault? (subject : Option Expr) (root : Location) (a : Axis) (index : Nat) :
    Option CompileError := do
  let call ← a.call? subject
  let (argument, e) ← call.driving?
  if e.hasCall then
    let (construct, location) := match a.contributors with
      | [] => ("subject", root)
      | p :: _ => (p.construct.kindLabel, p.construct.location)
    some (.unsafeHoist argument construct index e.isCall location)
  else none

/-- The first axis whose call cannot be evaluated ahead of a phrase. -/
def hoistFault? (subject : Option Expr) (root : Location) (axes : List Axis) :
    Option CompileError :=
  axes.zipIdx.findSome? fun (a, i) => a.hoistFault? subject root i

end Phrasebook
