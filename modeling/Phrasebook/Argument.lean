import Phrasebook.Axis
import Phrasebook.Payload

/-!
# Runtime arguments

The values a compiled phrase needs when it runs. A **call** feeds one of them:
it names the helper that takes it and the expressions it is made of. The
arguments of a phrase are calls, fragments – each with a payload and arguments
of its own – and **temporaries**, which stand for a call evaluated ahead of the
phrase and shared by all its levels.
-/

namespace Phrasebook

/-- By what the value of a param varies. -/
inductive ParamVariation where
  | none
  | number
  | gender (gender : Expr)

/-- The runtime helper a value is fed to. -/
inductive Call where
  | param (token : TokenName) (value : Expr) (variation : ParamVariation)
  | name (token : TokenName) (value gender : Expr)
  /-- Without a token the count is not shown. -/
  | plural (count : Expr) (token : Option TokenName) (value : Option Expr)
  | enumeration (value : Expr) (keys : List String)
  | pronoun (usage : PronounUsage) (gender : Expr) (human : Bool)
  | subject (gender : Expr)

/-- By what a param varies; a gender takes precedence. -/
def Param.variation (p : Param) : ParamVariation :=
  match p.gender with
  | some g => .gender g
  | none => if p.number then .number else .none

/-- The call a construct makes, if it needs a value of its own. -/
def Construct.call? : Construct → Option Call
  | param p => some (.param p.name p.value p.variation)
  | name n => some (.name n.name n.value n.gender)
  | plural p => some (.plural p.count p.shownToken? p.value)
  | enumeration e => some (.enumeration e.value e.keys)
  | pronoun p => some (.pronoun p.usage p.gender p.human)
  | text _ | sameParam _ => none

/-- The call that drives an axis: the subject's, or that of its first
contributor. -/
def Axis.call? (subject : Option Expr) (a : Axis) : Option Call :=
  match a.owner with
  | .subject => subject.map .subject
  | _ => a.contributors.head?.bind (·.construct.call?)

/-- One argument of a compiled phrase. -/
inductive Argument where
  /-- The value of the temporary at this place. -/
  | temporary (index : Nat)
  | call (call : Call)
  /-- A fragment, under its alias, with what it says and needs itself. -/
  | fragment (aliasName : TokenName) (payload : Payload) (arguments : List Argument)

/-- A fragment of a compiled phrase. -/
structure FragmentPhrase where
  aliasName : TokenName
  payload : Payload
  arguments : List Argument

mutual

/-- The fragments in an argument, in reading order. -/
def Argument.fragments : Argument → List FragmentPhrase
  | .temporary _ => []
  | .call _ => []
  | .fragment aliasName payload arguments =>
    ⟨aliasName, payload, arguments⟩ :: fragmentsIn arguments

/-- The fragments in some arguments, in reading order. -/
def fragmentsIn : List Argument → List FragmentPhrase
  | [] => []
  | a :: rest => a.fragments ++ fragmentsIn rest

end

end Phrasebook
