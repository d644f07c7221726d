import Phrasebook.CompileError
import Phrasebook.Rendering

/-!
# Token declarations

The tokens of a phrase share one namespace. A construct that declares a token
must not repeat one declared before it, and a second occurrence of a token must
come after its declaration, at whatever depth either stands
(`Phrasebook.declarationFault?`).

The implicit token of a fragment is made of words that vary, so that it is
unlike the tokens declared and unlike those of its siblings has to hold of every
wording (`Phrasebook.collisionFault?`). Fragments of different levels may read
alike: one that wraps a single fragment reads as that one does.
-/

namespace Phrasebook

/-- The tokens declared by some constructs, in reading order. -/
def declaredTokens (placed : List Placed) : List TokenName :=
  placed.filterMap (·.construct.token?)

/-- The first construct that declares a token a second time, or refers to one not
declared before it; `declared` are the tokens declared so far. -/
def declarationFault? (declared : List TokenName) : List Construct → Option CompileError
  | [] => none
  | .sameParam s :: rest =>
    if s.name ∈ declared then declarationFault? declared rest
    else some (.unknownSameParam s.name s.location)
  | c :: rest =>
    match c.token? with
    | none => declarationFault? declared rest
    | some token =>
      if token ∈ declared then some (.tokenCollision token c.location)
      else declarationFault? (token :: declared) rest

/-- The first fragment of a level whose implicit token is one of `taken` or that
of a sibling before it. -/
def levelCollision? (values : Assignment) (taken : List TokenName) :
    List Outline → Option CompileError
  | [] => none
  | .construct _ _ :: rest => levelCollision? values taken rest
  | .fragment _ _ location children :: rest =>
    let token := implicitToken values children
    if token ∈ taken then some (.tokenCollision token location)
    else levelCollision? values (token :: taken) rest

/-- The first implicit token in some levels that collides under a signature. -/
def collisionFault? (values : Assignment) (declared : List TokenName)
    (levels : List (List Outline)) : Option CompileError :=
  levels.findSome? (levelCollision? values declared)

end Phrasebook
