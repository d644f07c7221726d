import Phrasebook.Signature

/-!
# Rendering

What a phrase reads as, once every node that varies has its value. A text is
rendered in one of three ways (`Phrasebook.Mode`): as the text of a leaf, as the
name of a token, or as the description of a fragment. They differ in how a token
is written and in whether a fragment stands as one token or as the words it
wraps.

The **implicit token** of a fragment is made of those words, so it varies with
them.
-/

namespace Phrasebook

/-- How tokens and fragments are written. -/
inductive Mode where
  /-- Tokens between braces, fragments as tokens. -/
  | leaf
  /-- Tokens between brackets, fragments as the words they wrap. -/
  | tokenName
  /-- Tokens between braces, fragments as the words they wrap, but for the one
  described, which stands as its token. -/
  | description (target : Nat)
deriving DecidableEq

/-- A token as it is written in a mode. -/
def Mode.token (mode : Mode) (t : TokenName) : String :=
  match mode with
  | tokenName => t.nested
  | leaf | description _ => t.placeholder

/-- Whether a fragment stands as its token in a mode. -/
def Mode.showsToken (mode : Mode) (id : Nat) : Bool :=
  match mode with
  | leaf => true
  | tokenName => false
  | description target => target = id

/-- The values of the nodes that vary. -/
abbrev Assignment := Nat → Option AxisValue

/-! ### Constructs -/

/-- A plural, in its singular or its plural wording. -/
def Plural.render (p : Plural) (mode : Mode) (singular : Bool) : String :=
  if singular then
    match p.showCount with
    | .yes => "1 " ++ p.singular
    | .no | .ifMany => p.singular
  else
    match p.showCount with
    | .yes | .ifMany => mode.token p.token ++ " " ++ p.manyWording
    | .no => p.manyWording

/-- A word with its first letter in upper case. -/
def capitalized (word : String) : String :=
  match word.toList with
  | [] => ""
  | c :: cs => String.ofList (c.toUpper :: cs)

/-- A pronoun for a bucket of genders. -/
def Pronoun.render (p : Pronoun) (gender : PronounGender) : String :=
  if p.capitalize then capitalized (p.usage.word gender) else p.usage.word gender

/-- A construct, if `value` is what its axis takes. -/
def Construct.render (mode : Mode) (value : Option AxisValue) : Construct → String
  | text t => t.value
  | param p => mode.token p.name
  | name n => mode.token n.name
  | sameParam s => mode.token s.name
  | enumeration e =>
    match value with
    | some (.key k) => (e.wordingFor? k).getD ""
    | _ => ""
  | plural p => p.render mode (value = some .exactlyOne)
  | pronoun p =>
    match value with
    | some (.pronoun g) => p.render g
    | _ => ""

/-! ### Nodes -/

mutual

/-- A node under an assignment. -/
def Outline.render (values : Assignment) (mode : Mode) : Outline → String
  | .construct id c => c.render mode (values id)
  | .fragment id _ _ children =>
    if mode.showsToken id then
      (TokenName.implicit (renderAll values .tokenName children)).placeholder
    else renderAll values mode children

/-- **The text of a level under an assignment.** -/
def renderAll (values : Assignment) (mode : Mode) : List Outline → String
  | [] => ""
  | o :: os => o.render values mode ++ renderAll values mode os

end

/-- The implicit token of a fragment that wraps `children`. -/
def implicitToken (values : Assignment) (children : List Outline) : TokenName :=
  .implicit (renderAll values .tokenName children)

/-- The implicit token of every fragment of a level, with the alias it goes by. -/
def fragmentAliases (values : Assignment) (level : List Outline) : List (TokenName × TokenName) :=
  level.filterMap fun
    | .construct _ _ => none
    | .fragment _ ordinal _ children =>
      some (implicitToken values children, TokenName.aliasOf ordinal)

end Phrasebook
