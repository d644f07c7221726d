import Phrasebook.Expr
import Phrasebook.Location
import Phrasebook.Pronoun
import Phrasebook.TokenName

/-!
# Phrases

A **phrase** is a translatable text with moving parts: a description for the
translator, options, and an ordered list of nodes. A node is either a
**construct** – literal text, or a part that depends on a runtime value – or a
**fragment**, such as a markup element, that wraps nodes of its own.

All of it is plain data. Which parts vary, by what, and how they read is decided
by the modules that compile a phrase.
-/

namespace Phrasebook

/-! ### Constructs -/

/-- Literal text. -/
structure LiteralText where
  value : String
  location : Location := {}

/-- A named placeholder for a runtime value. With `number` its value is also
formatted as a number; with `gender` it carries a gender that wordings may
agree with. -/
structure Param where
  name : TokenName
  value : Expr
  number : Bool := false
  gender : Option Expr := none
  location : Location := {}

/-- One choice of an enumeration: the key a runtime value selects it by, and the
text it reads as. -/
structure EnumEntry where
  key : String
  text : String
deriving DecidableEq

/-- A runtime value that selects one of an ordered range of texts. -/
structure Enumeration where
  value : Expr
  range : List EnumEntry
  location : Location := {}

namespace Enumeration

/-- The keys of an enumeration, in order. -/
def keys (e : Enumeration) : List String :=
  e.range.map (·.key)

/-- The text selected by a key. -/
def wordingFor? (e : Enumeration) (key : String) : Option String :=
  (e.range.find? (·.key = key)).map (·.text)

end Enumeration

/-- When a plural shows its count. -/
inductive ShowCount where
  /-- Always, `1 photo` included. -/
  | yes
  | no
  /-- In the plural form only. -/
  | ifMany
deriving DecidableEq

namespace ShowCount

/-- Every way to show a count. -/
def all : List ShowCount :=
  [yes, no, ifMany]

/-- The name an option gives it by. -/
def name : ShowCount → String
  | yes => "yes"
  | no => "no"
  | ifMany => "ifMany"

/-- The way to show a count that a name stands for. -/
def ofName? (name : String) : Option ShowCount :=
  all.find? (·.name = name)

end ShowCount

/-- A count that chooses between a singular and a plural wording. -/
structure Plural where
  singular : String
  count : Expr
  /-- The plural wording, if it is not the singular with an `s`. -/
  many : Option String := none
  showCount : ShowCount := .no
  name : Option TokenName := none
  /-- What is displayed in place of the count. -/
  value : Option Expr := none
  location : Location := {}

namespace Plural

/-- The token of the displayed count. -/
def token (p : Plural) : TokenName :=
  p.name.getD .defaultCount

/-- The token a plural puts into its text, if it shows its count. -/
def shownToken? (p : Plural) : Option TokenName :=
  if p.showCount = .no then none else some p.token

/-- The plural wording. -/
def manyWording (p : Plural) : String :=
  p.many.getD (p.singular ++ "s")

end Plural

/-- The name of a person, with their gender. -/
structure PersonName where
  name : TokenName
  value : Expr
  gender : Expr
  location : Location := {}

/-- A pronoun whose word a runtime gender decides. -/
structure Pronoun where
  usage : PronounUsage
  gender : Expr
  /-- The referent is known to be a person. -/
  human : Bool := false
  capitalize : Bool := false
  location : Location := {}

/-- One more occurrence of a token declared earlier in the phrase. -/
structure SameParam where
  name : TokenName
  location : Location := {}

/-- A part of a phrase that wraps no others. -/
inductive Construct where
  | text (text : LiteralText)
  | param (param : Param)
  | enumeration (enumeration : Enumeration)
  | plural (plural : Plural)
  | name (name : PersonName)
  | pronoun (pronoun : Pronoun)
  | sameParam (same : SameParam)

namespace Construct

/-- Where a construct stands in its source. -/
def location : Construct → Location
  | text t => t.location
  | param p => p.location
  | enumeration e => e.location
  | plural p => p.location
  | name n => n.location
  | pronoun p => p.location
  | sameParam s => s.location

/-- The kind of a construct, as diagnostics name it. -/
def kindLabel : Construct → String
  | text _ => "text"
  | param _ => "param"
  | enumeration _ => "enum"
  | plural _ => "plural"
  | name _ => "name"
  | pronoun _ => "pronoun"
  | sameParam _ => "sameParam"

/-- The token a construct declares: a later construct may refer to it, and no
other may declare it again. -/
def token? : Construct → Option TokenName
  | param p => some p.name
  | name n => some n.name
  | plural p => p.shownToken?
  | text _ | enumeration _ | pronoun _ | sameParam _ => none

end Construct

/-! ### Nodes and phrases -/

/-- A node of a phrase. -/
inductive Node where
  | construct (construct : Construct)
  /-- A fragment wrapping nodes of its own. -/
  | fragment (children : List Node) (location : Location)

/-- The options of a whole phrase. -/
structure PhraseOptions where
  /-- Takes precedence over the project of the file. -/
  project : Option String := none
  author : Option String := none
  /-- The phrase is compiled but not handed to translators. -/
  doNotExtract : Bool := false
  /-- The gender of the subject of the phrase, by which all of it varies. -/
  subject : Option Expr := none

/-- A phrase. -/
structure Phrase where
  description : String
  options : PhraseOptions := {}
  children : List Node
  location : Location := {}

end Phrasebook
