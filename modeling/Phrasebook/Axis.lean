import Phrasebook.Outline
import Phrasebook.PluralRules
import Phrasebook.VariationType

/-!
# Variation axes

A construct whose wording depends on a runtime value contributes an **axis**: a
dimension along which the phrase varies, with the values it may take there. The
axes of a phrase stand in the order in which they first appear, the axis of its
subject before all others (`Phrasebook.Phrase.axes`).

Two enumerations over the same keys, in the same order, share one axis. Any
other construct has an axis to itself, even if another reads the same.
-/

namespace Phrasebook

/-- What an axis varies over. -/
inductive AxisKind where
  | gender
  | number
  | enumChoice
deriving DecidableEq

/-- One value of an axis. -/
inductive AxisValue where
  /-- Any gender, or any count that has no branch of its own. -/
  | any
  /-- The count one, in the wording of the singular. -/
  | exactlyOne
  /-- A plural category. -/
  | bucket (category : PluralCategory)
  /-- A bucket of genders. -/
  | pronoun (gender : PronounGender)
  /-- The key of an enumeration. -/
  | key (key : String)
deriving DecidableEq

/-- The key of a value in a text table. -/
def AxisValue.tableKey : AxisValue → String
  | any => "*"
  | exactlyOne => "_1"
  | bucket category => toString category.code
  | pronoun gender => gender.key
  | key k => k

/-- Whose an axis is. -/
inductive AxisOwner where
  /-- The subject of the phrase. -/
  | subject
  /-- The construct of this number. -/
  | node (id : Nat)
  /-- The enumerations over these keys. -/
  | enumKeys (keys : List String)
deriving DecidableEq

/-- What a payload says of the runtime value behind an axis: the token it fills,
what the axis varies by, and whether the count one has a branch of its own. -/
structure Descriptor where
  token : TokenName
  variation : VariationType
  singular : Bool := false
deriving DecidableEq

/-- One dimension along which a phrase varies. -/
structure Axis where
  kind : AxisKind
  owner : AxisOwner
  /-- The values it may take, in the order of their branches. -/
  candidates : List AxisValue
  /-- What a payload says of it, if anything. -/
  descriptor : Option Descriptor
  /-- The constructs that vary along it, in reading order; none for the
  subject. -/
  contributors : List Placed

/-! ### Contributing an axis -/

/-- The branches of a plural: those of the rules, or else one for all counts,
and one for the count one. -/
def pluralCandidates (rules : Option PluralRules) : List AxisValue :=
  (match rules with
    | some r => r.covered.map .bucket
    | none => [.any]) ++ [.exactlyOne]

/-- An axis that a construct has to itself. -/
def Placed.ownAxis (p : Placed) (kind : AxisKind) (candidates : List AxisValue)
    (descriptor : Option Descriptor) : Axis where
  kind := kind
  owner := .node p.id
  candidates := candidates
  descriptor := descriptor
  contributors := [p]

/-- **The axis a construct contributes**, if its wording varies. -/
def Placed.axis? (rules : Option PluralRules) (p : Placed) : Option Axis :=
  match p.construct with
  | .param q =>
    if q.number then some (p.ownAxis .number [.any] (some ⟨q.name, .number, false⟩))
    else if q.gender.isSome then some (p.ownAxis .gender [.any] (some ⟨q.name, .gender, false⟩))
    else none
  | .name n => some (p.ownAxis .gender [.any] (some ⟨n.name, .gender, false⟩))
  | .pronoun q => some (p.ownAxis .gender ((q.usage.candidates q.human).map .pronoun) none)
  | .plural q =>
    some (p.ownAxis .number (pluralCandidates rules)
      (q.shownToken?.map fun token => ⟨token, .number, true⟩))
  | .enumeration e =>
    some
      { kind := .enumChoice
        owner := .enumKeys e.keys
        candidates := e.keys.map .key
        descriptor := none
        contributors := [p] }
  | .text _ | .sameParam _ => none

/-- The axis of the subject of a phrase. -/
def subjectAxis : Axis where
  kind := .gender
  owner := .subject
  candidates := [.any]
  descriptor := some ⟨.subject, .gender, false⟩
  contributors := []

/-! ### Collecting axes -/

/-- Adds an axis to those before it: its contributors join the axis of the same
owner, if there is one. -/
def addAxis : List Axis → Axis → List Axis
  | [], a => [a]
  | b :: bs, a =>
    if b.owner = a.owner then { b with contributors := b.contributors ++ a.contributors } :: bs
    else b :: addAxis bs a

/-- **The axes of a phrase**, in the order of their first appearance. -/
def Phrase.axes (rules : Option PluralRules) (p : Phrase) : List Axis :=
  let own := (constructsAll p.outline).filterMap (Placed.axis? rules)
  own.foldl addAxis (if p.options.subject.isSome then [subjectAxis] else [])

/-- Whether a node contributes to an axis. -/
def Axis.isDrivenBy (a : Axis) (id : Nat) : Bool :=
  a.contributors.any (·.id = id)

/-- The place among the axes of the one a node contributes to. -/
def drivenAxis? (axes : List Axis) (id : Nat) : Option Nat :=
  axes.findIdx? (·.isDrivenBy id)

/-- Whether a node is the first to contribute to its axis. -/
def leadsAxis (axes : List Axis) (id : Nat) : Bool :=
  axes.any fun a => (a.contributors.head?.map (·.id)) = some id

end Phrasebook
