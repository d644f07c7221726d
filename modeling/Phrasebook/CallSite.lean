import Phrasebook.CallOptions

/-!
# Constructs from calls

A front end that sees a construct as a call hands over its arguments as they
stand. The functions here check their number and shape and build the construct
from them. Where several things are wrong, the one that is met first counts:
the number of arguments, then the arguments from left to right, then the options
in the order in which the construct asks for them.
-/

namespace Phrasebook

variable (location : Location)

/-- An argument that must be known in advance: a string literal, or a sum of
string literals. -/
def knownText (function what : String) (e : Expr) : Except CompileError String :=
  match e.foldedString? with
  | some text => .ok text
  | none => .error (.malformed (.notStaticString function what e.kindLabel) location)

/-- The rejection of a number of arguments. -/
def wrongCount {α : Type} (function : String) (least most : Nat) (args : List Expr) :
    Except CompileError α :=
  .error (.malformed (.argumentCount function least most args.length) location)

namespace Param

/-- A param from a name, a value and options. -/
def ofArguments (name value : Expr) (options : Option Expr) : Except CompileError Param := do
  let name ← knownText location "fbt.param" "the name" name
  let options ← CallOptions.parse ["gender", "number"] location options
  let gender := options.get? "gender"
  let number ← options.flag "number"
  if number && gender.isSome then
    .error (.malformed (.bothGenderAndNumber name) location)
  else
    return { name := ⟨name⟩, value, number, gender, location }

/-- A param from the call `fbt.param(name, value, options?)`. -/
def ofCall : List Expr → Except CompileError Param
  | [name, value] => ofArguments location name value none
  | [name, value, options] => ofArguments location name value (some options)
  | args => wrongCount location "fbt.param" 2 3 args

end Param

namespace PersonName

/-- A name from the call `fbt.name(name, value, gender)`. -/
def ofCall : List Expr → Except CompileError PersonName
  | [name, value, gender] => do
    let name ← knownText location "fbt.name" "the name" name
    return { name := ⟨name⟩, value, gender, location }
  | args => wrongCount location "fbt.name" 3 3 args

end PersonName

namespace Enumeration

/-- The text of one choice. -/
def rangeText (e : Expr) : Except CompileError String :=
  knownText location "fbt.enum" "each range value" e

/-- A choice whose text is its own key. -/
def itemEntry (e : Expr) : Except CompileError EnumEntry := do
  let text ← rangeText location e
  return { key := text, text }

/-- A choice given as a key and a text. -/
def propertyEntry (p : Property) : Except CompileError EnumEntry :=
  match p.name? with
  | none => .error (.malformed .computedRangeKey location)
  | some key => do
    let text ← rangeText location p.value
    return { key, text }

/-- The choices of a range: an array of texts, or an object literal from keys to
texts. -/
def rangeEntries : Expr → Except CompileError (List EnumEntry)
  | .array items => items.mapM (itemEntry location)
  | .object properties => properties.mapM (propertyEntry location)
  | other => .error (.malformed (.rangeKind other.kindLabel) location)

/-- The first key that comes again, in a range that goes on after the keys
`seen`. -/
def repeatedKey? (seen : List String) : List EnumEntry → Option String
  | [] => none
  | e :: es => if e.key ∈ seen then some e.key else repeatedKey? (e.key :: seen) es

/-- An enumeration from a value and a range, which must have choices and no key
twice. -/
def ofArguments (value range : Expr) : Except CompileError Enumeration := do
  let range ← rangeEntries location range
  if range.isEmpty then
    .error (.malformed .emptyRange location)
  else
    match repeatedKey? [] range with
    | some key => .error (.malformed (.duplicateKey key) location)
    | none => return { value, range, location }

/-- An enumeration from the call `fbt.enum(value, range)`. -/
def ofCall : List Expr → Except CompileError Enumeration
  | [value, range] => ofArguments location value range
  | args => wrongCount location "fbt.enum" 2 2 args

end Enumeration

namespace Plural

/-- The count of a plural, given as an argument or as an option but not both. -/
def countOf : Option Expr → Option Expr → Except CompileError Expr
  | some count, none => .ok count
  | none, some count => .ok count
  | some _, some _ => .error (.malformed .countGivenTwice location)
  | none, none => .error (.malformed .noCount location)

/-- A plural from its singular form, a count and options. -/
def ofArguments (singular : String) (count options : Option Expr) : Except CompileError Plural := do
  let options ← CallOptions.parse ["value", "showCount", "name", "many", "count"] location options
  let count ← countOf location count (options.get? "count")
  let many ←
    match options.get? "many" with
    | some many => some <$> knownText location "fbt.plural" "the `many` option" many
    | none => pure none
  let showCount ← options.showCount "showCount"
  let name ← options.string? "name"
  let value := options.get? "value"
  return { singular, count, many, showCount, name := name.map TokenName.mk, value, location }

/-- A plural from the call `fbt.plural(singular, count, options?)`. An object
literal that is the second and last argument is taken for the options, among
which the count must then be. -/
def ofCall (args : List Expr) : Except CompileError Plural :=
  match args with
  | [singular, second] => do
    let singular ← knownText location "fbt.plural" "the singular form" singular
    match second with
    | .object properties => ofArguments location singular none (some (.object properties))
    | count => ofArguments location singular (some count) none
  | [singular, count, options] => do
    let singular ← knownText location "fbt.plural" "the singular form" singular
    ofArguments location singular (some count) (some options)
  | args => wrongCount location "fbt.plural" 2 3 args

end Plural

namespace Pronoun

/-- The usage of a pronoun, which must be a string literal naming one. -/
def usageOf (e : Expr) : Except CompileError PronounUsage :=
  match e.string? with
  | none => .error (.malformed (.usageKind e.kindLabel) location)
  | some name =>
    match PronounUsage.ofName? name with
    | none => .error (.malformed (.unknownUsage name) location)
    | some usage => .ok usage

/-- A pronoun from a usage, a gender and options. -/
def ofArguments (usage gender : Expr) (options : Option Expr) : Except CompileError Pronoun := do
  let usage ← usageOf location usage
  let options ← CallOptions.parse ["human", "capitalize"] location options
  let human ← options.flag "human"
  let capitalize ← options.flag "capitalize"
  return { usage, gender, human, capitalize, location }

/-- A pronoun from the call `fbt.pronoun(usage, gender, options?)`. -/
def ofCall : List Expr → Except CompileError Pronoun
  | [usage, gender] => ofArguments location usage gender none
  | [usage, gender, options] => ofArguments location usage gender (some options)
  | args => wrongCount location "fbt.pronoun" 2 3 args

end Pronoun

namespace SameParam

/-- A second occurrence of a token from the call `fbt.sameParam(name)`. -/
def ofCall : List Expr → Except CompileError SameParam
  | [name] => do
    let name ← knownText location "fbt.sameParam" "the name" name
    return { name := ⟨name⟩, location }
  | args => wrongCount location "fbt.sameParam" 1 1 args

end SameParam

namespace PhraseOptions

/-- The options of a phrase from an argument. -/
def ofArgument (options : Option Expr) : Except CompileError PhraseOptions := do
  let options ←
    CallOptions.parse ["author", "project", "doNotExtract", "subject"] location options
  let author ← options.string? "author"
  let project ← options.string? "project"
  let doNotExtract ← options.flag "doNotExtract"
  let subject := options.get? "subject"
  return { project, author, doNotExtract, subject }

end PhraseOptions

namespace Phrase

/-- A phrase from its nodes, a description and options. -/
def ofArguments (children : List Node) (description : Expr) (options : Option Expr) :
    Except CompileError Phrase := do
  let description ← knownText location "fbt" "the description" description
  let options ← PhraseOptions.ofArgument location options
  return { description, options, children, location }

/-- A phrase from the call `fbt(children, description, options?)`, whose children
are nodes already. -/
def ofCall (children : List Node) : List Expr → Except CompileError Phrase
  | [description] => ofArguments location children description none
  | [description, options] => ofArguments location children description (some options)
  | args => wrongCount location "fbt" 1 2 args

end Phrase

end Phrasebook
