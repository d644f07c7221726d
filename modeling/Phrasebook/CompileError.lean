import Phrasebook.Expr.Print
import Phrasebook.Phrase

/-!
# Reasons to reject a phrase

A phrase is compiled whole or rejected with one `Phrasebook.CompileError`: a
cause, with the location of the construct it was raised for. The wording of a
cause is in `Phrasebook.CompileError.message` and nowhere else.
-/

namespace Phrasebook

/-- What is wrong with the arguments of a call. -/
inductive Malformation where
  /-- The number of arguments is outside its bounds. -/
  | argumentCount (function : String) (least most given : Nat)
  /-- `what`, which must be known in advance, is of some other kind. -/
  | notStaticString (function what kind : String)
  | bothGenderAndNumber (name : String)
  | computedRangeKey
  | rangeKind (kind : String)
  | emptyRange
  | duplicateKey (key : String)
  | countGivenTwice
  | noCount
  | usageKind (kind : String)
  | unknownUsage (name : String)
  | optionsKind (kind : String)
  | computedOptionKey
  | optionKind (key kind : String)
  /-- Enumerations over the same keys select by different values. -/
  | differentValues (first other : Expr)

namespace Malformation

/-- A number of arguments, or the bounds it must keep. -/
def countText (least most : Nat) : String :=
  if least = most then toString least else toString least ++ " to " ++ toString most

/-- The wording of a malformation. -/
def message : Malformation → String
  | argumentCount function least most given =>
    "Expected " ++ function ++ "() to have " ++ countText least most ++ " arguments, but got " ++
      toString given
  | notStaticString function what kind =>
    "Expected " ++ what ++ " of " ++ function ++ "() to be a string literal, but got `" ++ kind ++
      "`"
  | bothGenderAndNumber name =>
    "fbt.param \"" ++ name ++ "\" cannot vary by both gender and number"
  | computedRangeKey => "fbt.enum range keys must be known at compile time"
  | rangeKind kind =>
    "Expected the range of fbt.enum() to be an array or object literal, but got `" ++ kind ++ "`"
  | emptyRange => "fbt.enum() needs at least one range value"
  | duplicateKey key => "fbt.enum() range has a duplicate key \"" ++ key ++ "\""
  | countGivenTwice => "fbt.plural() count was given both as an argument and as an option"
  | noCount => "fbt.plural() needs a count"
  | usageKind kind =>
    "`usage`, the first argument of fbt.pronoun() must be a `StringLiteral` but we got `" ++ kind ++
      "`"
  | unknownUsage name =>
    "`usage`, the first argument of fbt.pronoun() - Expected value to be one of [" ++
      ", ".intercalate (PronounUsage.all.map (·.name)) ++ "] but we got '" ++ name ++
      "' (string) instead"
  | optionsKind kind => "Expected options to be an object literal, but got `" ++ kind ++ "`"
  | computedOptionKey => "Option keys must be known at compile time"
  | optionKind key kind =>
    "Option \"" ++ key ++ "\" must be a string literal, but got `" ++ kind ++ "`"
  | differentValues first other =>
    "fbt.enum() calls with the same range must share a value, but got `" ++ first.print ++
      "` and `" ++ other.print ++ "`"

end Malformation

/-- Why a phrase is rejected. -/
inductive CompileError where
  /-- A call has arguments of the wrong shape. -/
  | malformed (cause : Malformation) (location : Location)
  /-- Two tokens of the phrase share a name. -/
  | tokenCollision (name : TokenName) (location : Location)
  /-- A token is referred to that nothing before declares. -/
  | unknownSameParam (name : TokenName) (location : Location)
  /-- An argument that must be evaluated ahead of the phrase holds a call; with
  `direct` it is itself that call. -/
  | unsafeHoist (argument construct : String) (axis : Nat) (direct : Bool) (location : Location)
  /-- A known option has a value it does not take. -/
  | invalidOptionValue (option value : String) (allowed : List String) (location : Location)
  /-- An option is not known. -/
  | unknownOption (option : String) (allowed suggestions : List String) (location : Location)

namespace CompileError

/-- The location of the construct at fault. -/
def location : CompileError → Location
  | malformed _ l => l
  | tokenCollision _ l => l
  | unknownSameParam _ l => l
  | unsafeHoist _ _ _ _ l => l
  | invalidOptionValue _ _ _ l => l
  | unknownOption _ _ _ l => l

/-- What is offered to someone who may have misspelt an option. -/
def suggestionText : List String → String
  | [] => ""
  | [only] => " (did you mean \"" ++ only ++ "\"?)"
  | suggestions => " (did you mean one of: " ++ ", ".intercalate suggestions ++ "?)"

/-- The wording of a cause, without its location. -/
def causeText : CompileError → String
  | malformed cause _ => cause.message
  | tokenCollision name _ =>
    "There's already a token called \"" ++ name.text ++ "\" in this phrase"
  | unknownSameParam name _ => "sameParam refers to unknown token \"" ++ name.text ++ "\""
  | unsafeHoist argument construct axis direct _ =>
    "Expect string variation runtime arguments to not " ++ (if direct then "be" else "contain") ++
      " function calls or class instantiations, but \"" ++ argument ++ "\" argument of " ++
      construct ++ " axis " ++ toString axis ++ " " ++ (if direct then "is" else "contains") ++
      " a function call or class instantiation."
  | invalidOptionValue option value allowed _ =>
    "Option \"" ++ option ++ "\" has an invalid value: \"" ++ value ++ "\". Only allowed: " ++
      ", ".intercalate allowed
  | unknownOption option allowed suggestions _ =>
    "Invalid option \"" ++ option ++ "\". Only allowed: " ++ ", ".intercalate allowed ++
      suggestionText suggestions

/-- **The wording of an error**: its location and its cause. -/
def message (e : CompileError) : String :=
  e.location.text ++ ": " ++ e.causeText

end CompileError

end Phrasebook
