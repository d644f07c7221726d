/-!
# Genders and pronouns

A runtime gender is one of eleven constants (`Phrasebook.Gender`). A pronoun
distinguishes fewer: which of the four **buckets** of
`Phrasebook.PronounGender` a constant falls into depends on how the pronoun is
used, since only "this" and "itself" set a thing apart from a person of unknown
gender. The buckets a usage can meet are the candidates of its axis
(`Phrasebook.PronounUsage.candidates`), and each has its English word.
-/

namespace Phrasebook

/-- The genders a runtime value may have. -/
inductive Gender where
  | notAPerson
  | femaleSingular
  | maleSingular
  | femaleSingularGuess
  | maleSingularGuess
  | mixedUnknown
  | femalePlural
  | malePlural
  | neuterPlural
  | unknownSingular
  | unknownPlural
deriving DecidableEq

namespace Gender

/-- Every gender, in the order of their codes. -/
def all : List Gender :=
  [notAPerson, femaleSingular, maleSingular, femaleSingularGuess, maleSingularGuess, mixedUnknown,
   femalePlural, malePlural, neuterPlural, unknownSingular, unknownPlural]

/-- The code of a gender: its place among all. -/
def code : Gender → Nat
  | notAPerson => 0
  | femaleSingular => 1
  | maleSingular => 2
  | femaleSingularGuess => 3
  | maleSingularGuess => 4
  | mixedUnknown => 5
  | femalePlural => 6
  | malePlural => 7
  | neuterPlural => 8
  | unknownSingular => 9
  | unknownPlural => 10

/-- The gender a code stands for. -/
def ofCode? (code : Nat) : Option Gender :=
  all.find? (·.code = code)

end Gender

/-- How a pronoun is used in its sentence. -/
inductive PronounUsage where
  | object
  | possessive
  | reflexive
  | subject
deriving DecidableEq

/-- The bucket of genders that a branch of a pronoun is for. -/
inductive PronounGender where
  | notAPerson
  | female
  | male
  | unknown
deriving DecidableEq

namespace PronounGender

/-- Every bucket, in the order of their keys, the one for any gender last. -/
def all : List PronounGender :=
  [notAPerson, female, male, unknown]

/-- The key of a bucket in a text table. -/
def key : PronounGender → String
  | notAPerson => "0"
  | female => "1"
  | male => "2"
  | unknown => "*"

/-- The bucket a key stands for. -/
def ofKey? (key : String) : Option PronounGender :=
  all.find? (·.key = key)

end PronounGender

namespace PronounUsage

/-- Every usage, in the order of their names. -/
def all : List PronounUsage :=
  [object, possessive, reflexive, subject]

/-- The name of a usage. -/
def name : PronounUsage → String
  | object => "object"
  | possessive => "possessive"
  | reflexive => "reflexive"
  | subject => "subject"

/-- The usage a name stands for. -/
def ofName? (name : String) : Option PronounUsage :=
  all.find? (·.name = name)

/-- The code a runtime call is given for a usage. -/
def code : PronounUsage → Nat
  | object => 0
  | possessive => 1
  | reflexive => 2
  | subject => 3

/-- The bucket a usage puts a gender into. -/
def bucket : PronounUsage → Gender → PronounGender
  | object, .notAPerson | reflexive, .notAPerson => .notAPerson
  | _, .femaleSingular | _, .femaleSingularGuess => .female
  | _, .maleSingular | _, .maleSingularGuess => .male
  | _, _ => .unknown

/-- The buckets a usage meets, in the order of their keys. A referent known to be
human is never a thing. -/
def candidates (usage : PronounUsage) (human : Bool) : List PronounGender :=
  PronounGender.all.filter fun b =>
    Gender.all.any fun g => !(human && g = .notAPerson) && usage.bucket g = b

/-- The English word for a usage and a bucket. -/
def word : PronounUsage → PronounGender → String
  | object, .notAPerson => "this"
  | object, .female => "her"
  | object, .male => "him"
  | object, .unknown => "them"
  | possessive, .female => "her"
  | possessive, .male => "his"
  | possessive, _ => "their"
  | reflexive, .notAPerson => "itself"
  | reflexive, .female => "herself"
  | reflexive, .male => "himself"
  | reflexive, .unknown => "themselves"
  | subject, .female => "she"
  | subject, .male => "he"
  | subject, _ => "they"

end PronounUsage

end Phrasebook
