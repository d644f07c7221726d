import Phrasebook.PluralCategory

/-!
# Plural rules

**Plural rules** sort counts into plural categories. They cover some categories
and send a count whose category they do not cover to a fallback, so that every
count falls into a category there is a branch for – provided the fallback is one
of those covered.

`Phrasebook.Language` holds the cardinal rules of the languages known here. The
rules of a language are listed with the category each is for; the first that
applies counts, and where none does the category is `other`.
-/

namespace Phrasebook

/-- A way to sort counts into plural categories. -/
structure PluralRules where
  /-- The categories told apart, in the order of their branches. -/
  covered : List PluralCategory
  fallback : PluralCategory
  /-- The category of a count, covered or not. -/
  select : Int → PluralCategory

namespace PluralRules

/-- **The category of a count.** -/
def category (r : PluralRules) (n : Int) : PluralCategory :=
  if r.select n ∈ r.covered then r.select n else r.fallback

/-- One is `one`, any other count is `other`. -/
def english : PluralRules where
  covered := [.one, .other]
  fallback := .other
  select n := if n = 1 then .one else .other

end PluralRules

/-! ### Cardinal rules of languages -/

/-- The languages with known rules. -/
inductive Language where
  | ar | bn | de | el | en | es | fa | fr | he | hi | id | it | ja | ko | nl | pl | pt | ro | ru
  | th | tr | uk | vi | zh
deriving DecidableEq

/-- A category with the counts it is for, given by their absolute value. -/
structure CardinalRule where
  category : PluralCategory
  applies : Nat → Bool

namespace CardinalRule

/-- Singular for one alone. -/
def one : CardinalRule := ⟨.one, fun n => n = 1⟩

/-- Singular for one and for none. -/
def oneOrNone : CardinalRule := ⟨.one, fun n => n ≤ 1⟩

/-- A dual. -/
def two : CardinalRule := ⟨.two, fun n => n = 2⟩

/-- A form for whole millions. -/
def millions : CardinalRule := ⟨.many, fun n => n ≠ 0 && n % 1000000 = 0⟩

/-- A paucal for counts that end in two, three or four, but not for the teens. -/
def slavicFew : CardinalRule :=
  ⟨.few, fun n => 2 ≤ n % 10 && n % 10 ≤ 4 && !(12 ≤ n % 100 && n % 100 ≤ 14)⟩

/-- Singular for counts that end in one, eleven apart. -/
def endsInOne : CardinalRule := ⟨.one, fun n => n % 10 = 1 && n % 100 ≠ 11⟩

/-- Many for all that is left. -/
def restMany : CardinalRule := ⟨.many, fun _ => true⟩

end CardinalRule

namespace Language

/-- Every language, in the order of their codes. -/
def all : List Language :=
  [ar, bn, de, el, en, es, fa, fr, he, hi, id, it, ja, ko, nl, pl, pt, ro, ru, th, tr, uk, vi, zh]

/-- The code of a language. -/
def code : Language → String
  | ar => "ar"
  | bn => "bn"
  | de => "de"
  | el => "el"
  | en => "en"
  | es => "es"
  | fa => "fa"
  | fr => "fr"
  | he => "he"
  | hi => "hi"
  | id => "id"
  | it => "it"
  | ja => "ja"
  | ko => "ko"
  | nl => "nl"
  | pl => "pl"
  | pt => "pt"
  | ro => "ro"
  | ru => "ru"
  | th => "th"
  | tr => "tr"
  | uk => "uk"
  | vi => "vi"
  | zh => "zh"

/-- The language a code stands for. -/
def ofCode? (code : String) : Option Language :=
  all.find? (·.code = code)

/-- The cardinal rules of a language, in the order of their categories. -/
def cardinals : Language → List CardinalRule
  | ar =>
    [⟨.zero, fun n => n = 0⟩, .one, .two,
     ⟨.few, fun n => 3 ≤ n % 100 && n % 100 ≤ 10⟩,
     ⟨.many, fun n => 11 ≤ n % 100⟩]
  | bn | fa | hi | vi => [.oneOrNone]
  | de | el | en | nl | tr => [.one]
  | es | it => [.one, .millions]
  | fr | pt => [.oneOrNone, .millions]
  | he => [.one, .two]
  | id | ja | ko | th | zh => []
  | pl => [.one, .slavicFew, .restMany]
  | ro => [.one, ⟨.few, fun n => n = 0 || 1 ≤ n % 100 && n % 100 ≤ 19⟩]
  | ru | uk => [.endsInOne, .slavicFew, .restMany]

/-- The category a language puts a count into. -/
def select (l : Language) (n : Int) : PluralCategory :=
  match l.cardinals.find? (·.applies n.natAbs) with
  | some rule => rule.category
  | none => .other

/-- The plural rules of a language: its own categories, and `other`. -/
def rules (l : Language) : PluralRules where
  covered := l.cardinals.map (·.category) ++ [.other]
  fallback := .other
  select := l.select

end Language

/-- A language without rules was asked for. -/
structure UnsupportedLanguage where
  code : String

/-- The wording of the error. -/
def UnsupportedLanguage.message (e : UnsupportedLanguage) : String :=
  "no plural rules for language '" ++ e.code ++ "'"

/-- The plural rules for a language code. -/
def PluralRules.ofLanguageCode (code : String) : Except UnsupportedLanguage PluralRules :=
  match Language.ofCode? code with
  | some l => .ok l.rules
  | none => .error { code }

end Phrasebook
