/-!
# Plural categories

The six categories into which languages sort counts, each with the numeric code
that keys the branches of a plural in a text table.
-/

namespace Phrasebook

/-- A category of counts. -/
inductive PluralCategory where
  | zero
  | one
  | two
  | few
  | many
  | other
deriving DecidableEq

namespace PluralCategory

/-- Every category, in order. -/
def all : List PluralCategory :=
  [zero, one, two, few, many, other]

/-- The code of a category. -/
def code : PluralCategory → Nat
  | zero => 16
  | one => 4
  | two => 8
  | few => 20
  | many => 12
  | other => 24

/-- The category a code stands for. -/
def ofCode? (code : Nat) : Option PluralCategory :=
  all.find? (·.code = code)

theorem ofCode?_code (c : PluralCategory) : ofCode? c.code = some c := by
  cases c <;> rfl

end PluralCategory

end Phrasebook
