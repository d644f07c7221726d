/-!
# Variation types

What a runtime value varies a text by, with the numeric codes under which the
descriptors of a payload write it.
-/

namespace Phrasebook

/-- What a runtime value varies a text by. -/
inductive VariationType where
  | gender
  | number
  | pronoun
deriving DecidableEq

namespace VariationType

/-- The code of a variation type. -/
def code : VariationType → Nat
  | gender => 1
  | number => 2
  | pronoun => 3

/-- The variation type a code stands for. -/
def ofCode? (code : Nat) : Option VariationType :=
  [gender, number, pronoun].find? (·.code = code)

theorem ofCode?_code (v : VariationType) : ofCode? v.code = some v := by
  cases v <;> rfl

end VariationType

end Phrasebook
