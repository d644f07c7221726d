/-!
# File options

Defaults for every phrase of a file: the project its phrases belong to, and who
wrote them.
-/

namespace Phrasebook

/-- Defaults for the phrases of a file. -/
structure FileOptions where
  project : Option String := none
  author : Option String := none
deriving DecidableEq

end Phrasebook
