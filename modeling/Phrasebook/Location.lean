/-!
# Source locations

A **location** is a line and a column. Phrase nodes carry the location a front
end gave them, unread, and hand it to the errors they cause; a reading of an
expression computes the location at which it gave up.
-/

namespace Phrasebook

/-- A place in a source: a line and a column, in whatever unit and origin the
one who made it counts. -/
structure Location where
  line : Nat := 0
  column : Nat := 0
deriving DecidableEq

/-- The number of bytes of a text. -/
def byteLength : List Char → Nat
  | [] => 0
  | c :: cs => c.utf8Size + byteLength cs

namespace Location

/-- A location as diagnostics show it, `line:column`. -/
def text (l : Location) : String :=
  toString l.line ++ ":" ++ toString l.column

/-- The location reached by reading `consumed` from the top of a text: lines and
columns count from one, and a column counts the bytes of its line, so that a
character outside ASCII moves it by more than one. -/
def after (consumed : List Char) : Location where
  line := consumed.count '\n' + 1
  column := byteLength (consumed.reverse.takeWhile (· ≠ '\n')) + 1

end Location

end Phrasebook
