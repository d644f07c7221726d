import Phrasebook.FileOptions.Reader
import Phrasebook.Text.Blank

/-!
# Docblocks

A file gives its options in a comment, as a JSON object behind the tag `@fbt`.
The object may run over several lines of the comment, each of which may begin
with blanks and an asterisk. Only the first tag of a file is looked at; if no
object follows it, the file has no options.
-/

namespace Phrasebook

/-- What introduces the options of a file. -/
def docblockTag : List Char :=
  ['@', 'f', 'b', 't']

/-- The text behind the first tag. -/
def afterTag? : List Char → Option (List Char)
  | [] => none
  | c :: cs =>
    if docblockTag.isPrefixOf (c :: cs) then some ((c :: cs).drop docblockTag.length)
    else afterTag? cs

/-- The lines of a text. A line ends at a line feed, or at a carriage return and
a line feed; the last need not end. -/
def splitLines : List Char → List (List Char)
  | [] => []
  | '\n' :: cs => [] :: splitLines cs
  | '\r' :: '\n' :: cs => [] :: splitLines cs
  | c :: cs =>
    match splitLines cs with
    | [] => [[c]]
    | line :: lines => (c :: line) :: lines

/-- A line of a comment without the blanks and the asterisk it begins with. -/
def uncomment (line : List Char) : List Char :=
  match trimBlank line with
  | '*' :: rest => rest
  | rest => rest

/-- Lines put together again, with a line feed between any two. -/
def joinLines : List (List Char) → List Char
  | [] => []
  | [line] => line
  | line :: lines => line ++ '\n' :: joinLines lines

/-- **The options of a file**, if it gives any. -/
def FileOptions.ofSource (source : String) : Except DocblockError (Option FileOptions) :=
  match afterTag? source.toList with
  | none => .ok none
  | some text =>
    match trimBlank (joinLines ((splitLines text).map uncomment)) with
    | '{' :: cs => (readObject cs).map some
    | _ => .ok none

end Phrasebook
