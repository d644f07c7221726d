/-!
# Edit distance

The **edit distance** of two texts is the least number of single characters to
insert, delete or substitute that turns one into the other
(`Phrasebook.editDistance`). It is computed a row at a time: the row of a text
holds its distances to all endings of the other text, the longest first, and the
row of a text with one more character in front needs that of the text alone.

From it come the **suggestions** for a misspelt word: the candidates within a
small distance of it, the closest first (`Phrasebook.closest`).
-/

namespace Phrasebook

/-- The distances of the empty text to the endings of a text: their lengths. -/
def emptyRow : List Char → List Nat
  | [] => [0]
  | _ :: bs => (bs.length + 1) :: emptyRow bs

/-- The distances of `a :: cs` to the endings of a text, from those of `cs`:
`a` is deleted, or a character is inserted before it, or it is put for the first
character of the ending, at no cost if they are the same. -/
def nextRow (a : Char) : List Char → List Nat → List Nat
  | b :: bs, whole :: shorter :: row =>
    match nextRow a bs (shorter :: row) with
    | [] => []
    | inserted :: row' =>
      min (min (whole + 1) (inserted + 1)) (shorter + if a = b then 0 else 1) :: inserted :: row'
  | _, whole :: _ => [whole + 1]
  | _, [] => []

/-- The distances of a text to the endings of `bs`. -/
def distanceRow (bs : List Char) : List Char → List Nat
  | [] => emptyRow bs
  | a :: cs => nextRow a bs (distanceRow bs cs)

/-- **The edit distance** of two texts, counted in characters. -/
def editDistance (a b : String) : Nat :=
  (distanceRow b.toList a.toList).headD 0

/-- How far a suggestion may be from a word: one edit from a word of at most
three characters, two from a longer one. -/
def editTolerance (word : String) : Nat :=
  if word.length ≤ 3 then 1 else 2

/-- **The candidates a misspelt word may stand for**: at most three, the closest
first, and of two equally close the one listed first. -/
def closest (word : String) (candidates : List String) : List String :=
  let near := (candidates.map fun c => (editDistance word c, c)).filter
    fun (d, _) => d ≤ editTolerance word
  ((near.mergeSort fun (d, _) (d', _) => d ≤ d').take 3).map Prod.snd

end Phrasebook
