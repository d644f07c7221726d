import Phrasebook.Json
import Phrasebook.TokenName

/-!
# Text tables

The wordings of a phrase, in a tree with one level of branches for each axis. A
**leaf** holds one wording. Branches keep the order in which their keys were
first inserted, so the table of a phrase is always written the same way.

`Phrasebook.TextTable.insert` puts a leaf at a path and makes what branches it
needs; where a leaf is in the way it gives way. Of repeated keys, which only a
table built by other means can hold, the first counts.
-/

namespace Phrasebook

/-- One wording of a phrase. -/
structure Leaf where
  description : String
  text : String
  /-- The alias of each fragment in the text, under its token. -/
  tokenAliases : List (TokenName × TokenName)
deriving DecidableEq

/-- A tree of wordings. -/
inductive TextTable where
  | leaf (leaf : Leaf)
  | branch (entries : List (String × TextTable))

namespace TextTable

/-- A table of no wordings. -/
def empty : TextTable := branch []

/-- The branches of a table. -/
def entries : TextTable → List (String × TextTable)
  | leaf _ => []
  | branch entries => entries

/-- Changes the first entry under a key, or adds one made from the empty
table. -/
def alter (key : String) (f : TextTable → TextTable) :
    List (String × TextTable) → List (String × TextTable)
  | [] => [(key, f empty)]
  | (k, t) :: rest => if k = key then (k, f t) :: rest else (k, t) :: alter key f rest

/-- **Puts a leaf at a path**, which then holds nothing else. -/
def insert : List String → Leaf → TextTable → TextTable
  | [], l, _ => leaf l
  | key :: path, l, t => branch (alter key (insert path l) t.entries)

/-- **The leaf at a path**, if the path ends at one. -/
def get? : List String → TextTable → Option Leaf
  | [], leaf l => some l
  | key :: path, branch entries => (entries.lookup key).bind (get? path)
  | [], branch _ => none
  | _ :: _, leaf _ => none

mutual

/-- The leaves of a table, in the order of its branches. -/
def leaves : TextTable → List Leaf
  | leaf l => [l]
  | branch entries => leavesAll entries

/-- The leaves of some branches. -/
def leavesAll : List (String × TextTable) → List Leaf
  | [] => []
  | (_, t) :: rest => t.leaves ++ leavesAll rest

end

end TextTable

/-! ### As JSON -/

/-- A leaf as a JSON value. -/
def Leaf.toJson (l : Leaf) : Json :=
  .object
    [("desc", .string l.description),
     ("text", .string l.text),
     ("tokenAliases", .object (l.tokenAliases.map fun (t, a) => (t.text, .string a.text)))]

namespace TextTable

mutual

/-- A table as a JSON value: an object with an entry for each branch. -/
def toJson : TextTable → Json
  | leaf l => l.toJson
  | branch entries => .object (entriesToJson entries)

/-- Some branches as the entries of an object. -/
def entriesToJson : List (String × TextTable) → List (String × Json)
  | [] => []
  | (key, t) :: rest => (key, t.toJson) :: entriesToJson rest

end

end TextTable

end Phrasebook
