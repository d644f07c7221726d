/-!
# Token names

A **token** is a place in the text of a phrase that a runtime value fills. The
text of a leaf shows it as its name between braces; inside the name of another
token it is shown between brackets, so that names of fragments never hold a
brace of their own making.

Explicit tokens carry the name their author gave them. The token of a fragment
is **implicit**: an equals sign and the words the fragment wraps.
-/

namespace Phrasebook

/-- The name of a token. -/
structure TokenName where
  text : String
deriving DecidableEq

namespace TokenName

/-- The token as it appears in the text of a leaf. -/
def placeholder (t : TokenName) : String :=
  "\x7b" ++ t.text ++ "\x7d"

/-- The token as it appears inside the name of another token. -/
def nested (t : TokenName) : String :=
  "[" ++ t.text ++ "]"

/-- The implicit token of a fragment, made of the words it wraps. -/
def implicit (words : String) : TokenName where
  text := "=" ++ words

/-- The alias of the fragment that opens after `ordinal` others. An alias names
a fragment the same whatever its words vary to. -/
def aliasOf (ordinal : Nat) : TokenName where
  text := "=m" ++ toString ordinal

/-- The token of a plural that shows its count and gives it no name. -/
def defaultCount : TokenName where
  text := "number"

/-- The reserved token of the subject of a phrase. -/
def subject : TokenName where
  text := "__subject__"

/-- Token names in the order of their characters, compared one by one. -/
def sorted (names : List TokenName) : List TokenName :=
  names.mergeSort fun a b => a.text ≤ b.text

end TokenName

end Phrasebook
