import Phrasebook.FileOptions
import Phrasebook.Location
import Phrasebook.Number.Binary64

/-!
# Reading file options from JSON

File options are written as a JSON object with the fields `project` and
`author`. Reading goes from left to right and stops at the first thing wrong,
which is one of three (`Phrasebook.DocblockError`): the text is not JSON, or it
ends too soon, or it is JSON but says of a known field what it cannot be – some
other kind of value than a string or `null`, or a value for the second time.

Fields with other names are **skimmed**: their values must be JSON, nested as
deep as they like, but what they denote is of no concern, so a number may be of
any size and an escape may leave half a character.
-/

namespace Phrasebook

/-- Why file options cannot be read. -/
inductive DocblockError where
  /-- The text is not JSON. -/
  | malformed
  /-- The text ends inside the object. -/
  | truncated
  /-- A known field has a value of the wrong kind, or two values. -/
  | unsuitable
deriving DecidableEq

/-- The wording of the error, whatever its cause. -/
def DocblockError.message (_ : DocblockError) : String :=
  "invalid @fbt docblock"

namespace FileOptions

/-! ### Blanks and words -/

/-- The characters JSON allows between its tokens. -/
def isJsonBlank (c : Char) : Bool :=
  c = ' ' || c = '\n' || c = '\t' || c = '\r'

/-- A text from its first character that is not blank. -/
def skipBlank (cs : List Char) : List Char :=
  cs.dropWhile isJsonBlank

/-- The text behind a word that must stand here. -/
def expect : List Char → List Char → Except DocblockError (List Char)
  | [], cs => .ok cs
  | _ :: _, [] => .error .truncated
  | w :: word, c :: cs => if c = w then expect word cs else .error .malformed

/-- The text behind a mark of punctuation, blanks before it. -/
def expectMark (mark : Char) (cs : List Char) : Except DocblockError (List Char) :=
  expect [mark] (skipBlank cs)

/-! ### Strings -/

/-- The value of a hexadecimal digit. -/
def hexValue? (c : Char) : Option Nat :=
  if c.isDigit then some (c.toNat - '0'.toNat)
  else if 'a' ≤ c ∧ c ≤ 'f' then some (c.toNat - 'a'.toNat + 10)
  else if 'A' ≤ c ∧ c ≤ 'F' then some (c.toNat - 'A'.toNat + 10)
  else none

/-- The number that four hexadecimal digits at the start of a text denote. A text
of fewer than four bytes has ended too soon, whatever they are. -/
def hexFour (cs : List Char) : Except DocblockError Nat :=
  match (cs.take 4).mapM hexValue? with
  | some [a, b, c, d] => .ok (((a * 16 + b) * 16 + c) * 16 + d)
  | _ =>
    if byteLength (cs.take 4) < 4 then .error .truncated else .error .malformed

/-- Whether a number is the first half of a character written as two. -/
def isHighHalf (n : Nat) : Bool :=
  0xD800 ≤ n && n ≤ 0xDBFF

/-- Whether a number is the second half of a character written as two. -/
def isLowHalf (n : Nat) : Bool :=
  0xDC00 ≤ n && n ≤ 0xDFFF

/-- The character of a numeric escape, and the length of what follows its `\u`.
The two halves of a character must follow one another. -/
def numericEscape (cs : List Char) : Except DocblockError (Char × Nat) := do
  let n ← hexFour cs
  if isLowHalf n then .error .malformed
  else if isHighHalf n then
    let rest ← expect ['\\', 'u'] (cs.drop 4)
    let m ← hexFour rest
    if isLowHalf m then .ok (Char.ofNat ((n - 0xD800) * 0x400 + (m - 0xDC00) + 0x10000), 10)
    else .error .malformed
  else .ok (Char.ofNat n, 4)

/-- The character of an escape other than a numeric one, from the character
behind its backslash. -/
def shortEscape? : Char → Option Char
  | '"' => some '"'
  | '\\' => some '\\'
  | '/' => some '/'
  | 'b' => some '\x08'
  | 'f' => some '\x0c'
  | 'n' => some '\n'
  | 'r' => some '\r'
  | 't' => some '\t'
  | _ => none

/-- The character of an escape, and the length of what follows its backslash. -/
def escapeAfter : List Char → Except DocblockError (Char × Nat)
  | [] => .error .truncated
  | 'u' :: cs => do
    let (c, n) ← numericEscape cs
    return (c, n + 1)
  | c :: _ =>
    match shortEscape? c with
    | some d => .ok (d, 1)
    | none => .error .malformed

/-- The length of an escape behind its backslash, in a string that is skimmed. -/
def skimEscapeAfter : List Char → Except DocblockError (Char × Nat)
  | [] => .error .truncated
  | 'u' :: cs => do
    let _ ← hexFour cs
    return ('u', 5)
  | c :: _ =>
    match shortEscape? c with
    | some d => .ok (d, 1)
    | none => .error .malformed

/-- The characters of a string up to its closing quote, once the first `skip`
characters are passed over, which belong to an escape already read by
`escape`. -/
def stringFrom (escape : List Char → Except DocblockError (Char × Nat)) (skip : Nat) :
    List Char → Except DocblockError (List Char × List Char)
  | [] => .error .truncated
  | c :: cs =>
    match skip with
    | n + 1 => stringFrom escape n cs
    | 0 =>
      if c = '"' then .ok ([], cs)
      else if c = '\\' then do
        let (d, n) ← escape cs
        let (value, rest) ← stringFrom escape n cs
        return (d :: value, rest)
      else if c.toNat < 0x20 then .error .malformed
      else do
        let (value, rest) ← stringFrom escape 0 cs
        return (c :: value, rest)

/-- A string, behind its opening quote. -/
def readString (cs : List Char) : Except DocblockError (String × List Char) := do
  let (value, rest) ← stringFrom escapeAfter 0 cs
  return (String.ofList value, rest)

/-- The text behind a string that is skimmed, from behind its opening quote. -/
def skimString (cs : List Char) : Except DocblockError (List Char) := do
  let (_, rest) ← stringFrom skimEscapeAfter 0 cs
  return rest

/-! ### Numbers -/

/-- A number without its sign: its whole digits, the digits of its fraction, its
exponent. -/
structure Decimal where
  whole : List Char
  fraction : List Char
  exponent : Int

/-- The digits at the start of a text, of which there must be one. `ended` is the
error of a text that ends before it. -/
def readDigits (ended : DocblockError) : List Char → Except DocblockError (List Char × List Char)
  | [] => .error ended
  | c :: cs =>
    if c.isDigit then .ok (c :: cs.takeWhile Char.isDigit, cs.dropWhile Char.isDigit)
    else .error .malformed

/-- The digits of a whole number: a zero stands alone. -/
def readWhole (ended : DocblockError) : List Char → Except DocblockError (List Char × List Char)
  | '0' :: c :: cs => if c.isDigit then .error .malformed else .ok (['0'], c :: cs)
  | cs => readDigits ended cs

/-- The digits of a fraction, if one follows. -/
def readFraction (ended : DocblockError) :
    List Char → Except DocblockError (List Char × List Char)
  | '.' :: cs => readDigits ended cs
  | cs => .ok ([], cs)

/-- An exponent, if one follows; without one it is zero. -/
def readExponent (ended : DocblockError) : List Char → Except DocblockError (Int × List Char)
  | c :: cs =>
    if c = 'e' || c = 'E' then
      match cs with
      | '+' :: cs => do
        let (ds, rest) ← readDigits ended cs
        return ((digitsValue ds : Int), rest)
      | '-' :: cs => do
        let (ds, rest) ← readDigits ended cs
        return (-(digitsValue ds : Int), rest)
      | cs => do
        let (ds, rest) ← readDigits ended cs
        return ((digitsValue ds : Int), rest)
    else .ok (0, c :: cs)
  | [] => .ok (0, [])

/-- A number behind its sign. -/
def readNumber (ended : DocblockError) (cs : List Char) :
    Except DocblockError (Decimal × List Char) := do
  let (whole, cs) ← readWhole ended cs
  let (fraction, cs) ← readFraction ended cs
  let (exponent, cs) ← readExponent ended cs
  return ({ whole, fraction, exponent }, cs)

/-- The error of a number where a string is due: it is unsuitable, but only if it
is a number and one that a double can hold. -/
def numberError (cs : List Char) : DocblockError :=
  match readNumber .truncated cs with
  | .error e => e
  | .ok (n, _) =>
    if decimalTooLarge n.whole n.fraction n.exponent then .malformed else .unsuitable

/-! ### Skimming -/

mutual

/-- The text behind a value of whatever kind. -/
def skimValue : Nat → List Char → Except DocblockError (List Char)
  | 0, _ => .error .malformed
  | fuel + 1, cs =>
    match skipBlank cs with
    | [] => .error .truncated
    | '"' :: cs => skimString cs
    | '[' :: cs =>
      match skipBlank cs with
      | ']' :: cs => .ok cs
      | cs => skimItems fuel cs
    | '{' :: cs =>
      match skipBlank cs with
      | '}' :: cs => .ok cs
      | cs => skimEntries fuel cs
    | 'n' :: cs => expect ['u', 'l', 'l'] cs
    | 't' :: cs => expect ['r', 'u', 'e'] cs
    | 'f' :: cs => expect ['a', 'l', 's', 'e'] cs
    | '-' :: cs => (readNumber .malformed cs).map Prod.snd
    | c :: cs =>
      if c.isDigit then (readNumber .malformed (c :: cs)).map Prod.snd else .error .malformed

/-- The text behind an array, from its next item on. -/
def skimItems : Nat → List Char → Except DocblockError (List Char)
  | 0, _ => .error .malformed
  | fuel + 1, cs => do
    let cs ← skimValue fuel cs
    match skipBlank cs with
    | ',' :: cs => skimItems fuel cs
    | cs => expect [']'] cs

/-- The text behind an object, from its next key on. -/
def skimEntries : Nat → List Char → Except DocblockError (List Char)
  | 0, _ => .error .malformed
  | fuel + 1, cs => do
    let cs ← expectMark '"' cs
    let cs ← skimString cs
    let cs ← expectMark ':' cs
    let cs ← skimValue fuel cs
    match skipBlank cs with
    | ',' :: cs => skimEntries fuel cs
    | cs => expect ['}'] cs

end

/-- A fuel that lasts for skimming a text: every second step passes a
character. -/
def skimFuel (cs : List Char) : Nat :=
  2 * cs.length + 2

/-! ### The options -/

/-- The value of a known field: a string, or `null` for none. -/
def readField (cs : List Char) : Except DocblockError (Option String × List Char) :=
  match skipBlank cs with
  | [] => .error .truncated
  | '"' :: cs => do
    let (value, rest) ← readString cs
    return (some value, rest)
  | 'n' :: cs => do
    let rest ← expect ['u', 'l', 'l'] cs
    return (none, rest)
  | 't' :: cs => do
    let _ ← expect ['r', 'u', 'e'] cs
    .error .unsuitable
  | 'f' :: cs => do
    let _ ← expect ['a', 'l', 's', 'e'] cs
    .error .unsuitable
  | '[' :: _ => .error .unsuitable
  | '{' :: _ => .error .unsuitable
  | '-' :: cs => .error (numberError cs)
  | c :: cs => if c.isDigit then .error (numberError (c :: cs)) else .error .malformed

/-- The fields read so far: for each, whether it has a value, and which. -/
structure Fields where
  project : Option (Option String) := none
  author : Option (Option String) := none

/-- The options that some fields give. -/
def Fields.options (f : Fields) : FileOptions where
  project := f.project.join
  author := f.author.join

/-- The text behind the entry `key`, from behind the key, and the fields with its
value. A known field that has a value already is refused before its second value
is looked at. -/
def readEntry (fields : Fields) (key : String) (cs : List Char) :
    Except DocblockError (Fields × List Char) :=
  if key = "project" then
    if fields.project.isSome then .error .unsuitable
    else do
      let (value, rest) ← readField (← expectMark ':' cs)
      return ({ fields with project := some value }, rest)
  else if key = "author" then
    if fields.author.isSome then .error .unsuitable
    else do
      let (value, rest) ← readField (← expectMark ':' cs)
      return ({ fields with author := some value }, rest)
  else do
    let cs ← expectMark ':' cs
    let rest ← skimValue (skimFuel cs) cs
    return (fields, rest)

/-- The options in an object, from its next key on. -/
def readEntries : Nat → Fields → List Char → Except DocblockError FileOptions
  | 0, _, _ => .error .malformed
  | fuel + 1, fields, cs => do
    let cs ← expectMark '"' cs
    let (key, cs) ← readString cs
    let (fields, cs) ← readEntry fields key cs
    match skipBlank cs with
    | ',' :: cs => readEntries fuel fields cs
    | cs => do
      let _ ← expect ['}'] cs
      return fields.options

/-- **The options in an object**, from behind its opening brace. What follows the
object is not looked at. -/
def readObject (cs : List Char) : Except DocblockError FileOptions :=
  match skipBlank cs with
  | '}' :: _ => .ok {}
  | cs => readEntries (cs.length + 1) {} cs

end FileOptions

end Phrasebook
