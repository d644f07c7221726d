/-!
# Compact JSON

The values a payload is made of, and their one compact spelling: no blanks, the
entries of an object in the order given – a key may come twice – and of the
characters of a string only those escaped that must be.
-/

namespace Phrasebook

/-- A JSON value with natural numbers only. -/
inductive Json where
  | null
  | bool (value : Bool)
  | number (value : Nat)
  | string (value : String)
  | array (items : List Json)
  | object (entries : List (String × Json))

namespace Json

/-- The four hexadecimal digits of a small code point, in lower case. -/
def hexFour (n : Nat) : List Char :=
  [n / 4096 % 16, n / 256 % 16, n / 16 % 16, n % 16].map Nat.digitChar

/-- How a character is written inside a string: a quote, a backslash and the
control characters are escaped, the short way where there is one. -/
def escape : Char → List Char
  | '"' => ['\\', '"']
  | '\\' => ['\\', '\\']
  | '\x08' => ['\\', 'b']
  | '\t' => ['\\', 't']
  | '\n' => ['\\', 'n']
  | '\x0c' => ['\\', 'f']
  | '\r' => ['\\', 'r']
  | c => if c.toNat < 0x20 then '\\' :: 'u' :: hexFour c.toNat else [c]

/-- A string between quotes. -/
def quoted (value : String) : List Char :=
  '"' :: (value.toList.flatMap escape ++ ['"'])

mutual

/-- **The compact spelling of a value.** -/
def chars : Json → List Char
  | null => ['n', 'u', 'l', 'l']
  | bool true => ['t', 'r', 'u', 'e']
  | bool false => ['f', 'a', 'l', 's', 'e']
  | number n => Nat.toDigits 10 n
  | string s => quoted s
  | array items => '[' :: (itemChars items ++ [']'])
  | object entries => '{' :: (entryChars entries ++ ['}'])

/-- The items of an array, parted by commas. -/
def itemChars : List Json → List Char
  | [] => []
  | [item] => item.chars
  | item :: items => item.chars ++ ',' :: itemChars items

/-- The entries of an object, parted by commas. -/
def entryChars : List (String × Json) → List Char
  | [] => []
  | [(key, value)] => quoted key ++ ':' :: value.chars
  | (key, value) :: entries => quoted key ++ ':' :: (value.chars ++ ',' :: entryChars entries)

end

/-- A value as text. -/
def text (j : Json) : String :=
  String.ofList j.chars

end Json

end Phrasebook
