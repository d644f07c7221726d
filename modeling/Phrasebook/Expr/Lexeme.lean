import Phrasebook.Expr
import Phrasebook.Text.Blank

/-!
# The lexemes of an expression

An expression is written as a run of **lexemes** – words, numbers, quoted
strings, operators and punctuation – with any blanks between them.
`Phrasebook.Expr.scan` cuts a text into its lexemes, always taking the longest
one that fits, and keeps with each of them the text that begins at it, so that
whoever stops at a lexeme can tell where in the source it stands.

Scanning never fails: a character that begins no lexeme, such as a quote that is
never closed, is a **stray** lexeme of its own, and it is for the reader of the
lexemes to refuse it.
-/

namespace Phrasebook

namespace Expr

/-- The smallest pieces an expression is written in. -/
inductive Lexeme where
  /-- A name, or one of the words `true`, `false`, `null`, `new`, `typeof`. -/
  | word (name : String)
  /-- A number: digits, with or without a fraction. -/
  | number (text : String)
  /-- A quoted string, by its value. -/
  | quoted (value : String)
  /-- An operator that stands between two operands. -/
  | operator (op : BinaryOp)
  /-- An exclamation mark that begins no operator between operands. -/
  | bang
  | question
  | colon
  | comma
  | dot
  | openParen
  | closeParen
  | openBracket
  | closeBracket
  | openBrace
  | closeBrace
  /-- A character that begins no lexeme. -/
  | stray (c : Char)
deriving DecidableEq

/-! ### Characters of words and numbers -/

/-- Whether a word may begin with a character: an ASCII letter, `_` or `$`. -/
def isWordStart (c : Char) : Bool :=
  c.isAlpha || c == '_' || c == '$'

/-- Whether a word may go on with a character. -/
def isWordChar (c : Char) : Bool :=
  c.isAlphanum || c == '_' || c == '$'

/-- The character a backslash and `c` stand for in a quoted string. -/
def unescape : Char → Char
  | 'n' => '\n'
  | 't' => '\t'
  | 'r' => '\r'
  | c => c

/-! ### Cutting off one lexeme

Each function below is told the text that follows the first character of a
lexeme, and says with the lexeme how many of those characters belong to it. -/

/-- A fraction: a point and at least one digit, or nothing. -/
def fraction : List Char → List Char
  | '.' :: cs =>
    match cs.takeWhile Char.isDigit with
    | [] => []
    | digits => '.' :: digits
  | _ => []

/-- A number whose first digit is `c`. -/
def numberAfter (c : Char) (cs : List Char) : Lexeme × Nat :=
  let digits := cs.takeWhile Char.isDigit
  let tail := digits ++ fraction (cs.drop digits.length)
  (.number (String.ofList (c :: tail)), tail.length)

/-- A word whose first character is `c`. -/
def wordAfter (c : Char) (cs : List Char) : Lexeme × Nat :=
  let tail := cs.takeWhile isWordChar
  (.word (String.ofList (c :: tail)), tail.length)

/-- The value of a string up to the quote that closes it, and the number of
characters to that quote and with it; nothing if no quote does. -/
def quotedUpTo (quote : Char) : List Char → Option (List Char × Nat)
  | [] => none
  | '\\' :: c :: cs => (quotedUpTo quote cs).map fun (value, n) => (unescape c :: value, n + 2)
  | c :: cs =>
    if c = quote then some ([], 1)
    else (quotedUpTo quote cs).map fun (value, n) => (c :: value, n + 1)

/-- A string that opens with the quote `quote`. -/
def quotedAfter (quote : Char) (cs : List Char) : Lexeme × Nat :=
  match quotedUpTo quote cs with
  | some (value, n) => (.quoted (String.ofList value), n)
  | none => (.stray quote, 0)

/-- An operator or a mark of punctuation that begins with `c`. -/
def symbolAfter : Char → List Char → Lexeme × Nat
  | '|', '|' :: _ => (.operator .or, 1)
  | '&', '&' :: _ => (.operator .and, 1)
  | '=', '=' :: '=' :: _ => (.operator .strictEq, 2)
  | '=', '=' :: _ => (.operator .eq, 1)
  | '!', '=' :: '=' :: _ => (.operator .strictNotEq, 2)
  | '!', '=' :: _ => (.operator .notEq, 1)
  | '<', '=' :: _ => (.operator .le, 1)
  | '>', '=' :: _ => (.operator .ge, 1)
  | '<', _ => (.operator .lt, 0)
  | '>', _ => (.operator .gt, 0)
  | '+', _ => (.operator .add, 0)
  | '-', _ => (.operator .sub, 0)
  | '*', _ => (.operator .mul, 0)
  | '/', _ => (.operator .div, 0)
  | '%', _ => (.operator .rem, 0)
  | '!', _ => (.bang, 0)
  | '?', _ => (.question, 0)
  | ':', _ => (.colon, 0)
  | ',', _ => (.comma, 0)
  | '.', _ => (.dot, 0)
  | '(', _ => (.openParen, 0)
  | ')', _ => (.closeParen, 0)
  | '[', _ => (.openBracket, 0)
  | ']', _ => (.closeBracket, 0)
  | '{', _ => (.openBrace, 0)
  | '}', _ => (.closeBrace, 0)
  | c, _ => (.stray c, 0)

/-- The lexeme that begins with `c`. -/
def lexemeAfter (c : Char) (cs : List Char) : Lexeme × Nat :=
  if isWordStart c then wordAfter c cs
  else if c.isDigit then numberAfter c cs
  else if c = '"' || c = '\x27' then quotedAfter c cs
  else symbolAfter c cs

/-! ### Cutting up a text -/

/-- The lexemes of a text once its first `skip` characters are passed over,
which belong to a lexeme already cut off. -/
def scanFrom (skip : Nat) : List Char → List (Lexeme × List Char)
  | [] => []
  | c :: cs =>
    match skip with
    | n + 1 => scanFrom n cs
    | 0 =>
      if isBlank c then scanFrom 0 cs
      else
        let (lexeme, n) := lexemeAfter c cs
        (lexeme, c :: cs) :: scanFrom n cs

/-- **The lexemes of a text**, each with the text that begins at it. -/
def scan (cs : List Char) : List (Lexeme × List Char) :=
  scanFrom 0 cs

end Expr

end Phrasebook
