import Phrasebook.Expr.Reading
import Phrasebook.Location

/-!
# Expressions from source text

`Phrasebook.Expr.parse` reads the source text of one expression. What it refuses
it refuses with the location at which it gave up, which is a lexeme's beginning
or the end of the text.
-/

namespace Phrasebook

namespace Expr

/-- Why a text is no expression. -/
inductive ParseError where
  /-- An expression ends before the character `c`, which cannot follow it. -/
  | unexpected (c : Char) (location : Location)
  /-- Nothing that may stand here begins with what stands here. -/
  | noMatch (location : Location)
  /-- The text ends inside an expression. -/
  | endOfInput (location : Location)
deriving DecidableEq

namespace ParseError

/-- Where the reading gave up. -/
def location : ParseError → Location
  | unexpected _ l => l
  | noMatch l => l
  | endOfInput l => l

/-- The wording of an error. -/
def message : ParseError → String
  | unexpected c l =>
    "syntax error at " ++ l.text ++ ": unexpected character: '" ++ String.singleton c ++ "'"
  | noMatch l =>
    "syntax error at " ++ l.text ++
      ": parse error: Parsing Error: ContextError \x7b context: [], cause: None \x7d"
  | endOfInput l => "unexpected end of input at " ++ l.text

end ParseError

/-- The text that begins at the last `count` of some lexemes. -/
def textAt (lexemes : List (Lexeme × List Char)) (count : Nat) : List Char :=
  match lexemes.drop (lexemes.length - count) with
  | [] => []
  | (_, text) :: _ => text

/-- The text left behind a stop. -/
def Stop.text (lexemes : List (Lexeme × List Char)) (stop : Stop) : List Char :=
  (textAt lexemes stop.rest.length).drop (if stop.afterBang then 1 else 0)

/-- The location in `source` before its last part `rest`. -/
def locate (source rest : List Char) : Location :=
  .after (source.take (source.length - rest.length))

/-- The error of a reading that gave up before `rest`. -/
def giveUp (source rest : List Char) : ParseError :=
  if rest.isEmpty then .endOfInput (locate source rest) else .noMatch (locate source rest)

/-- **The expression a text spells**, with blanks anywhere between its lexemes.
The fuel lasts for any text: a descent takes at most fourteen steps from one
lexeme to the next, so a reading is never left unfinished. -/
def parse (source : String) : Except ParseError Expr :=
  let cs := source.toList
  let lexemes := scan cs
  let ls := lexemes.map Prod.fst
  match sequenceOf (fuelFor ls) ls with
  | .done e rest =>
    match textAt lexemes rest.length with
    | [] => .ok e
    | c :: after => .error (.unexpected c (locate cs (c :: after)))
  | .failed stop => .error (giveUp cs (stop.text lexemes))
  | .unfinished => .error (giveUp cs cs)

end Expr

end Phrasebook
