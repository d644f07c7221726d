import Phrasebook.Expr

/-!
# Writing expressions

`Phrasebook.Expr.print` writes an expression as source text. Parentheses go
where reading the text back could otherwise take it apart in another way: around
an operand that is itself built with operators (`Phrasebook.Expr.isOpen`), and
around a sequence that is an item of a list. A sequence directly inside another
is written without them, and so is read back as part of it.
-/

namespace Phrasebook

namespace Expr

/-- How a character of a string is written between quotes. -/
def escape : Char → List Char
  | '"' => ['\\', '"']
  | '\\' => ['\\', '\\']
  | '\n' => ['\\', 'n']
  | '\t' => ['\\', 't']
  | c => [c]

/-- A string between double quotes. -/
def quote (value : String) : String :=
  "\"" ++ String.ofList (value.toList.flatMap escape) ++ "\""

/-- Whether an expression needs parentheses as an operand. -/
def isOpen : Expr → Bool
  | unary _ _ | binary _ _ _ | conditional _ _ _ | sequence _ => true
  | _ => false

/-- Whether an expression is a sequence, which needs parentheses as an item. -/
def isSequence : Expr → Bool
  | sequence _ => true
  | _ => false

/-- A text in parentheses, if it needs them. -/
def inParens (needed : Bool) (text : String) : String :=
  if needed then "(" ++ text ++ ")" else text

end Expr

/-- A key as it is written before its colon. -/
def StaticKey.print : StaticKey → String
  | name n => n
  | string v => Expr.quote v
  | number t => t

mutual

/-- **An expression as source text.** -/
def Expr.print : Expr → String
  | .identifier name => name
  | .string value => Expr.quote value
  | .number text => text
  | .bool value => if value then "true" else "false"
  | .null => "null"
  | .member object property =>
    Expr.inParens object.isOpen object.print ++ "." ++ property
  | .index object index =>
    Expr.inParens object.isOpen object.print ++ "[" ++ index.print ++ "]"
  | .call callee args =>
    Expr.inParens callee.isOpen callee.print ++ "(" ++ printItems args ++ ")"
  | .construction callee args =>
    "new " ++ Expr.inParens callee.isOpen callee.print ++ "(" ++ printItems args ++ ")"
  | .unary op operand => op.text ++ Expr.inParens operand.isOpen operand.print
  | .binary op left right =>
    Expr.inParens left.isOpen left.print ++ " " ++ op.text ++ " " ++
      Expr.inParens right.isOpen right.print
  | .conditional test consequent alternate =>
    Expr.inParens test.isOpen test.print ++ " ? " ++
      Expr.inParens consequent.isOpen consequent.print ++ " : " ++
      Expr.inParens alternate.isOpen alternate.print
  | .sequence items => printBare items
  | .array items => "[" ++ printItems items ++ "]"
  | .object [] => "\x7b\x7d"
  | .object (property :: properties) =>
    "\x7b " ++ printProperties (property :: properties) ++ " \x7d"

/-- The items of a list, with parentheses around those that are sequences. -/
def printItems : List Expr → String
  | [] => ""
  | [item] => Expr.inParens item.isSequence item.print
  | item :: items => Expr.inParens item.isSequence item.print ++ ", " ++ printItems items

/-- The items of a sequence, without parentheses of their own. -/
def printBare : List Expr → String
  | [] => ""
  | [item] => item.print
  | item :: items => item.print ++ ", " ++ printBare items

/-- A property, its key before its value. -/
def Property.print : Property → String
  | .static key value => key.print ++ ": " ++ Expr.inParens value.isSequence value.print
  | .computed key value =>
    "[" ++ key.print ++ "]: " ++ Expr.inParens value.isSequence value.print

/-- The properties of an object literal. -/
def printProperties : List Property → String
  | [] => ""
  | [property] => property.print
  | property :: properties => property.print ++ ", " ++ printProperties properties

end

end Phrasebook
