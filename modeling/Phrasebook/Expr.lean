/-!
# Runtime expressions

The expressions a front end attaches to the nodes of a phrase. A phrase is
compiled without ever evaluating one: what matters of an expression is its
**shape** – whether it is a literal, for names, keys and options, and whether it
holds a call or a construction, since an expression evaluated ahead of the
phrase must have no effect that a reader of the source could notice
(`Phrasebook.Expr.hasCall`).

Two enumerations over the same keys must be driven by equal expressions, so
equality of expressions is decidable (`Phrasebook.Expr.same_iff`).
-/

namespace Phrasebook

/-- The operators written before their operand. -/
inductive UnaryOp where
  /-- Logical negation, `!`. -/
  | not
  /-- Arithmetic negation, `-`. -/
  | minus
  /-- Conversion to a number, `+`. -/
  | plus
  /-- The word `typeof`. -/
  | typeOf
deriving DecidableEq

namespace UnaryOp

/-- An operator as it is written, with the blank that parts a word from its
operand. -/
def text : UnaryOp → String
  | not => "!"
  | minus => "-"
  | plus => "+"
  | typeOf => "typeof "

end UnaryOp

/-- The operators written between their operands. -/
inductive BinaryOp where
  | or
  | and
  | eq
  | notEq
  | strictEq
  | strictNotEq
  | lt
  | gt
  | le
  | ge
  | add
  | sub
  | mul
  | div
  | rem
deriving DecidableEq

namespace BinaryOp

/-- An operator as it is written. -/
def text : BinaryOp → String
  | or => "||"
  | and => "&&"
  | eq => "=="
  | notEq => "!="
  | strictEq => "==="
  | strictNotEq => "!=="
  | lt => "<"
  | gt => ">"
  | le => "<="
  | ge => ">="
  | add => "+"
  | sub => "-"
  | mul => "*"
  | div => "/"
  | rem => "%"

/-- How loosely an operator binds: one for the tightest operators, six for the
loosest. -/
def tier : BinaryOp → Nat
  | mul | div | rem => 1
  | add | sub => 2
  | lt | gt | le | ge => 3
  | eq | notEq | strictEq | strictNotEq => 4
  | and => 5
  | or => 6

end BinaryOp

/-- A property key known without evaluating anything. -/
inductive StaticKey where
  /-- A plain name. -/
  | name (name : String)
  /-- A quoted string. -/
  | string (value : String)
  /-- A number, as its source text. -/
  | number (text : String)
deriving DecidableEq

namespace StaticKey

/-- The name of the property a key denotes. -/
def denotes : StaticKey → String
  | name n => n
  | string v => v
  | number t => t

end StaticKey

mutual

/-- An expression. -/
inductive Expr where
  /-- A plain name. -/
  | identifier (name : String)
  /-- A string literal, by its value. -/
  | string (value : String)
  /-- A number literal, as its source text. -/
  | number (text : String)
  | bool (value : Bool)
  | null
  /-- `object.property` -/
  | member (object : Expr) (property : String)
  /-- `object[index]` -/
  | index (object index : Expr)
  /-- `callee(args)` -/
  | call (callee : Expr) (args : List Expr)
  /-- `new callee(args)` -/
  | construction (callee : Expr) (args : List Expr)
  | unary (op : UnaryOp) (operand : Expr)
  | binary (op : BinaryOp) (left right : Expr)
  /-- `test ? consequent : alternate` -/
  | conditional (test consequent alternate : Expr)
  /-- Expressions evaluated in turn, parted by commas. -/
  | sequence (items : List Expr)
  | array (items : List Expr)
  /-- An object literal. -/
  | object (properties : List Property)

/-- One entry of an object literal. -/
inductive Property where
  /-- An entry whose key is known. -/
  | static (key : StaticKey) (value : Expr)
  /-- An entry whose key is itself evaluated, `[key]: value`. -/
  | computed (key value : Expr)

end

/-- The name a property is known under, unless its key is computed. -/
def Property.name? : Property → Option String
  | .static key _ => some key.denotes
  | .computed _ _ => none

/-- The value of a property. -/
def Property.value : Property → Expr
  | .static _ value => value
  | .computed _ value => value

namespace Expr

/-! ### Literals and shapes -/

/-- The value of a string literal. -/
def string? : Expr → Option String
  | string value => some value
  | _ => none

/-- The value of a boolean literal. The strings `true` and `false` count as
well, since an attribute of a markup element arrives as a string. -/
def bool? : Expr → Option Bool
  | bool value => some value
  | string value =>
    if value = "true" then some true
    else if value = "false" then some false
    else none
  | _ => none

/-- The value of a string literal, or of a sum of such sums: the text it adds up
to. -/
def foldedString? : Expr → Option String
  | string value => some value
  | binary .add left right => do
    let before ← left.foldedString?
    let after ← right.foldedString?
    return before ++ after
  | _ => none

/-- The kind of an expression, as diagnostics name it. -/
def kindLabel : Expr → String
  | identifier _ => "Identifier"
  | string _ => "StringLiteral"
  | number _ => "NumericLiteral"
  | bool _ => "BooleanLiteral"
  | null => "NullLiteral"
  | member _ _ | index _ _ => "MemberExpression"
  | call _ _ => "CallExpression"
  | construction _ _ => "NewExpression"
  | unary _ _ => "UnaryExpression"
  | binary _ _ _ => "BinaryExpression"
  | conditional _ _ _ => "ConditionalExpression"
  | sequence _ => "SequenceExpression"
  | array _ => "ArrayExpression"
  | object _ => "ObjectExpression"

/-- Whether an expression is itself a call or a construction. -/
def isCall : Expr → Bool
  | call _ _ | construction _ _ => true
  | _ => false

end Expr

mutual

/-- Whether a call or a construction occurs anywhere in an expression. -/
def Expr.hasCall : Expr → Bool
  | .call _ _ | .construction _ _ => true
  | .identifier _ | .string _ | .number _ | .bool _ | .null => false
  | .member object _ => object.hasCall
  | .index object index => object.hasCall || index.hasCall
  | .unary _ operand => operand.hasCall
  | .binary _ left right => left.hasCall || right.hasCall
  | .conditional test consequent alternate =>
    test.hasCall || consequent.hasCall || alternate.hasCall
  | .sequence items => anyHasCall items
  | .array items => anyHasCall items
  | .object properties => anyPropertyHasCall properties

/-- Whether a call or a construction occurs in some expression of a list. -/
def anyHasCall : List Expr → Bool
  | [] => false
  | item :: items => item.hasCall || anyHasCall items

/-- Whether a call or a construction occurs in a property: in its value, or in a
computed key. -/
def Property.hasCall : Property → Bool
  | .static _ value => value.hasCall
  | .computed key value => key.hasCall || value.hasCall

/-- Whether a call or a construction occurs in some property of a list. -/
def anyPropertyHasCall : List Property → Bool
  | [] => false
  | property :: properties => property.hasCall || anyPropertyHasCall properties

end

/-! ### Equality -/

mutual

/-- Whether two expressions are equal. -/
def Expr.same : Expr → Expr → Bool
  | .identifier a, .identifier b => a == b
  | .string a, .string b => a == b
  | .number a, .number b => a == b
  | .bool a, .bool b => a == b
  | .null, .null => true
  | .member a p, .member b q => a.same b && p == q
  | .index a i, .index b j => a.same b && i.same j
  | .call a xs, .call b ys => a.same b && allSame xs ys
  | .construction a xs, .construction b ys => a.same b && allSame xs ys
  | .unary o a, .unary p b => o == p && a.same b
  | .binary o a c, .binary p b d => o == p && a.same b && c.same d
  | .conditional a c e, .conditional b d f => a.same b && c.same d && e.same f
  | .sequence xs, .sequence ys => allSame xs ys
  | .array xs, .array ys => allSame xs ys
  | .object ps, .object qs => allSameProperties ps qs
  | _, _ => false

/-- Whether two lists of expressions are equal. -/
def allSame : List Expr → List Expr → Bool
  | [], [] => true
  | a :: xs, b :: ys => a.same b && allSame xs ys
  | _, _ => false

/-- Whether two properties are equal. -/
def Property.same : Property → Property → Bool
  | .static k a, .static l b => k == l && a.same b
  | .computed k a, .computed l b => k.same l && a.same b
  | _, _ => false

/-- Whether two lists of properties are equal. -/
def allSameProperties : List Property → List Property → Bool
  | [], [] => true
  | p :: ps, q :: qs => p.same q && allSameProperties ps qs
  | _, _ => false

end

mutual

/-- **Equality of expressions is decided** by `Phrasebook.Expr.same`. -/
theorem Expr.same_iff : ∀ a b : Expr, a.same b = true ↔ a = b
  | .identifier a, b => by cases b <;> simp [Expr.same]
  | .string a, b => by cases b <;> simp [Expr.same]
  | .number a, b => by cases b <;> simp [Expr.same]
  | .bool a, b => by cases b <;> simp [Expr.same]
  | .null, b => by cases b <;> simp [Expr.same]
  | .member a p, b => by cases b <;> simp [Expr.same, Expr.same_iff a]
  | .index a i, b => by cases b <;> simp [Expr.same, Expr.same_iff a, Expr.same_iff i]
  | .call a xs, b => by cases b <;> simp [Expr.same, Expr.same_iff a, allSame_iff xs]
  | .construction a xs, b => by cases b <;> simp [Expr.same, Expr.same_iff a, allSame_iff xs]
  | .unary o a, b => by cases b <;> simp [Expr.same, Expr.same_iff a]
  | .binary o a c, b => by
    cases b <;> simp [Expr.same, Expr.same_iff a, Expr.same_iff c, and_assoc]
  | .conditional a c e, b => by
    cases b <;> simp [Expr.same, Expr.same_iff a, Expr.same_iff c, Expr.same_iff e, and_assoc]
  | .sequence xs, b => by cases b <;> simp [Expr.same, allSame_iff xs]
  | .array xs, b => by cases b <;> simp [Expr.same, allSame_iff xs]
  | .object ps, b => by cases b <;> simp [Expr.same, allSameProperties_iff ps]

theorem allSame_iff : ∀ xs ys : List Expr, allSame xs ys = true ↔ xs = ys
  | [], ys => by cases ys <;> simp [allSame]
  | a :: xs, ys => by cases ys <;> simp [allSame, Expr.same_iff a, allSame_iff xs]

theorem Property.same_iff : ∀ p q : Property, p.same q = true ↔ p = q
  | .static k a, q => by cases q <;> simp [Property.same, Expr.same_iff a]
  | .computed k a, q => by cases q <;> simp [Property.same, Expr.same_iff k, Expr.same_iff a]

theorem allSameProperties_iff :
    ∀ ps qs : List Property, allSameProperties ps qs = true ↔ ps = qs
  | [], qs => by cases qs <;> simp [allSameProperties]
  | p :: ps, qs => by
    cases qs <;> simp [allSameProperties, Property.same_iff p, allSameProperties_iff ps]

end

instance : DecidableEq Expr := fun a b => decidable_of_iff _ (Expr.same_iff a b)

end Phrasebook
