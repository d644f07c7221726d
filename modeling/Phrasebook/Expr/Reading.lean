import Phrasebook.Expr.Lexeme

/-!
# Reading expressions from lexemes

A descent through the grammar of expressions, loosest construct first:

* a *sequence* is one or more conditionals parted by commas;
* a *conditional* is a chain, or `chain ? conditional : conditional`;
* a *chain* of tier `k` is a left-associative run of operators of that tier
  (`Phrasebook.BinaryOp.tier`) between chains of tier `k - 1`, and a chain of
  tier zero is an operand;
* an *operand* is an operator and an operand, or an access;
* an *access* is a primary followed by members, arguments and indices;
* a *primary* is a literal, a name, a construction, or anything in brackets.

Three points fix what is read where texts go wrong. A list inside brackets
**gives back** the comma, and all after it, that no item follows, where a
sequence insists on its item. A primary that begins with a bracket and fails is
left at its bracket, wherever inside it failed. And an exclamation mark where an
operand is due is a negation even when it is the start of `!=`.

Every function takes a fuel that bounds the depth of the descent;
`Phrasebook.Expr.fuelFor` gives one that grows with the number of lexemes and is
never used up. Running out of it is an outcome apart from failing.
-/

namespace Phrasebook

namespace Expr

/-- Where a reading stopped: before the lexemes `rest`, or, if `afterBang` holds,
behind the exclamation mark that the first of them begins with. -/
structure Stop where
  rest : List Lexeme
  afterBang : Bool := false
deriving DecidableEq

/-- What a reading comes to. -/
inductive Outcome (α : Type) where
  /-- It read a value, and `rest` is left. -/
  | done (value : α) (rest : List Lexeme)
  /-- It stopped where nothing fits. -/
  | failed (stop : Stop)
  /-- It ran out of fuel. -/
  | unfinished

namespace Outcome

variable {α β : Type}

/-- Goes on with what is left, if a value was read. -/
def andThen (o : Outcome α) (f : α → List Lexeme → Outcome β) : Outcome β :=
  match o with
  | done value rest => f value rest
  | failed stop => failed stop
  | unfinished => unfinished

/-- Moves a failure back to `start`. -/
def orFailAt (start : List Lexeme) : Outcome α → Outcome α
  | failed _ => failed { rest := start }
  | o => o

/-- Reads one certain lexeme after a value. -/
def closedBy (close : Lexeme) (o : Outcome α) : Outcome α :=
  o.andThen fun value rest =>
    match rest with
    | l :: rest' => if l = close then done value rest' else failed { rest := rest }
    | [] => failed { rest := [] }

end Outcome

/-! ### Lists and chains -/

section Lists

variable {α : Type} (item : List Lexeme → Outcome α)

/-- The items of a list that follow its first, each after a comma. A comma that
no item follows is given back. -/
def itemsAfterComma : Nat → List Lexeme → Outcome (List α)
  | 0, _ => .unfinished
  | fuel + 1, .comma :: ls =>
    match item ls with
    | .done value rest =>
      (itemsAfterComma fuel rest).andThen fun values rest => .done (value :: values) rest
    | .failed _ => .done [] (.comma :: ls)
    | .unfinished => .unfinished
  | _ + 1, ls => .done [] ls

/-- A list, perhaps empty, of items parted by commas. -/
def items (fuel : Nat) (ls : List Lexeme) : Outcome (List α) :=
  match item ls with
  | .done value rest =>
    (itemsAfterComma item fuel rest).andThen fun values rest => .done (value :: values) rest
  | .failed _ => .done [] ls
  | .unfinished => .unfinished

/-- The items of a sequence that follow its first: every comma asks for one. -/
def sequenceAfterComma : Nat → List Lexeme → Outcome (List α)
  | 0, _ => .unfinished
  | fuel + 1, .comma :: ls =>
    (item ls).andThen fun value rest =>
      (sequenceAfterComma fuel rest).andThen fun values rest => .done (value :: values) rest
  | _ + 1, ls => .done [] ls

end Lists

/-- The operators of one tier, each with its right operand, that follow `left`. -/
def chainAfter (operand : List Lexeme → Outcome Expr) (tier : Nat) :
    Nat → Expr → List Lexeme → Outcome Expr
  | 0, _, _ => .unfinished
  | fuel + 1, left, .operator op :: ls =>
    if op.tier = tier then
      (operand ls).andThen fun right rest =>
        chainAfter operand tier fuel (.binary op left right) rest
    else .done left (.operator op :: ls)
  | _ + 1, left, ls => .done left ls

/-! ### Names and accesses -/

/-- The members, `.name` each, that directly follow an expression. -/
def membersAfter (object : Expr) : List Lexeme → Expr × List Lexeme
  | .dot :: .word name :: ls => membersAfter (.member object name) ls
  | ls => (object, ls)

/-- The members, arguments and indices that follow an expression. -/
def accessesAfter (arguments : List Lexeme → Outcome (List Expr))
    (subscript : List Lexeme → Outcome Expr) : Nat → Expr → List Lexeme → Outcome Expr
  | 0, _, _ => .unfinished
  | fuel + 1, e, .dot :: .word name :: ls =>
    accessesAfter arguments subscript fuel (.member e name) ls
  | _ + 1, _, .dot :: ls => .failed { rest := ls }
  | fuel + 1, e, .openParen :: ls =>
    (arguments ls).andThen fun args rest =>
      accessesAfter arguments subscript fuel (.call e args) rest
  | fuel + 1, e, .openBracket :: ls =>
    (subscript ls).andThen fun i rest =>
      accessesAfter arguments subscript fuel (.index e i) rest
  | _ + 1, e, ls => .done e ls

/-- What follows the word `new`: a name, its members, and arguments if an
opening parenthesis comes next. -/
def constructionAfter (arguments : List Lexeme → Outcome (List Expr)) :
    List Lexeme → Outcome Expr
  | .word name :: ls =>
    match membersAfter (.identifier name) ls with
    | (callee, .openParen :: rest) =>
      (arguments rest).andThen fun args rest => .done (.construction callee args) rest
    | (callee, rest) => .done (.construction callee []) rest
  | ls => .failed { rest := ls }

/-- The operator a lexeme is where an operand is due. -/
def Lexeme.unaryOp? : Lexeme → Option UnaryOp
  | .bang => some .not
  | .operator .sub => some .minus
  | .operator .add => some .plus
  | .word name => if name = "typeof" then some .typeOf else none
  | _ => none

/-- Whether a lexeme begins with an exclamation mark and is longer. -/
def Lexeme.hidesBang : Lexeme → Bool
  | .operator .notEq | .operator .strictNotEq => true
  | _ => false

/-! ### The descent -/

mutual

/-- A sequence; a single item stands for itself. -/
def sequenceOf : Nat → List Lexeme → Outcome Expr
  | 0, _ => .unfinished
  | fuel + 1, ls =>
    (conditionalOf fuel ls).andThen fun first rest =>
      (sequenceAfterComma (conditionalOf fuel) fuel rest).andThen fun others rest =>
        match others with
        | [] => .done first rest
        | others => .done (.sequence (first :: others)) rest

/-- A conditional, or a chain that no question mark follows. -/
def conditionalOf : Nat → List Lexeme → Outcome Expr
  | 0, _ => .unfinished
  | fuel + 1, ls =>
    (chainOf fuel 6 ls).andThen fun test rest =>
      match rest with
      | .question :: rest =>
        ((conditionalOf fuel rest).closedBy .colon).andThen fun consequent rest =>
          (conditionalOf fuel rest).andThen fun alternate rest =>
            .done (.conditional test consequent alternate) rest
      | rest => .done test rest

/-- A chain of the operators of a tier; tier zero has none. -/
def chainOf : Nat → Nat → List Lexeme → Outcome Expr
  | 0, _, _ => .unfinished
  | fuel + 1, 0, ls => operandOf fuel ls
  | fuel + 1, tier + 1, ls =>
    (chainOf fuel tier ls).andThen (chainAfter (chainOf fuel tier) (tier + 1) fuel)

/-- An operand: an access behind any number of operators. -/
def operandOf : Nat → List Lexeme → Outcome Expr
  | 0, _ => .unfinished
  | fuel + 1, ls =>
    match ls with
    | [] => .failed { rest := [] }
    | l :: rest =>
      match l.unaryOp? with
      | some op => (operandOf fuel rest).andThen fun operand rest => .done (.unary op operand) rest
      | none =>
        if l.hidesBang then .failed { rest := ls, afterBang := true }
        else accessOf fuel ls

/-- An access: a primary and what follows it. -/
def accessOf : Nat → List Lexeme → Outcome Expr
  | 0, _ => .unfinished
  | fuel + 1, ls =>
    (primaryOf fuel ls).andThen
      (accessesAfter (argumentsOf fuel)
        (fun rest => (sequenceOf fuel rest).closedBy .closeBracket) fuel)

/-- The arguments of a call, behind its opening parenthesis. -/
def argumentsOf : Nat → List Lexeme → Outcome (List Expr)
  | 0, _ => .unfinished
  | fuel + 1, ls => (items (conditionalOf fuel) fuel ls).closedBy .closeParen

/-- A primary. -/
def primaryOf : Nat → List Lexeme → Outcome Expr
  | 0, _ => .unfinished
  | fuel + 1, ls =>
    match ls with
    | .quoted value :: rest => .done (.string value) rest
    | .number text :: rest => .done (.number text) rest
    | .word name :: rest =>
      if name = "true" then .done (.bool true) rest
      else if name = "false" then .done (.bool false) rest
      else if name = "null" then .done .null rest
      else if name = "new" then constructionAfter (argumentsOf fuel) rest
      else .done (.identifier name) rest
    | .openParen :: rest => ((sequenceOf fuel rest).closedBy .closeParen).orFailAt ls
    | .openBracket :: rest =>
      ((items (conditionalOf fuel) fuel rest).closedBy .closeBracket).orFailAt ls
        |>.andThen fun values rest => .done (.array values) rest
    | .openBrace :: rest =>
      ((items (propertyOf fuel) fuel rest).closedBy .closeBrace).orFailAt ls
        |>.andThen fun properties rest => .done (.object properties) rest
    | ls => .failed { rest := ls }

/-- A property of an object literal: a key, a colon and a value. -/
def propertyOf : Nat → List Lexeme → Outcome Property
  | 0, _ => .unfinished
  | fuel + 1, ls =>
    match ls with
    | .quoted value :: .colon :: rest => valueOf fuel (.static (.string value)) rest
    | .number text :: .colon :: rest => valueOf fuel (.static (.number text)) rest
    | .word name :: .colon :: rest => valueOf fuel (.static (.name name)) rest
    | .openBracket :: rest =>
      (((sequenceOf fuel rest).closedBy .closeBracket).closedBy .colon).andThen fun key rest =>
        valueOf fuel (.computed key) rest
    | ls => .failed { rest := ls }

/-- The value of a property, put behind its key. -/
def valueOf : Nat → (Expr → Property) → List Lexeme → Outcome Property
  | 0, _, _ => .unfinished
  | fuel + 1, key, ls =>
    (conditionalOf fuel ls).andThen fun value rest => .done (key value) rest

end

/-- A fuel that lasts for a list of lexemes. -/
def fuelFor (ls : List Lexeme) : Nat :=
  16 * (ls.length + 1)

end Expr

end Phrasebook
