import Phrasebook.Expr.Reading

/-!
# The grammar of expressions

What rows of lexemes are expressions, and which, said without reading them from left to
right. `Phrasebook.Expr.Derives c ls v` says that the lexemes `ls` are a phrase of the
category `c` and stand for `v`. The categories, loosest first:

* a **sequence** is a conditional, or several parted by commas;
* a **conditional** is a chain of tier six, or `chain ? conditional : conditional`;
* a **chain** of tier `k + 1` is a chain of tier `k`, or a chain of tier `k + 1`, an operator
  of that tier (`Phrasebook.Expr.operators`) and a chain of tier `k`, which makes it
  left-associative; a chain of tier zero is an operand;
* an **operand** is an access behind any number of operators;
* an **access** is a primary with members, arguments and indices behind it;
* a **primary** is a literal, a name, a construction, or anything in brackets.

One construct of the language is ambiguous if it is written down like this. A construction
need not have arguments, and so `new a.b(c)` could be a call of the construction `new a.b`,
and `new a.b` could be a member of the construction `new a`. What is meant is that a
construction takes all the members that follow its name, and the arguments if these come
next. Hence a construction without arguments is a category of its own, the **bare**
accesses: it may be indexed, but it has neither members nor arguments behind it. All other
accesses are **settled**.
-/

namespace Phrasebook

/-- The lexeme of an operator before its operand. -/
def UnaryOp.lexeme : UnaryOp → Expr.Lexeme
  | not => .bang
  | minus => .operator .sub
  | plus => .operator .add
  | typeOf => .word "typeof"

/-- The lexeme of a key before its colon. -/
def StaticKey.lexeme : StaticKey → Expr.Lexeme
  | name n => .word n
  | string v => .quoted v
  | number t => .number t

namespace Expr

/-- What phrases there are. -/
inductive Category where
  | sequence
  | conditional
  /-- Operands with operators of a tier, or of tighter ones, between them. -/
  | chain (tier : Nat)
  | operand
  | access
  /-- An access that may have members and arguments behind it. -/
  | settled
  /-- A construction without arguments. -/
  | bare
  | primary
  /-- An entry of an object literal. -/
  | property
  /-- A list, perhaps empty, between brackets. -/
  | list (item : Category)
  /-- The items of a list behind its first, with the commas before them. -/
  | others (item : Category)

/-- What the phrases of a category stand for. -/
@[reducible] def Category.Value : Category → Type
  | property => Property
  | list item => List item.Value
  | others item => List item.Value
  | sequence | conditional | chain _ | operand | access | settled | bare | primary => Expr

/-- **The operators of a tier**, from those that bind tightest to the loosest. -/
def operators : Nat → List BinaryOp
  | 1 => [.mul, .div, .rem]
  | 2 => [.add, .sub]
  | 3 => [.lt, .gt, .le, .ge]
  | 4 => [.eq, .notEq, .strictEq, .strictNotEq]
  | 5 => [.and]
  | 6 => [.or]
  | _ => []

/-- The words that are no names of variables. -/
def reserved : List String :=
  ["true", "false", "null", "new", "typeof"]

/-- What is constructed: a name and members of it. Any word is a name here. -/
inductive Callee : List Lexeme → Expr → Prop
  | name (name : String) : Callee [.word name] (.identifier name)
  | member {ls : List Lexeme} {e : Expr} (h : Callee ls e) (property : String) :
    Callee (ls ++ [.dot, .word property]) (.member e property)

/-- **The grammar**: the lexemes that are a phrase of a category, and what they stand
for. -/
inductive Derives : (c : Category) → List Lexeme → c.Value → Prop
  | single {ls : List Lexeme} {e : Expr} (h : Derives .conditional ls e) :
    Derives .sequence ls e
  | sequence {ls ls' : List Lexeme} {e : Expr} {es : List Expr} (h : Derives .conditional ls e)
      (hes : Derives (.others .conditional) ls' es) (hne : es ≠ []) :
    Derives .sequence (ls ++ ls') (.sequence (e :: es))
  | test {ls : List Lexeme} {e : Expr} (h : Derives (.chain 6) ls e) :
    Derives .conditional ls e
  | conditional {ls ls₁ ls₂ : List Lexeme} {e e₁ e₂ : Expr} (h : Derives (.chain 6) ls e)
      (h₁ : Derives .conditional ls₁ e₁) (h₂ : Derives .conditional ls₂ e₂) :
    Derives .conditional (ls ++ .question :: (ls₁ ++ .colon :: ls₂)) (.conditional e e₁ e₂)
  | operand {ls : List Lexeme} {e : Expr} (h : Derives .operand ls e) : Derives (.chain 0) ls e
  | tighter {tier : Nat} {ls : List Lexeme} {e : Expr} (h : Derives (.chain tier) ls e) :
    Derives (.chain (tier + 1)) ls e
  | binary {tier : Nat} {op : BinaryOp} {ls ls' : List Lexeme} {e e' : Expr}
      (hop : op ∈ operators (tier + 1)) (h : Derives (.chain (tier + 1)) ls e)
      (h' : Derives (.chain tier) ls' e') :
    Derives (.chain (tier + 1)) (ls ++ .operator op :: ls') (.binary op e e')
  | access {ls : List Lexeme} {e : Expr} (h : Derives .access ls e) : Derives .operand ls e
  | unary (op : UnaryOp) {ls : List Lexeme} {e : Expr} (h : Derives .operand ls e) :
    Derives .operand (op.lexeme :: ls) (.unary op e)
  | settled {ls : List Lexeme} {e : Expr} (h : Derives .settled ls e) : Derives .access ls e
  | bare {ls : List Lexeme} {e : Expr} (h : Derives .bare ls e) : Derives .access ls e
  | primary {ls : List Lexeme} {e : Expr} (h : Derives .primary ls e) : Derives .settled ls e
  | member {ls : List Lexeme} {e : Expr} (h : Derives .settled ls e) (property : String) :
    Derives .settled (ls ++ [.dot, .word property]) (.member e property)
  | call {ls ls' : List Lexeme} {e : Expr} {args : List Expr} (h : Derives .settled ls e)
      (hargs : Derives (.list .conditional) ls' args) :
    Derives .settled (ls ++ .openParen :: (ls' ++ [.closeParen])) (.call e args)
  | index {ls ls' : List Lexeme} {e i : Expr} (h : Derives .access ls e)
      (hi : Derives .sequence ls' i) :
    Derives .settled (ls ++ .openBracket :: (ls' ++ [.closeBracket])) (.index e i)
  | construction {ls : List Lexeme} {e : Expr} (h : Callee ls e) :
    Derives .bare (.word "new" :: ls) (.construction e [])
  | constructionWith {ls ls' : List Lexeme} {e : Expr} {args : List Expr} (h : Callee ls e)
      (hargs : Derives (.list .conditional) ls' args) :
    Derives .primary (.word "new" :: (ls ++ .openParen :: (ls' ++ [.closeParen])))
      (.construction e args)
  | string (value : String) : Derives .primary [.quoted value] (.string value)
  | number (text : String) : Derives .primary [.number text] (.number text)
  | trueWord : Derives .primary [.word "true"] (.bool true)
  | falseWord : Derives .primary [.word "false"] (.bool false)
  | nullWord : Derives .primary [.word "null"] .null
  | identifier {name : String} (h : name ∉ reserved) :
    Derives .primary [.word name] (.identifier name)
  | parens {ls : List Lexeme} {e : Expr} (h : Derives .sequence ls e) :
    Derives .primary (.openParen :: (ls ++ [.closeParen])) e
  | array {ls : List Lexeme} {es : List Expr} (h : Derives (.list .conditional) ls es) :
    Derives .primary (.openBracket :: (ls ++ [.closeBracket])) (.array es)
  | object {ls : List Lexeme} {ps : List Property} (h : Derives (.list .property) ls ps) :
    Derives .primary (.openBrace :: (ls ++ [.closeBrace])) (.object ps)
  | static (key : StaticKey) {ls : List Lexeme} {e : Expr} (h : Derives .conditional ls e) :
    Derives .property (key.lexeme :: .colon :: ls) (.static key e)
  | computed {ls ls' : List Lexeme} {e e' : Expr} (h : Derives .sequence ls e)
      (h' : Derives .conditional ls' e') :
    Derives .property (.openBracket :: (ls ++ .closeBracket :: .colon :: ls')) (.computed e e')
  | empty (item : Category) : Derives (.list item) [] []
  | list {item : Category} {ls ls' : List Lexeme} {v : item.Value} {vs : List item.Value}
      (h : Derives item ls v) (hvs : Derives (.others item) ls' vs) :
    Derives (.list item) (ls ++ ls') (v :: vs)
  | noOthers (item : Category) : Derives (.others item) [] []
  | others {item : Category} {ls ls' : List Lexeme} {v : item.Value} {vs : List item.Value}
      (h : Derives item ls v) (hvs : Derives (.others item) ls' vs) :
    Derives (.others item) (.comma :: (ls ++ ls')) (v :: vs)

/-! ### The operators before an operand -/

theorem unaryOp?_eq_some_iff {l : Lexeme} {op : UnaryOp} :
    l.unaryOp? = some op ↔ l = op.lexeme := by
  constructor
  · intro h
    rw [Lexeme.unaryOp?.eq_def] at h
    split at h
    · obtain rfl := Option.some.inj h
      rfl
    · obtain rfl := Option.some.inj h
      rfl
    · obtain rfl := Option.some.inj h
      rfl
    · split at h
      · rename_i hname
        obtain rfl := Option.some.inj h
        rw [hname]
        rfl
      · exact nomatch h
    · exact nomatch h
  · rintro rfl
    cases op <;> rfl

/-! ### Tiers -/

/-- The operators of a tier are those that a descent takes for that tier. -/
theorem mem_operators_iff {op : BinaryOp} {tier : Nat} : op ∈ operators tier ↔ op.tier = tier := by
  constructor
  · rw [operators.eq_def]
    split <;> cases op <;> simp [BinaryOp.tier]
  · rintro rfl
    cases op <;> decide

/-! ### Phrases of looser categories -/

/-- A chain is a chain of every looser tier. -/
theorem Derives.chain_mono {tier tier' : Nat} {ls : List Lexeme} {e : Expr}
    (h : Derives (.chain tier) ls e) (hle : tier ≤ tier') : Derives (.chain tier') ls e := by
  induction hle with
  | refl => exact h
  | step _ ih => exact ih.tighter

theorem Derives.chain_of_operand {ls : List Lexeme} {e : Expr} (h : Derives .operand ls e)
    (tier : Nat) : Derives (.chain tier) ls e :=
  h.operand.chain_mono (Nat.zero_le tier)

theorem Derives.conditional_of_operand {ls : List Lexeme} {e : Expr}
    (h : Derives .operand ls e) : Derives .conditional ls e :=
  (h.chain_of_operand 6).test

theorem Derives.operand_of_settled {ls : List Lexeme} {e : Expr} (h : Derives .settled ls e) :
    Derives .operand ls e :=
  h.settled.access

theorem Derives.conditional_of_settled {ls : List Lexeme} {e : Expr}
    (h : Derives .settled ls e) : Derives .conditional ls e :=
  h.operand_of_settled.conditional_of_operand

/-- Every operator has a tier, and a chain of the loosest is a conditional. -/
theorem exists_tier (op : BinaryOp) : ∃ tier, op ∈ operators (tier + 1) ∧ tier + 1 ≤ 6 := by
  obtain ⟨tier, htier, hle⟩ : ∃ tier, op.tier = tier + 1 ∧ tier + 1 ≤ 6 := by
    cases op <;> exact ⟨_, rfl, by decide⟩
  exact ⟨tier, mem_operators_iff.mpr htier, hle⟩

/-- Between settled accesses an operator needs no parentheses. -/
theorem Derives.binary_of_settled {ls ls' : List Lexeme} {e e' : Expr}
    (h : Derives .settled ls e) (h' : Derives .settled ls' e') (op : BinaryOp) :
    Derives .conditional (ls ++ .operator op :: ls') (.binary op e e') := by
  obtain ⟨tier, htier, hle⟩ := exists_tier op
  have hleft := h.operand_of_settled.chain_of_operand (tier + 1)
  have hright := h'.operand_of_settled.chain_of_operand tier
  exact ((Derives.binary htier hleft hright).chain_mono hle).test

/-! ### Lists -/

theorem Derives.singleton {item : Category} {ls : List Lexeme} {v : item.Value}
    (h : Derives item ls v) : Derives (.list item) ls [v] := by
  simpa using h.list (.noOthers item)

theorem Derives.others_append {item : Category} {ls ls' : List Lexeme} {vs vs' : List item.Value}
    (h : Derives (.others item) ls vs) (h' : Derives (.others item) ls' vs') :
    Derives (.others item) (ls ++ ls') (vs ++ vs') := by
  induction vs generalizing ls with
  | nil =>
    cases h
    exact h'
  | cons v vs ih =>
    cases h with
    | others hv hvs =>
      have hothers := hv.others (ih hvs)
      rwa [← List.append_assoc] at hothers

/-- Two lists are one with a comma between them, unless one of them is empty. -/
theorem Derives.list_append {item : Category} {ls ls' : List Lexeme} {vs vs' : List item.Value}
    (h : Derives (.list item) ls vs) (h' : Derives (.list item) ls' vs') (hne : vs ≠ [])
    (hne' : vs' ≠ []) : Derives (.list item) (ls ++ .comma :: ls') (vs ++ vs') := by
  cases h with
  | empty => exact absurd rfl hne
  | list hv hvs =>
    cases h' with
    | empty => exact absurd rfl hne'
    | list hv' hvs' =>
      rw [List.append_assoc]
      exact hv.list (hvs.others_append (hv'.others hvs'))

/-- A list of two items or more is a sequence. -/
theorem Derives.sequence_of_list {ls : List Lexeme} {es : List Expr}
    (h : Derives (.list .conditional) ls es) (hlength : 2 ≤ es.length) :
    Derives .sequence ls (.sequence es) := by
  cases h with
  | empty => exact absurd hlength (by decide)
  | list he hes =>
    refine he.sequence hes ?_
    rintro rfl
    simp at hlength

/-! ### Stray lexemes -/

/-- No phrase has a stray lexeme in it. -/
theorem Callee.not_stray {ls : List Lexeme} {e : Expr} (h : Callee ls e) (c : Char) :
    Lexeme.stray c ∉ ls := by
  induction h with
  | name => simp
  | member _ _ ih => simp [ih]

@[simp] theorem Derives.not_stray {c : Category} {ls : List Lexeme} {v : c.Value}
    (h : Derives c ls v) (ch : Char) : Lexeme.stray ch ∉ ls := by
  induction h with
  | unary op _ ih => cases op <;> simp [UnaryOp.lexeme, ih]
  | static key _ ih => cases key <;> simp [StaticKey.lexeme, ih]
  | construction h => simp [h.not_stray]
  | constructionWith h _ ih => simp [h.not_stray, ih]
  | _ => simp_all

end Expr

end Phrasebook
