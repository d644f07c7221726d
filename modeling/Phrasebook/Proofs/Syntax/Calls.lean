import Mathlib.Logic.Relation
import Phrasebook.Proofs.Syntax.Fuel

/-!
# Which reader calls which

The descent is a dozen readers and their loops, most of which pass on what they were given without
taking any of it. That it comes to an end is a matter of who calls whom, and with what:
`Phrasebook.Expr.Calls` has a constructor for each place where a reader asks another one, or itself.

* A call is given an ending of what the caller was given, and it costs less
  (`Phrasebook.Expr.Calls.cost_lt`). The **cost** of a reading weighs the lexemes it is given, and
  then how far its reader is from taking one.
* Hence a reader is called from within its own reading only behind at least one lexeme
  (`Phrasebook.Expr.Calls.behind_of_transGen`): the reader weighs the same, so the lexemes must be
  fewer.
* A turn of a loop is a call of the loop by itself, and a loop leaves what it comes to by its turns
  alone (`Phrasebook.Expr.Reader.Reaches.turns`).

That the list of calls is complete is for `Phrasebook.Expr.callRunsOut_of_run`.
-/

namespace Phrasebook

namespace Expr

variable {α β : Type}

/-! ### Readers and what they come to -/

/-- The items of the lists in brackets. -/
inductive ListItem where
  | conditional
  | property

/-- What the items of a list stand for. -/
def ListItem.Value : ListItem → Type
  | conditional => Expr
  | property => Property

/-- Reads an item of a list. -/
def ListItem.read : (item : ListItem) → Nat → List Lexeme → Outcome item.Value
  | conditional => conditionalOf
  | property => propertyOf

/-- The readers of the descent and the loops they run. A chain of each tier has a reader of its
own. -/
inductive Reader where
  | sequence
  /-- The items of a sequence behind its first. -/
  | sequenceLoop
  | conditional
  | chain (tier : Nat)
  /-- The operators of the tier above a chain's, and their right operands. -/
  | chainLoop (tier : Nat)
  | operand
  | access
  /-- The members, arguments and indices behind an expression. -/
  | accessLoop
  | arguments
  | primary
  /-- What follows the word `new`. -/
  | construction
  /-- The members of what is constructed. -/
  | memberLoop
  | property
  | value
  /-- A list between brackets. -/
  | list (item : ListItem)
  /-- The items of a list behind its first. -/
  | listLoop (item : ListItem)

/-- The reader of an item. -/
def ListItem.reader : ListItem → Reader
  | conditional => .conditional
  | property => .property

/-- An outcome without the value that was read. -/
def Outcome.void : Outcome α → Outcome Unit
  | done _ rest => done () rest
  | failed stop => failed stop
  | unfinished => unfinished

namespace Outcome

variable {o : Outcome α}

theorem void_unfinished (h : o = .unfinished) : o.void = .unfinished := congrArg void h

theorem void_done {v : α} {rest : List Lexeme} (h : o = .done v rest) :
    o.void = .done () rest := congrArg void h

theorem eq_unfinished_of_void (h : o.void = .unfinished) : o = .unfinished := by
  cases o with
  | unfinished => rfl
  | _ => exact nomatch h

theorem exists_of_void_eq_done {v : Unit} {rest : List Lexeme} (h : o.void = .done v rest) :
    ∃ v, o = .done v rest := by
  cases o with
  | done v _ =>
    obtain ⟨-, rfl⟩ := Outcome.done.inj h
    exact ⟨v, rfl⟩
  | _ => exact nomatch h

end Outcome

/-- **What a reading comes to**, its value apart. The loops of chains and accesses are run behind
an expression; which one makes no difference to what they read. -/
def Reader.run (fuel : Nat) : Reader → List Lexeme → Outcome Unit
  | sequence, ls => (sequenceOf fuel ls).void
  | sequenceLoop, ls => (sequenceAfterComma (conditionalOf fuel) fuel ls).void
  | conditional, ls => (conditionalOf fuel ls).void
  | chain tier, ls => (chainOf fuel tier ls).void
  | chainLoop tier, ls => (chainAfter (chainOf fuel tier) (tier + 1) fuel .null ls).void
  | operand, ls => (operandOf fuel ls).void
  | access, ls => (accessOf fuel ls).void
  | accessLoop, ls =>
    (accessesAfter (argumentsOf fuel) (fun ls => (sequenceOf fuel ls).closedBy .closeBracket) fuel
      .null ls).void
  | arguments, ls => (argumentsOf fuel ls).void
  | primary, ls => (primaryOf fuel ls).void
  | construction, ls => (constructionAfter (argumentsOf fuel) ls).void
  | memberLoop, ls => .done () (membersAfter .null ls).2
  | property, ls => (propertyOf fuel ls).void
  | value, ls => (valueOf fuel (.computed .null) ls).void
  | list item, ls => (items (item.read fuel) fuel ls).void
  | listLoop item, ls => (itemsAfterComma (item.read fuel) fuel ls).void

theorem ListItem.run_reader (item : ListItem) (fuel : Nat) (ls : List Lexeme) :
    item.reader.run fuel ls = (item.read fuel ls).void := by
  cases item <;> rfl

/-- A reader that is given `ls` **reaches** `rest`: it reads a value and leaves them. -/
def Reader.Reaches (r : Reader) (ls rest : List Lexeme) : Prop :=
  ∃ fuel, r.run fuel ls = .done () rest

/-! ### Calls -/

/-- **One reading calls another**: a reader that is given some lexemes asks another reader, or
itself, and gives it some of them. -/
inductive Calls : Reader × List Lexeme → Reader × List Lexeme → Prop
  | firstPart {ls} : Calls (.sequence, ls) (.conditional, ls)
  | otherParts {ls rest} (h : Reader.conditional.Reaches ls rest) :
    Calls (.sequence, ls) (.sequenceLoop, rest)
  | part {ls} : Calls (.sequenceLoop, .comma :: ls) (.conditional, ls)
  | nextPart {ls rest} (h : Reader.conditional.Reaches ls rest) :
    Calls (.sequenceLoop, .comma :: ls) (.sequenceLoop, rest)
  | test {ls} : Calls (.conditional, ls) (.chain 6, ls)
  | consequent {ls rest} (h : (Reader.chain 6).Reaches ls (.question :: rest)) :
    Calls (.conditional, ls) (.conditional, rest)
  | alternate {ls rest rest'} (h : (Reader.chain 6).Reaches ls (.question :: rest))
      (h' : Reader.conditional.Reaches rest (.colon :: rest')) :
    Calls (.conditional, ls) (.conditional, rest')
  | operandOfChain {ls} : Calls (.chain 0, ls) (.operand, ls)
  | tighterChain {tier ls} : Calls (.chain (tier + 1), ls) (.chain tier, ls)
  | operators {tier ls rest} (h : (Reader.chain tier).Reaches ls rest) :
    Calls (.chain (tier + 1), ls) (.chainLoop tier, rest)
  | rightOperand {tier op ls} (hop : op.tier = tier + 1) :
    Calls (.chainLoop tier, .operator op :: ls) (.chain tier, ls)
  | nextOperator {tier op ls rest} (hop : op.tier = tier + 1)
      (h : (Reader.chain tier).Reaches ls rest) :
    Calls (.chainLoop tier, .operator op :: ls) (.chainLoop tier, rest)
  | unary {l op ls} (h : l.unaryOp? = some op) : Calls (.operand, l :: ls) (.operand, ls)
  | accessOfOperand {l ls} (h : l.unaryOp? = none) (h' : l.hidesBang = false) :
    Calls (.operand, l :: ls) (.access, l :: ls)
  | primaryOfAccess {ls} : Calls (.access, ls) (.primary, ls)
  | accesses {ls rest} (h : Reader.primary.Reaches ls rest) :
    Calls (.access, ls) (.accessLoop, rest)
  | behindMember {name ls} : Calls (.accessLoop, .dot :: .word name :: ls) (.accessLoop, ls)
  | argumentsOfCall {ls} : Calls (.accessLoop, .openParen :: ls) (.arguments, ls)
  | behindCall {ls rest} (h : Reader.arguments.Reaches ls rest) :
    Calls (.accessLoop, .openParen :: ls) (.accessLoop, rest)
  | index {ls} : Calls (.accessLoop, .openBracket :: ls) (.sequence, ls)
  | behindIndex {ls rest} (h : Reader.sequence.Reaches ls (.closeBracket :: rest)) :
    Calls (.accessLoop, .openBracket :: ls) (.accessLoop, rest)
  | listOfArguments {ls} : Calls (.arguments, ls) (.list .conditional, ls)
  | construction {ls} : Calls (.primary, .word "new" :: ls) (.construction, ls)
  | parens {ls} : Calls (.primary, .openParen :: ls) (.sequence, ls)
  | array {ls} : Calls (.primary, .openBracket :: ls) (.list .conditional, ls)
  | object {ls} : Calls (.primary, .openBrace :: ls) (.list .property, ls)
  | members {name ls} : Calls (.construction, .word name :: ls) (.memberLoop, ls)
  | nextMember {name ls} : Calls (.memberLoop, .dot :: .word name :: ls) (.memberLoop, ls)
  | constructionArguments {name ls rest} (h : Reader.memberLoop.Reaches ls (.openParen :: rest)) :
    Calls (.construction, .word name :: ls) (.arguments, rest)
  | valueOfStatic {ls} (key : StaticKey) :
    Calls (.property, key.lexeme :: .colon :: ls) (.value, ls)
  | key {ls} : Calls (.property, .openBracket :: ls) (.sequence, ls)
  | valueOfComputed {ls rest} (h : Reader.sequence.Reaches ls (.closeBracket :: .colon :: rest)) :
    Calls (.property, .openBracket :: ls) (.value, rest)
  | conditionalOfValue {ls} : Calls (.value, ls) (.conditional, ls)
  | firstItem {item ls} : Calls (.list item, ls) (item.reader, ls)
  | otherItems {item ls rest} (h : item.reader.Reaches ls rest) :
    Calls (.list item, ls) (.listLoop item, rest)
  | item {item ls} : Calls (.listLoop item, .comma :: ls) (item.reader, ls)
  | nextItem {item ls rest} (h : item.reader.Reaches ls rest) :
    Calls (.listLoop item, .comma :: ls) (.listLoop item, rest)

/-! ### What calls are given -/

/-- Readers that read one thing after another until nothing follows that they read. -/
def Reader.isLoop : Reader → Bool
  | sequenceLoop | chainLoop _ | accessLoop | memberLoop | listLoop _ => true
  | _ => false

/-- What may read nothing: the loops, and the lists between brackets. -/
def Reader.mayTakeNothing : Reader → Bool
  | list _ => true
  | r => r.isLoop

theorem Outcome.leaves_void {o : Outcome α} {P : List Lexeme → Prop} (h : o.Leaves P) :
    o.void.Leaves P := by
  cases o with
  | done v rest => exact leaves_done (h rfl)
  | failed stop => exact leaves_failed stop
  | unfinished => exact leaves_unfinished

/-- A reader that may not take nothing takes a lexeme. -/
theorem Reader.run_behind {r : Reader} (hr : r.mayTakeNothing = false) (fuel : Nat)
    (ls : List Lexeme) : (r.run fuel ls).Leaves (Behind ls) := by
  have h := shortensAt fuel
  cases r with
  | sequence => exact Outcome.leaves_void (h.sequence ls)
  | conditional => exact Outcome.leaves_void (h.conditional ls)
  | chain tier => exact Outcome.leaves_void (h.chain tier ls)
  | operand => exact Outcome.leaves_void (h.operand ls)
  | access => exact Outcome.leaves_void (h.access ls)
  | arguments => exact Outcome.leaves_void (h.arguments ls)
  | primary => exact Outcome.leaves_void (h.primary ls)
  | construction =>
    exact Outcome.leaves_void (constructionAfter_leaves (fun ls => (h.arguments ls).suffix) ls)
  | property => exact Outcome.leaves_void (h.property ls)
  | value => exact Outcome.leaves_void (h.value _ ls)
  | sequenceLoop | chainLoop | accessLoop | memberLoop | list | listLoop => exact nomatch hr

/-- **Every reader leaves an ending** of what it was given. -/
theorem Reader.run_suffix (r : Reader) (fuel : Nat) (ls : List Lexeme) :
    (r.run fuel ls).Leaves (· <:+ ls) := by
  have h := shortensAt fuel
  have hitem : ∀ (item : ListItem) (ls : List Lexeme), (item.read fuel ls).Leaves (· <:+ ls) :=
    fun item ls => by
      cases item with
      | conditional => exact (h.conditional ls).suffix
      | property => exact (h.property ls).suffix
  cases r with
  | sequenceLoop =>
    exact Outcome.leaves_void
      (sequenceAfterComma_leaves (fun ls => (h.conditional ls).suffix) fuel ls)
  | chainLoop tier =>
    exact Outcome.leaves_void (chainAfter_leaves (fun ls => (h.chain tier ls).suffix) _ _ _ ls)
  | accessLoop =>
    exact Outcome.leaves_void (accessesAfter_leaves (fun ls => (h.arguments ls).suffix)
      (fun ls => ((h.sequence ls).suffix.closedBy_behind).suffix) fuel _ ls)
  | memberLoop => exact Outcome.leaves_done (membersAfter_suffix _ ls)
  | list item => exact Outcome.leaves_void (items_leaves (hitem item) fuel ls)
  | listLoop item => exact Outcome.leaves_void (itemsAfterComma_leaves (hitem item) fuel ls)
  | _ => exact (Reader.run_behind rfl fuel ls).suffix

theorem Reader.Reaches.suffix {r : Reader} {ls rest : List Lexeme} (h : r.Reaches ls rest) :
    rest <:+ ls := by
  obtain ⟨fuel, h⟩ := h
  exact r.run_suffix fuel ls h

/-- How far a reader is from taking a lexeme. -/
def Reader.rank : Reader → Nat
  | arguments => 13
  | sequence | value | list _ => 12
  | conditional => 11
  | chain tier => tier + 4
  | operand => 3
  | access => 2
  | primary | construction | property => 1
  | chainLoop tier => tier
  | sequenceLoop | accessLoop | memberLoop | listLoop _ => 0

/-- **The cost of a reading**: the lexemes given weigh most, and then the reader. -/
def cost (reading : Reader × List Lexeme) : Nat :=
  16 * reading.2.length + reading.1.rank

namespace Calls

variable {reading reading' : Reader × List Lexeme}

/-- A call is given an ending of what the caller was given. -/
theorem suffix (h : Calls reading reading') : reading'.2 <:+ reading.2 := by
  have hcons := fun (l : Lexeme) (ls : List Lexeme) => List.suffix_cons l ls
  cases h with
  | otherParts h | operators h | accesses h | otherItems h => exact h.suffix
  | nextPart h | nextOperator _ h | behindCall h | nextItem h => exact h.suffix.trans (hcons _ _)
  | consequent h => exact (hcons _ _).trans h.suffix
  | alternate h h' => exact ((hcons _ _).trans h'.suffix).trans ((hcons _ _).trans h.suffix)
  | behindIndex h | constructionArguments h =>
    exact ((hcons _ _).trans h.suffix).trans (hcons _ _)
  | valueOfComputed h =>
    exact (((hcons _ _).trans (hcons _ _)).trans h.suffix).trans (hcons _ _)
  | behindMember | nextMember | valueOfStatic => exact (hcons _ _).trans (hcons _ _)
  | part | rightOperand | unary | argumentsOfCall | index | construction | parens | array | object
  | members | key | item => exact hcons _ _
  | _ => exact List.suffix_refl _

/-- **A call costs less than the reading that makes it.** -/
theorem cost_lt (h : Calls reading reading') : cost reading' < cost reading := by
  cases h with
  | otherParts h | operators h | accesses h | otherItems h | nextPart h | nextOperator _ h
  | behindCall h | nextItem h =>
    have hlength := h.suffix.length_le
    simp only [cost, Reader.rank, List.length_cons]
    omega
  | consequent h | behindIndex h | constructionArguments h | valueOfComputed h =>
    have hlength := h.suffix.length_le
    simp only [List.length_cons] at hlength
    simp only [cost, Reader.rank, List.length_cons]
    omega
  | alternate h h' =>
    have hlength := h.suffix.length_le
    have hlength' := h'.suffix.length_le
    simp only [List.length_cons] at hlength hlength'
    simp only [cost]
    omega
  | @firstItem item | @item item =>
    cases item <;> simp only [cost, ListItem.reader, Reader.rank, List.length_cons] <;> omega
  | _ =>
    simp only [cost, Reader.rank, List.length_cons]
    omega

/-- **A reading is nested in another one of its reader** only behind at least one lexeme. -/
theorem behind_of_transGen {r : Reader} {ls ls' : List Lexeme}
    (h : Relation.TransGen Calls (r, ls) (r, ls')) : Behind ls ls' := by
  have hnested : ∀ {reading reading'}, Relation.TransGen Calls reading reading' →
      reading'.2 <:+ reading.2 ∧ cost reading' < cost reading := fun h => by
    induction h with
    | single h => exact ⟨h.suffix, h.cost_lt⟩
    | tail _ h ih => exact ⟨h.suffix.trans ih.1, h.cost_lt.trans ih.2⟩
  obtain ⟨hsuffix, hcost⟩ := hnested h
  simp only [cost] at hcost
  exact ⟨hsuffix, by omega⟩

end Calls

/-! ### The turns of a loop -/

/-- **A loop takes another turn**: it has read something, and goes on with the lexemes left. -/
def Reader.Turn (r : Reader) (ls ls' : List Lexeme) : Prop :=
  Calls (r, ls) (r, ls')

section Turns

variable {fuel loopFuel : Nat} {ls rest : List Lexeme}

theorem ListItem.reaches_of_read {item : ListItem} {v : item.Value}
    (h : item.read fuel ls = .done v rest) : item.reader.Reaches ls rest :=
  ⟨fuel, (item.run_reader fuel ls).trans (Outcome.void_done h)⟩

theorem itemsAfterComma_turns {item : ListItem} {vs : List item.Value}
    (h : itemsAfterComma (item.read fuel) loopFuel ls = .done vs rest) :
    Relation.ReflTransGen (Reader.listLoop item).Turn ls rest := by
  fun_induction itemsAfterComma (item.read fuel) loopFuel ls generalizing vs with
  | case1 => cases h
  | case2 loopFuel ls v ls' hv ih =>
    rw [Outcome.andThen_eq_done] at h
    obtain ⟨vs', rest', hvs, h⟩ := h
    obtain ⟨-, rfl⟩ := Outcome.done.inj h
    exact .head (.nextItem (ListItem.reaches_of_read hv)) (ih hvs)
  | case3 | case5 =>
    obtain ⟨-, rfl⟩ := Outcome.done.inj h
    exact .refl
  | case4 => cases h

theorem sequenceAfterComma_turns {vs : List Expr}
    (h : sequenceAfterComma (conditionalOf fuel) loopFuel ls = .done vs rest) :
    Relation.ReflTransGen Reader.sequenceLoop.Turn ls rest := by
  fun_induction sequenceAfterComma (conditionalOf fuel) loopFuel ls generalizing vs with
  | case1 => cases h
  | case2 loopFuel ls ih =>
    simp only [Outcome.andThen_eq_done] at h
    obtain ⟨v, ls', hv, vs', rest', hvs, h⟩ := h
    obtain ⟨-, rfl⟩ := Outcome.done.inj h
    exact .head (.nextPart ⟨fuel, Outcome.void_done hv⟩) (ih _ hvs)
  | case3 =>
    obtain ⟨-, rfl⟩ := Outcome.done.inj h
    exact .refl

theorem chainAfter_turns {tier : Nat} {left e : Expr}
    (h : chainAfter (chainOf fuel tier) (tier + 1) loopFuel left ls = .done e rest) :
    Relation.ReflTransGen (Reader.chainLoop tier).Turn ls rest := by
  fun_induction chainAfter (chainOf fuel tier) (tier + 1) loopFuel left ls with
  | case1 => cases h
  | case2 loopFuel left op ls hop ih =>
    obtain ⟨right, ls', hright, h⟩ := Outcome.andThen_eq_done.mp h
    exact .head (.nextOperator hop ⟨fuel, Outcome.void_done hright⟩) (ih _ _ h)
  | case3 | case4 =>
    obtain ⟨-, rfl⟩ := Outcome.done.inj h
    exact .refl

theorem membersAfter_turns (object : Expr) (ls : List Lexeme) :
    Relation.ReflTransGen Reader.memberLoop.Turn ls (membersAfter object ls).2 := by
  fun_induction membersAfter object ls with
  | case1 object name ls ih => exact .head .nextMember ih
  | case2 => exact .refl

theorem accessesAfter_turns {before e : Expr}
    (h : accessesAfter (argumentsOf fuel) (fun ls => (sequenceOf fuel ls).closedBy .closeBracket)
      loopFuel before ls = .done e rest) :
    Relation.ReflTransGen Reader.accessLoop.Turn ls rest := by
  fun_induction accessesAfter (argumentsOf fuel)
    (fun ls => (sequenceOf fuel ls).closedBy .closeBracket) loopFuel before ls with
  | case1 | case3 => cases h
  | case2 loopFuel before name ls ih => exact .head .behindMember (ih h)
  | case4 loopFuel before ls ih =>
    obtain ⟨args, ls', hargs, h⟩ := Outcome.andThen_eq_done.mp h
    exact .head (.behindCall ⟨fuel, Outcome.void_done hargs⟩) (ih _ _ h)
  | case5 loopFuel before ls ih =>
    obtain ⟨i, ls', hi, h⟩ := Outcome.andThen_eq_done.mp h
    rw [Outcome.closedBy_eq_done] at hi
    exact .head (.behindIndex ⟨fuel, Outcome.void_done hi⟩) (ih _ _ h)
  | case6 =>
    obtain ⟨-, rfl⟩ := Outcome.done.inj h
    exact .refl

end Turns

/-- **A loop leaves what it comes to by its turns.** -/
theorem Reader.Reaches.turns {r : Reader} {ls rest : List Lexeme} (h : r.Reaches ls rest)
    (hr : r.isLoop = true) : Relation.ReflTransGen r.Turn ls rest := by
  obtain ⟨fuel, h⟩ := h
  cases r with
  | sequenceLoop =>
    obtain ⟨vs, h⟩ := Outcome.exists_of_void_eq_done h
    exact sequenceAfterComma_turns h
  | chainLoop tier =>
    obtain ⟨e, h⟩ := Outcome.exists_of_void_eq_done h
    exact chainAfter_turns h
  | accessLoop =>
    obtain ⟨e, h⟩ := Outcome.exists_of_void_eq_done h
    exact accessesAfter_turns h
  | memberLoop =>
    obtain ⟨-, rfl⟩ := Outcome.done.inj h
    exact membersAfter_turns _ ls
  | listLoop item =>
    obtain ⟨vs, h⟩ := Outcome.exists_of_void_eq_done h
    exact itemsAfterComma_turns h
  | _ => exact nomatch hr

end Expr

end Phrasebook
