import Mathlib.Data.List.Infix
import Phrasebook.Proofs.Syntax.Soundness

/-!
# What a reading leaves

Reading goes from left to right and never back: what a reader leaves of its lexemes, once it has
read a value, is an ending of them. The loops and the lists in brackets may leave all, for they may
have nothing to read. Every other reader leaves less than it was given, so it has taken at least one
lexeme (`Phrasebook.Expr.shortensAt`); it either takes one itself or asks a reader that does.

A list gives back the comma that no item follows, and an outcome that is moved back to where it
began is a failure, so neither brings back lexemes that a value was read from.
-/

namespace Phrasebook

namespace Expr

variable {α β : Type}

/-- Some lexemes are what is left of others once one or more are taken off their beginning. -/
def Behind (ls rest : List Lexeme) : Prop :=
  rest <:+ ls ∧ rest.length < ls.length

variable {ls rest rest' : List Lexeme}

theorem Behind.suffix (h : Behind ls rest) (h' : rest' <:+ rest) : Behind ls rest' :=
  ⟨h'.trans h.1, Nat.lt_of_le_of_lt h'.length_le h.2⟩

theorem behind_cons (l : Lexeme) (h : rest <:+ ls) : Behind (l :: ls) rest :=
  ⟨h.trans (List.suffix_cons l ls), Nat.lt_succ_of_le h.length_le⟩

/-- Behind an ending of some lexemes there is less than all of them. -/
theorem behind_of_suffix {l : Lexeme} (h : l :: rest <:+ ls) : Behind ls rest :=
  ⟨(List.suffix_cons l rest).trans h, h.length_le⟩

theorem Behind.cons (l : Lexeme) (h : Behind ls rest) : Behind (l :: ls) rest :=
  behind_cons l h.1

namespace Outcome

variable {o : Outcome α} {P Q : List Lexeme → Prop}

/-- **What an outcome leaves**: if a value was read, then the lexemes left are such. -/
def Leaves (P : List Lexeme → Prop) (o : Outcome α) : Prop :=
  ∀ ⦃v rest⦄, o = .done v rest → P rest

theorem leaves_done {v : α} (h : P rest) : (done v rest).Leaves P := fun _ _ hdone =>
  (Outcome.done.inj hdone).2 ▸ h

theorem leaves_failed (stop : Stop) : (failed stop : Outcome α).Leaves P := nofun

theorem leaves_unfinished : (unfinished : Outcome α).Leaves P := nofun

theorem Leaves.imp (h : o.Leaves Q) (hQ : ∀ rest, Q rest → P rest) : o.Leaves P :=
  fun _ rest ho => hQ rest (h ho)

/-- What lies behind some lexemes is an ending of them. -/
theorem Leaves.suffix (h : o.Leaves (Behind ls)) : o.Leaves (· <:+ ls) :=
  h.imp fun _ => And.left

theorem Leaves.andThen {f : α → List Lexeme → Outcome β} (h : o.Leaves Q)
    (hf : ∀ v rest, Q rest → (f v rest).Leaves P) : (o.andThen f).Leaves P := by
  cases o with
  | done v rest => exact hf v rest (h rfl)
  | failed stop => exact leaves_failed stop
  | unfinished => exact leaves_unfinished

theorem Leaves.closedBy {close : Lexeme} (h : o.Leaves Q)
    (hQ : ∀ rest, Q (close :: rest) → P rest) : (o.closedBy close).Leaves P := by
  refine h.andThen fun v rest hrest => ?_
  split
  · split_ifs with hl
    · exact leaves_done (hQ _ (hl ▸ hrest))
    · exact leaves_failed _
  · exact leaves_failed _

theorem Leaves.orFailAt (h : o.Leaves P) (start : List Lexeme) : (o.orFailAt start).Leaves P := by
  cases o with
  | failed stop => exact leaves_failed _
  | _ => exact h

/-- A closing lexeme is taken off what is left. -/
theorem Leaves.closedBy_behind {close : Lexeme} (h : o.Leaves (· <:+ ls)) :
    (o.closedBy close).Leaves (Behind ls) :=
  h.closedBy fun _ => behind_of_suffix

end Outcome

/-! ### Loops -/

section Loops

variable {item : List Lexeme → Outcome α} (hitem : ∀ ls, (item ls).Leaves (· <:+ ls))

include hitem

theorem itemsAfterComma_leaves (fuel : Nat) (ls : List Lexeme) :
    (itemsAfterComma item fuel ls).Leaves (· <:+ ls) := by
  fun_induction itemsAfterComma item fuel ls with
  | case1 => exact Outcome.leaves_unfinished
  | case2 fuel ls v rest hv ih =>
    refine ih.andThen fun _ rest' hrest => Outcome.leaves_done ?_
    exact (hrest.trans (hitem ls hv)).trans (List.suffix_cons _ _)
  | case3 => exact Outcome.leaves_done (List.suffix_refl _)
  | case4 => exact Outcome.leaves_unfinished
  | case5 => exact Outcome.leaves_done (List.suffix_refl _)

theorem items_leaves (fuel : Nat) (ls : List Lexeme) :
    (items item fuel ls).Leaves (· <:+ ls) := by
  rw [items]
  split
  · rename_i v rest hv
    refine (itemsAfterComma_leaves hitem fuel rest).andThen fun _ _ hrest => ?_
    exact Outcome.leaves_done (hrest.trans (hitem ls hv))
  · exact Outcome.leaves_done (List.suffix_refl _)
  · exact Outcome.leaves_unfinished

theorem sequenceAfterComma_leaves (fuel : Nat) (ls : List Lexeme) :
    (sequenceAfterComma item fuel ls).Leaves (· <:+ ls) := by
  fun_induction sequenceAfterComma item fuel ls with
  | case1 => exact Outcome.leaves_unfinished
  | case2 fuel ls ih =>
    refine (hitem ls).andThen fun _ rest hrest => (ih rest).andThen fun _ rest' hrest' => ?_
    exact Outcome.leaves_done ((hrest'.trans hrest).trans (List.suffix_cons _ _))
  | case3 => exact Outcome.leaves_done (List.suffix_refl _)

end Loops

theorem chainAfter_leaves {operand : List Lexeme → Outcome Expr}
    (hoperand : ∀ ls, (operand ls).Leaves (· <:+ ls)) (tier fuel : Nat) (left : Expr)
    (ls : List Lexeme) : (chainAfter operand tier fuel left ls).Leaves (· <:+ ls) := by
  fun_induction chainAfter operand tier fuel left ls with
  | case1 => exact Outcome.leaves_unfinished
  | case2 fuel left op ls hop ih =>
    refine (hoperand ls).andThen fun right rest hrest => (ih right rest).imp fun rest' hrest' => ?_
    exact (hrest'.trans hrest).trans (List.suffix_cons _ _)
  | case3 => exact Outcome.leaves_done (List.suffix_refl _)
  | case4 => exact Outcome.leaves_done (List.suffix_refl _)

theorem membersAfter_suffix (object : Expr) (ls : List Lexeme) :
    (membersAfter object ls).2 <:+ ls := by
  fun_induction membersAfter object ls with
  | case1 object name ls ih => exact (ih.trans (List.suffix_cons _ _)).trans (List.suffix_cons _ _)
  | case2 => exact List.suffix_refl _

section Accesses

variable {arguments : List Lexeme → Outcome (List Expr)} {subscript : List Lexeme → Outcome Expr}
  (harguments : ∀ ls, (arguments ls).Leaves (· <:+ ls))
  (hsubscript : ∀ ls, (subscript ls).Leaves (· <:+ ls))

include harguments

theorem constructionAfter_leaves (ls : List Lexeme) :
    (constructionAfter arguments ls).Leaves (Behind ls) := by
  rw [constructionAfter.eq_def]
  split
  · rename_i name ls
    have hmembers := membersAfter_suffix (.identifier name) ls
    split
    · rename_i callee rest hafter
      rw [hafter] at hmembers
      refine (harguments rest).andThen fun _ rest' hrest => Outcome.leaves_done ?_
      exact behind_cons _ ((hrest.trans (List.suffix_cons _ _)).trans hmembers)
    · rename_i callee rest _ hafter
      rw [hafter] at hmembers
      exact Outcome.leaves_done (behind_cons _ hmembers)
  · exact Outcome.leaves_failed _

include hsubscript

theorem accessesAfter_leaves (fuel : Nat) (e : Expr) (ls : List Lexeme) :
    (accessesAfter arguments subscript fuel e ls).Leaves (· <:+ ls) := by
  fun_induction accessesAfter arguments subscript fuel e ls with
  | case1 => exact Outcome.leaves_unfinished
  | case2 fuel e name ls ih =>
    exact ih.imp fun rest hrest => (hrest.trans (List.suffix_cons _ _)).trans (List.suffix_cons _ _)
  | case3 => exact Outcome.leaves_failed _
  | case4 fuel e ls ih =>
    refine (harguments ls).andThen fun args rest hrest => (ih args rest).imp fun rest' hrest' => ?_
    exact (hrest'.trans hrest).trans (List.suffix_cons _ _)
  | case5 fuel e ls ih =>
    refine (hsubscript ls).andThen fun i rest hrest => (ih i rest).imp fun rest' hrest' => ?_
    exact (hrest'.trans hrest).trans (List.suffix_cons _ _)
  | case6 => exact Outcome.leaves_done (List.suffix_refl _)

end Accesses

/-! ### The descent -/

/-- **Every reader takes a lexeme**, with some fuel, if it reads a value at all. -/
structure ShortensAt (fuel : Nat) : Prop where
  sequence : ∀ ls, (sequenceOf fuel ls).Leaves (Behind ls)
  conditional : ∀ ls, (conditionalOf fuel ls).Leaves (Behind ls)
  chain : ∀ tier ls, (chainOf fuel tier ls).Leaves (Behind ls)
  operand : ∀ ls, (operandOf fuel ls).Leaves (Behind ls)
  access : ∀ ls, (accessOf fuel ls).Leaves (Behind ls)
  arguments : ∀ ls, (argumentsOf fuel ls).Leaves (Behind ls)
  primary : ∀ ls, (primaryOf fuel ls).Leaves (Behind ls)
  property : ∀ ls, (propertyOf fuel ls).Leaves (Behind ls)
  value : ∀ key ls, (valueOf fuel key ls).Leaves (Behind ls)

namespace ShortensAt

variable {fuel : Nat} (ih : ShortensAt fuel)

include ih

theorem sequenceOf_succ (ls : List Lexeme) : (sequenceOf (fuel + 1) ls).Leaves (Behind ls) := by
  rw [sequenceOf]
  refine (ih.conditional ls).andThen fun _ rest hrest => ?_
  refine (sequenceAfterComma_leaves (fun ls => (ih.conditional ls).suffix) fuel rest).andThen
    fun others _ hrest' => ?_
  split
  · exact Outcome.leaves_done (hrest.suffix hrest')
  · exact Outcome.leaves_done (hrest.suffix hrest')

theorem conditionalOf_succ (ls : List Lexeme) :
    (conditionalOf (fuel + 1) ls).Leaves (Behind ls) := by
  rw [conditionalOf]
  refine (ih.chain 6 ls).andThen fun _ rest hrest => ?_
  split
  · rename_i rest
    have hrest := hrest.suffix (List.suffix_cons _ rest)
    refine ((ih.conditional rest).suffix.closedBy_behind).andThen fun _ rest' hrest' => ?_
    refine (ih.conditional rest').andThen fun _ _ hrest'' => Outcome.leaves_done ?_
    exact hrest.suffix (hrest''.1.trans hrest'.1)
  · exact Outcome.leaves_done hrest

theorem chainOf_succ (tier : Nat) (ls : List Lexeme) :
    (chainOf (fuel + 1) tier ls).Leaves (Behind ls) := by
  cases tier with
  | zero =>
    rw [chainOf]
    exact ih.operand ls
  | succ tier =>
    rw [chainOf]
    refine (ih.chain tier ls).andThen fun left rest hrest => ?_
    exact (chainAfter_leaves (fun ls => (ih.chain tier ls).suffix) _ fuel left rest).imp
      fun _ => hrest.suffix

theorem operandOf_succ (ls : List Lexeme) : (operandOf (fuel + 1) ls).Leaves (Behind ls) := by
  rw [operandOf.eq_def]
  dsimp only
  split
  · exact Outcome.leaves_failed _
  · split
    · exact (ih.operand _).andThen fun _ _ hrest => Outcome.leaves_done (hrest.cons _)
    · split
      · exact Outcome.leaves_failed _
      · exact ih.access _

theorem accessOf_succ (ls : List Lexeme) : (accessOf (fuel + 1) ls).Leaves (Behind ls) := by
  rw [accessOf]
  refine (ih.primary ls).andThen fun e rest hrest => ?_
  exact (accessesAfter_leaves (fun ls => (ih.arguments ls).suffix)
    (fun ls => ((ih.sequence ls).suffix.closedBy_behind).suffix) fuel e rest).imp
      fun _ => hrest.suffix

theorem argumentsOf_succ (ls : List Lexeme) : (argumentsOf (fuel + 1) ls).Leaves (Behind ls) := by
  rw [argumentsOf]
  exact (items_leaves (fun ls => (ih.conditional ls).suffix) fuel ls).closedBy_behind

theorem primaryOf_succ (ls : List Lexeme) : (primaryOf (fuel + 1) ls).Leaves (Behind ls) := by
  have hword : ∀ (l : Lexeme) (e : Expr) (rest : List Lexeme),
      (Outcome.done e rest).Leaves (Behind (l :: rest)) := fun l _ rest =>
    Outcome.leaves_done (behind_cons l (List.suffix_refl rest))
  rw [primaryOf.eq_def]
  dsimp only
  split
  · exact hword _ _ _
  · exact hword _ _ _
  · split_ifs
    · exact hword _ _ _
    · exact hword _ _ _
    · exact hword _ _ _
    · exact (constructionAfter_leaves (fun ls => (ih.arguments ls).suffix) _).imp
        fun _ => Behind.cons _
    · exact hword _ _ _
  · exact ((ih.sequence _).suffix.closedBy_behind.orFailAt _).imp fun _ => Behind.cons _
  · have hitems := items_leaves (fun ls => (ih.conditional ls).suffix) fuel
    exact ((hitems _).closedBy_behind.orFailAt _).andThen fun _ _ hrest =>
      Outcome.leaves_done (hrest.cons _)
  · have hitems := items_leaves (fun ls => (ih.property ls).suffix) fuel
    exact ((hitems _).closedBy_behind.orFailAt _).andThen fun _ _ hrest =>
      Outcome.leaves_done (hrest.cons _)
  · exact Outcome.leaves_failed _

theorem propertyOf_succ (ls : List Lexeme) : (propertyOf (fuel + 1) ls).Leaves (Behind ls) := by
  -- behind a key that is known there are two lexemes less
  have hvalue : ∀ (key : Expr → Property) (l l' : Lexeme) (ls : List Lexeme),
      (valueOf fuel key ls).Leaves (Behind (l :: l' :: ls)) := fun key _ _ ls =>
    (ih.value key ls).imp fun _ hrest => (hrest.cons _).cons _
  rw [propertyOf.eq_def]
  dsimp only
  split
  · exact hvalue _ _ _ _
  · exact hvalue _ _ _ _
  · exact hvalue _ _ _ _
  · rename_i ls
    refine ((ih.sequence ls).suffix.closedBy_behind.suffix.closedBy_behind).andThen
      fun _ rest hrest => ?_
    exact (ih.value _ rest).imp fun _ hrest' => (hrest.suffix hrest'.1).cons _
  · exact Outcome.leaves_failed _

theorem valueOf_succ (key : Expr → Property) (ls : List Lexeme) :
    (valueOf (fuel + 1) key ls).Leaves (Behind ls) := by
  rw [valueOf]
  exact (ih.conditional ls).andThen fun _ _ hrest => Outcome.leaves_done hrest

end ShortensAt

/-- **Every reader takes a lexeme** if it reads a value, with any fuel. -/
theorem shortensAt (fuel : Nat) : ShortensAt fuel := by
  induction fuel with
  | zero =>
    constructor <;> intros <;> simp only [sequenceOf, conditionalOf, chainOf, operandOf, accessOf,
      argumentsOf, primaryOf, propertyOf, valueOf, Outcome.leaves_unfinished]
  | succ fuel ih =>
    exact
      { sequence := ih.sequenceOf_succ
        conditional := ih.conditionalOf_succ
        chain := ih.chainOf_succ
        operand := ih.operandOf_succ
        access := ih.accessOf_succ
        arguments := ih.argumentsOf_succ
        primary := ih.primaryOf_succ
        property := ih.propertyOf_succ
        value := ih.valueOf_succ }

end Expr

end Phrasebook
