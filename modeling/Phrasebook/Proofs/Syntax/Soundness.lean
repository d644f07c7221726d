import Mathlib.Tactic.SplitIfs
import Phrasebook.Proofs.Syntax.Grammar

/-!
# What is read is derived

Every reader of the descent, if it comes to a value, has read a phrase of its category that
stands for this value: it **yields** derivations (`Phrasebook.Expr.Yields`). A reader calls
others with less fuel only, so all of them are shown to do so together, by induction on the
fuel (`Phrasebook.Expr.soundAt`). The loops are treated apart from the readers that run them:
what a loop does to the phrase before it is said for any items, operands and arguments.

Two readers are told more than a position. An access is read where no operator stands, for
otherwise the word `typeof` would be taken for a name. And a primary is either settled where
it ends, or it is a bare construction; then nothing it could have taken follows it
(`Phrasebook.Expr.takesNothing`).
-/

namespace Phrasebook

namespace Expr

variable {α β : Type}

/-! ### Outcomes -/

namespace Outcome

theorem andThen_eq_done {o : Outcome α} {f : α → List Lexeme → Outcome β} {v : β}
    {rest : List Lexeme} :
    o.andThen f = done v rest ↔ ∃ v' rest', o = done v' rest' ∧ f v' rest' = done v rest := by
  cases o with
  | done v' rest' =>
    constructor
    · exact fun h => ⟨v', rest', rfl, h⟩
    · rintro ⟨_, _, h, hf⟩
      cases h
      exact hf
  | failed stop => simp [andThen]
  | unfinished => simp [andThen]

theorem orFailAt_eq_done {o : Outcome α} {start : List Lexeme} {v : α} {rest : List Lexeme} :
    o.orFailAt start = done v rest ↔ o = done v rest := by
  cases o <;> simp [orFailAt]

theorem closedBy_eq_done {o : Outcome α} {close : Lexeme} {v : α} {rest : List Lexeme} :
    o.closedBy close = done v rest ↔ o = done v (close :: rest) := by
  rw [closedBy, andThen_eq_done]
  constructor
  · rintro ⟨v', _ | ⟨l, rest'⟩, ho, h⟩
    · exact nomatch h
    · dsimp only at h
      split_ifs at h with hl
      obtain ⟨rfl, rfl⟩ := done.inj h
      rw [ho, hl]
  · intro h
    exact ⟨v, _, h, if_pos rfl⟩

end Outcome

/-! ### Loops -/

/-- What a reader **yields**: from some lexemes on it reads a value only if lexemes at their
beginning are related to it, and it leaves the others. -/
def Yields (reader : List Lexeme → Outcome α) (P : List Lexeme → α → Prop) : Prop :=
  ∀ ⦃ls : List Lexeme⦄ ⦃v : α⦄ ⦃rest : List Lexeme⦄, reader ls = .done v rest →
    ∃ used, ls = used ++ rest ∧ P used v

variable {c : Category} {item : List Lexeme → Outcome c.Value}

theorem Yields.itemsAfterComma (hitem : Yields item (Derives c)) (fuel : Nat) :
    Yields (itemsAfterComma item fuel) (Derives (.others c)) := by
  intro ls
  fun_induction Expr.itemsAfterComma item fuel ls with
  | case1 => exact fun v rest h => nomatch h
  | case2 fuel ls v' rest' hv' ih =>
    intro v rest h
    rw [Outcome.andThen_eq_done] at h
    obtain ⟨vs, _, hvs, h⟩ := h
    obtain ⟨rfl, rfl⟩ := Outcome.done.inj h
    obtain ⟨used, rfl, hused⟩ := hitem hv'
    obtain ⟨used', rfl, hused'⟩ := ih hvs
    exact ⟨.comma :: (used ++ used'), by simp, hused.others hused'⟩
  | case3 =>
    intro v rest h
    obtain ⟨rfl, rfl⟩ := Outcome.done.inj h
    exact ⟨[], rfl, .noOthers c⟩
  | case4 => exact fun v rest h => nomatch h
  | case5 =>
    intro v rest h
    obtain ⟨rfl, rfl⟩ := Outcome.done.inj h
    exact ⟨[], rfl, .noOthers c⟩

theorem Yields.sequenceAfterComma (hitem : Yields item (Derives c)) (fuel : Nat) :
    Yields (sequenceAfterComma item fuel) (Derives (.others c)) := by
  intro ls
  fun_induction Expr.sequenceAfterComma item fuel ls with
  | case1 => exact fun v rest h => nomatch h
  | case2 fuel ls ih =>
    intro v rest h
    rw [Outcome.andThen_eq_done] at h
    obtain ⟨v', _, hv', h⟩ := h
    rw [Outcome.andThen_eq_done] at h
    obtain ⟨vs, _, hvs, h⟩ := h
    obtain ⟨rfl, rfl⟩ := Outcome.done.inj h
    obtain ⟨used, rfl, hused⟩ := hitem hv'
    obtain ⟨used', rfl, hused'⟩ := ih _ hvs
    exact ⟨.comma :: (used ++ used'), by simp, hused.others hused'⟩
  | case3 =>
    intro v rest h
    obtain ⟨rfl, rfl⟩ := Outcome.done.inj h
    exact ⟨[], rfl, .noOthers c⟩

theorem Yields.items (hitem : Yields item (Derives c)) (fuel : Nat) :
    Yields (items item fuel) (Derives (.list c)) := by
  intro ls v rest h
  rw [Expr.items] at h
  split at h
  · rename_i v' rest' hv'
    rw [Outcome.andThen_eq_done] at h
    obtain ⟨vs, _, hvs, h⟩ := h
    obtain ⟨rfl, rfl⟩ := Outcome.done.inj h
    obtain ⟨used, rfl, hused⟩ := hitem hv'
    obtain ⟨used', rfl, hused'⟩ := hitem.itemsAfterComma fuel hvs
    exact ⟨used ++ used', by simp, hused.list hused'⟩
  · obtain ⟨rfl, rfl⟩ := Outcome.done.inj h
    exact ⟨[], rfl, .empty c⟩
  · exact nomatch h

/-- A chain goes on with the operators of its tier. -/
theorem Yields.chainAfter {operand : List Lexeme → Outcome Expr} {tier : Nat}
    (hoperand : Yields operand (Derives (.chain tier))) (fuel : Nat) {before : List Lexeme}
    {left : Expr} (hleft : Derives (.chain (tier + 1)) before left) :
    Yields (chainAfter operand (tier + 1) fuel left)
      fun used => Derives (.chain (tier + 1)) (before ++ used) := by
  intro ls
  fun_induction Expr.chainAfter operand (tier + 1) fuel left ls generalizing before with
  | case1 => exact fun v rest h => nomatch h
  | case2 fuel left op ls hop ih =>
    intro v rest h
    rw [Outcome.andThen_eq_done] at h
    obtain ⟨right, _, hright, h⟩ := h
    obtain ⟨used, rfl, hused⟩ := hoperand hright
    obtain ⟨used', rfl, hused'⟩ := ih _ _ (.binary (mem_operators_iff.mpr hop) hleft hused) h
    refine ⟨.operator op :: (used ++ used'), by simp, ?_⟩
    simpa using hused'
  | case3 =>
    intro v rest h
    obtain ⟨rfl, rfl⟩ := Outcome.done.inj h
    exact ⟨[], rfl, by simpa using hleft⟩
  | case4 =>
    intro v rest h
    obtain ⟨rfl, rfl⟩ := Outcome.done.inj h
    exact ⟨[], rfl, by simpa using hleft⟩

/-! ### Accesses -/

/-- Whether what follows a construction without arguments is nothing it could have taken:
neither one more member nor arguments. -/
def takesNothing : List Lexeme → Bool
  | .dot :: .word _ :: _ => false
  | .openParen :: _ => false
  | _ => true

/-- What is constructed takes all the members that follow. -/
theorem membersAfter_yields {before : List Lexeme} {object : Expr} (h : Callee before object)
    (ls : List Lexeme) : ∃ used, ls = used ++ (membersAfter object ls).2 ∧
      Callee (before ++ used) (membersAfter object ls).1 ∧
      ∀ name rest, (membersAfter object ls).2 ≠ .dot :: .word name :: rest := by
  fun_induction membersAfter object ls generalizing before with
  | case1 object name ls ih =>
    obtain ⟨used, hls, hcallee, hrest⟩ := ih (h.member name)
    refine ⟨.dot :: .word name :: used, ?_, ?_, hrest⟩
    · rw [List.cons_append, List.cons_append, ← hls]
    · simpa using hcallee
  | case2 object ls hls => exact ⟨[], rfl, by simpa using h, fun name rest => hls name rest⟩

section Accesses

variable {arguments : List Lexeme → Outcome (List Expr)} {subscript : List Lexeme → Outcome Expr}
  (harguments : Yields arguments fun used args =>
    ∃ ls, used = ls ++ [.closeParen] ∧ Derives (.list .conditional) ls args)
  (hsubscript : Yields subscript fun used i =>
    ∃ ls, used = ls ++ [.closeBracket] ∧ Derives .sequence ls i)

include harguments

/-- Behind the word `new` a primary is read, or a bare construction. -/
theorem constructionAfter_yields {ls rest : List Lexeme} {e : Expr}
    (h : constructionAfter arguments ls = .done e rest) :
    ∃ used, ls = used ++ rest ∧ (Derives .primary (.word "new" :: used) e ∨
      Derives .bare (.word "new" :: used) e ∧ takesNothing rest = true) := by
  rw [constructionAfter.eq_def] at h
  split at h
  · rename_i name ls
    obtain ⟨used, hls, hcallee, hmembers⟩ := membersAfter_yields (.name name) ls
    split at h
    · rename_i callee rest' hafter
      rw [Outcome.andThen_eq_done] at h
      obtain ⟨args, _, hargs, h⟩ := h
      obtain ⟨rfl, rfl⟩ := Outcome.done.inj h
      obtain ⟨_, rfl, ls', rfl, hls'⟩ := harguments hargs
      rw [hafter] at hls hcallee
      refine ⟨.word name :: (used ++ .openParen :: (ls' ++ [.closeParen])), ?_, .inl ?_⟩
      · simp [hls]
      · simpa using Derives.constructionWith hcallee hls'
    · rename_i callee rest' hparen hafter
      obtain ⟨rfl, rfl⟩ := Outcome.done.inj h
      rw [hafter] at hls hcallee hmembers
      refine ⟨.word name :: used, by rw [hls, List.cons_append], .inr ⟨.construction hcallee, ?_⟩⟩
      -- the members ran out, and no arguments came next
      rw [takesNothing.eq_def]
      split
      · exact absurd rfl (hmembers _ _)
      · exact absurd rfl (hparen _)
      · rfl
  · exact nomatch h

include hsubscript

/-- An access goes on with members, arguments and indices. -/
theorem accessesAfter_yields (fuel : Nat) {before ls rest : List Lexeme} {e v : Expr}
    (he : Derives .settled before e ∨ Derives .bare before e ∧ takesNothing ls = true)
    (h : accessesAfter arguments subscript fuel e ls = .done v rest) :
    ∃ used, ls = used ++ rest ∧ Derives .access (before ++ used) v := by
  fun_induction accessesAfter arguments subscript fuel e ls generalizing before v rest with
  | case1 => exact nomatch h
  | case2 fuel e name ls ih =>
    obtain hsettled | ⟨-, hbare⟩ := he
    · obtain ⟨used, rfl, hused⟩ := ih (.inl (hsettled.member name)) h
      exact ⟨.dot :: .word name :: used, rfl, by simpa using hused⟩
    · exact nomatch hbare
  | case3 => exact nomatch h
  | case4 fuel e ls ih =>
    obtain hsettled | ⟨-, hbare⟩ := he
    · rw [Outcome.andThen_eq_done] at h
      obtain ⟨args, _, hargs, h⟩ := h
      obtain ⟨_, rfl, ls', rfl, hls'⟩ := harguments hargs
      obtain ⟨used, rfl, hused⟩ := ih _ _ (.inl (hsettled.call hls')) h
      refine ⟨.openParen :: (ls' ++ .closeParen :: used), by simp, ?_⟩
      simpa using hused
    · exact nomatch hbare
  | case5 fuel e ls ih =>
    rw [Outcome.andThen_eq_done] at h
    obtain ⟨i, _, hi, h⟩ := h
    obtain ⟨_, rfl, ls', rfl, hls'⟩ := hsubscript hi
    -- an index may follow a bare construction as well
    have haccess : Derives .access before e := he.elim .settled fun he => .bare he.1
    obtain ⟨used, rfl, hused⟩ := ih _ _ (.inl (haccess.index hls')) h
    refine ⟨.openBracket :: (ls' ++ .closeBracket :: used), by simp, ?_⟩
    simpa using hused
  | case6 =>
    obtain ⟨rfl, rfl⟩ := Outcome.done.inj h
    refine ⟨[], rfl, ?_⟩
    rw [List.append_nil]
    exact he.elim .settled fun he => .bare he.1

end Accesses

/-! ### The descent -/

/-- **What the readers yield** with some fuel. -/
structure SoundAt (fuel : Nat) : Prop where
  sequence : Yields (sequenceOf fuel) (Derives .sequence)
  conditional : Yields (conditionalOf fuel) (Derives .conditional)
  chain : ∀ tier, Yields (chainOf fuel tier) (Derives (.chain tier))
  operand : Yields (operandOf fuel) (Derives .operand)
  access : ∀ {ls v rest}, accessOf fuel ls = .done v rest →
    (∀ l ∈ ls.head?, l.unaryOp? = none) → ∃ used, ls = used ++ rest ∧ Derives .access used v
  arguments : Yields (argumentsOf fuel) fun used args =>
    ∃ ls, used = ls ++ [.closeParen] ∧ Derives (.list .conditional) ls args
  primary : ∀ {ls v rest}, primaryOf fuel ls = .done v rest →
    (∀ l ∈ ls.head?, l.unaryOp? = none) → ∃ used, ls = used ++ rest ∧
      (Derives .primary used v ∨ Derives .bare used v ∧ takesNothing rest = true)
  property : Yields (propertyOf fuel) (Derives .property)
  value : ∀ key, Yields (valueOf fuel key) fun used p =>
    ∃ e, p = key e ∧ Derives .conditional used e

namespace SoundAt

variable {fuel : Nat} (ih : SoundAt fuel)

include ih

theorem sequenceOf_succ : Yields (sequenceOf (fuel + 1)) (Derives .sequence) := by
  intro ls v rest h
  rw [sequenceOf] at h
  rw [Outcome.andThen_eq_done] at h
  obtain ⟨first, _, hfirst, h⟩ := h
  rw [Outcome.andThen_eq_done] at h
  obtain ⟨others, _, hothers, h⟩ := h
  obtain ⟨used, rfl, hused⟩ := ih.conditional hfirst
  obtain ⟨used', rfl, hused'⟩ :=
    Yields.sequenceAfterComma (c := .conditional) ih.conditional fuel hothers
  rcases others with _ | ⟨second, others⟩
  · obtain ⟨rfl, rfl⟩ := Outcome.done.inj h
    cases hused'
    exact ⟨used, rfl, hused.single⟩
  · obtain ⟨rfl, rfl⟩ := Outcome.done.inj h
    exact ⟨used ++ used', by simp, hused.sequence hused' (List.cons_ne_nil _ _)⟩

theorem conditionalOf_succ : Yields (conditionalOf (fuel + 1)) (Derives .conditional) := by
  intro ls v rest h
  rw [conditionalOf] at h
  rw [Outcome.andThen_eq_done] at h
  obtain ⟨test, rest', htest, h⟩ := h
  obtain ⟨used, rfl, hused⟩ := ih.chain 6 htest
  split at h
  · rw [Outcome.andThen_eq_done] at h
    obtain ⟨consequent, _, hconsequent, h⟩ := h
    obtain ⟨used₁, rfl, hused₁⟩ := ih.conditional (Outcome.closedBy_eq_done.mp hconsequent)
    rw [Outcome.andThen_eq_done] at h
    obtain ⟨alternate, _, halternate, h⟩ := h
    obtain ⟨used₂, rfl, hused₂⟩ := ih.conditional halternate
    obtain ⟨rfl, rfl⟩ := Outcome.done.inj h
    exact ⟨used ++ .question :: (used₁ ++ .colon :: used₂), by simp,
      hused.conditional hused₁ hused₂⟩
  · obtain ⟨rfl, rfl⟩ := Outcome.done.inj h
    exact ⟨used, rfl, hused.test⟩

theorem chainOf_succ (tier : Nat) : Yields (chainOf (fuel + 1) tier) (Derives (.chain tier)) := by
  intro ls v rest h
  cases tier with
  | zero =>
    rw [chainOf] at h
    obtain ⟨used, rfl, hused⟩ := ih.operand h
    exact ⟨used, rfl, hused.operand⟩
  | succ tier =>
    rw [chainOf] at h
    rw [Outcome.andThen_eq_done] at h
    obtain ⟨left, _, hleft, h⟩ := h
    obtain ⟨used, rfl, hused⟩ := ih.chain tier hleft
    obtain ⟨used', rfl, hused'⟩ := (ih.chain tier).chainAfter fuel hused.tighter h
    exact ⟨used ++ used', by simp, hused'⟩

theorem operandOf_succ : Yields (operandOf (fuel + 1)) (Derives .operand) := by
  intro ls v rest h
  rw [operandOf.eq_def] at h
  rcases ls with _ | ⟨l, ls⟩
  · exact nomatch h
  · dsimp only at h
    split at h
    · rename_i op hop
      rw [Outcome.andThen_eq_done] at h
      obtain ⟨operand, _, hoperand, h⟩ := h
      obtain ⟨rfl, rfl⟩ := Outcome.done.inj h
      obtain ⟨used, rfl, hused⟩ := ih.operand hoperand
      obtain rfl := unaryOp?_eq_some_iff.mp hop
      exact ⟨op.lexeme :: used, rfl, hused.unary op⟩
    · rename_i hop
      split_ifs at h
      obtain ⟨used, hls, hused⟩ := ih.access h (by simpa using hop)
      exact ⟨used, hls, hused.access⟩

theorem accessOf_succ {ls rest : List Lexeme} {v : Expr}
    (h : accessOf (fuel + 1) ls = .done v rest) (hop : ∀ l ∈ ls.head?, l.unaryOp? = none) :
    ∃ used, ls = used ++ rest ∧ Derives .access used v := by
  rw [accessOf] at h
  rw [Outcome.andThen_eq_done] at h
  obtain ⟨e, _, he, h⟩ := h
  obtain ⟨used, rfl, hused⟩ := ih.primary he hop
  have hsubscript : Yields (fun rest => (sequenceOf fuel rest).closedBy .closeBracket)
      fun used i => ∃ ls, used = ls ++ [.closeBracket] ∧ Derives .sequence ls i := by
    intro ls i rest hi
    obtain ⟨used, rfl, hused⟩ := ih.sequence (Outcome.closedBy_eq_done.mp hi)
    exact ⟨used ++ [.closeBracket], by simp, used, rfl, hused⟩
  obtain ⟨used', rfl, hused'⟩ := accessesAfter_yields ih.arguments hsubscript fuel
    (hused.imp_left .primary) h
  exact ⟨used ++ used', by simp, hused'⟩

theorem argumentsOf_succ : Yields (argumentsOf (fuel + 1)) fun used args =>
    ∃ ls, used = ls ++ [.closeParen] ∧ Derives (.list .conditional) ls args := by
  intro ls args rest h
  rw [argumentsOf, Outcome.closedBy_eq_done] at h
  obtain ⟨used, rfl, hused⟩ := Yields.items (c := .conditional) ih.conditional fuel h
  exact ⟨used ++ [.closeParen], by simp, used, rfl, hused⟩

theorem primaryOf_succ {ls rest : List Lexeme} {v : Expr}
    (h : primaryOf (fuel + 1) ls = .done v rest) (hop : ∀ l ∈ ls.head?, l.unaryOp? = none) :
    ∃ used, ls = used ++ rest ∧
      (Derives .primary used v ∨ Derives .bare used v ∧ takesNothing rest = true) := by
  rw [primaryOf.eq_def] at h
  dsimp only at h
  split at h
  · obtain ⟨rfl, rfl⟩ := Outcome.done.inj h
    exact ⟨[_], rfl, .inl (.string _)⟩
  · obtain ⟨rfl, rfl⟩ := Outcome.done.inj h
    exact ⟨[_], rfl, .inl (.number _)⟩
  · rename_i name ls
    split_ifs at h with htrue hfalse hnull hnew
    · obtain ⟨rfl, rfl⟩ := Outcome.done.inj h
      exact ⟨[_], rfl, .inl (htrue ▸ .trueWord)⟩
    · obtain ⟨rfl, rfl⟩ := Outcome.done.inj h
      exact ⟨[_], rfl, .inl (hfalse ▸ .falseWord)⟩
    · obtain ⟨rfl, rfl⟩ := Outcome.done.inj h
      exact ⟨[_], rfl, .inl (hnull ▸ .nullWord)⟩
    · obtain ⟨used, rfl, hused⟩ := constructionAfter_yields ih.arguments h
      exact ⟨.word name :: used, rfl, hnew ▸ hused⟩
    · obtain ⟨rfl, rfl⟩ := Outcome.done.inj h
      -- the word `typeof` is an operator, and no primary is read from it on
      have htypeof : name ≠ "typeof" := by simpa [Lexeme.unaryOp?] using hop
      exact ⟨[_], rfl, .inl (.identifier (by simp [reserved, *]))⟩
  · rw [Outcome.orFailAt_eq_done, Outcome.closedBy_eq_done] at h
    obtain ⟨used, rfl, hused⟩ := ih.sequence h
    exact ⟨.openParen :: (used ++ [.closeParen]), by simp, .inl hused.parens⟩
  · rw [Outcome.andThen_eq_done] at h
    obtain ⟨es, _, hes, h⟩ := h
    obtain ⟨rfl, rfl⟩ := Outcome.done.inj h
    rw [Outcome.orFailAt_eq_done, Outcome.closedBy_eq_done] at hes
    obtain ⟨used, rfl, hused⟩ := Yields.items (c := .conditional) ih.conditional fuel hes
    exact ⟨.openBracket :: (used ++ [.closeBracket]), by simp, .inl hused.array⟩
  · rw [Outcome.andThen_eq_done] at h
    obtain ⟨ps, _, hps, h⟩ := h
    obtain ⟨rfl, rfl⟩ := Outcome.done.inj h
    rw [Outcome.orFailAt_eq_done, Outcome.closedBy_eq_done] at hps
    obtain ⟨used, rfl, hused⟩ := Yields.items (c := .property) ih.property fuel hps
    exact ⟨.openBrace :: (used ++ [.closeBrace]), by simp, .inl hused.object⟩
  · exact nomatch h

theorem valueOf_succ (key : Expr → Property) : Yields (valueOf (fuel + 1) key) fun used p =>
    ∃ e, p = key e ∧ Derives .conditional used e := by
  intro ls p rest h
  rw [valueOf] at h
  rw [Outcome.andThen_eq_done] at h
  obtain ⟨e, _, he, h⟩ := h
  obtain ⟨rfl, rfl⟩ := Outcome.done.inj h
  obtain ⟨used, rfl, hused⟩ := ih.conditional he
  exact ⟨used, rfl, e, rfl, hused⟩

/-- The three ways to write a key that is known differ in the lexeme of the key only. -/
theorem valueOf_static {key : StaticKey} {ls rest : List Lexeme} {p : Property}
    (h : valueOf fuel (.static key) ls = .done p rest) :
    ∃ used, key.lexeme :: .colon :: ls = used ++ rest ∧ Derives .property used p := by
  obtain ⟨used, rfl, e, rfl, hused⟩ := ih.value _ h
  exact ⟨key.lexeme :: .colon :: used, rfl, hused.static key⟩

theorem propertyOf_succ : Yields (propertyOf (fuel + 1)) (Derives .property) := by
  intro ls p rest h
  rw [propertyOf.eq_def] at h
  dsimp only at h
  split at h
  · exact ih.valueOf_static h
  · exact ih.valueOf_static h
  · exact ih.valueOf_static h
  · rw [Outcome.andThen_eq_done] at h
    obtain ⟨key, _, hkey, h⟩ := h
    rw [Outcome.closedBy_eq_done, Outcome.closedBy_eq_done] at hkey
    obtain ⟨used, rfl, hused⟩ := ih.sequence hkey
    obtain ⟨used', rfl, e, rfl, hused'⟩ := ih.value _ h
    exact ⟨.openBracket :: (used ++ .closeBracket :: .colon :: used'), by simp,
      hused.computed hused'⟩
  · exact nomatch h

end SoundAt

/-- **Every reader yields derivations**, with any fuel. -/
theorem soundAt (fuel : Nat) : SoundAt fuel := by
  induction fuel with
  | zero =>
    constructor <;> intros <;> simp_all [sequenceOf, conditionalOf, chainOf, operandOf, accessOf,
      argumentsOf, primaryOf, propertyOf, valueOf, Yields]
  | succ fuel ih =>
    exact
      { sequence := ih.sequenceOf_succ
        conditional := ih.conditionalOf_succ
        chain := ih.chainOf_succ
        operand := ih.operandOf_succ
        access := ih.accessOf_succ
        arguments := ih.argumentsOf_succ
        primary := ih.primaryOf_succ
        property := ih.propertyOf_succ
        value := ih.valueOf_succ }

end Expr

end Phrasebook
