import Phrasebook.Proofs.Syntax.Consumption

/-!
# More fuel keeps what is read

A reading that comes to an end, by success or by failure, comes to the same end with more fuel: an
outcome is **kept** by another one if it is the same, or ran out of fuel
(`Phrasebook.Expr.Outcome.KeptBy`). Nothing but the outcomes of other readers decides what a reader
does, and it asks all of them before it is done, so what keeps these outcomes keeps its own. That is
said once for each way to put outcomes together and for each loop, and then of all readers with some
fuel at once (`Phrasebook.Expr.keptAt`).

Hence it never matters how much fuel a reading was given, as long as it came to an end.
-/

namespace Phrasebook

namespace Expr

variable {α β : Type}

namespace Outcome

/-- **An outcome is kept** by another one: that one is the same, unless this one ran out of
fuel. -/
def KeptBy (o o' : Outcome α) : Prop :=
  o ≠ .unfinished → o' = o

variable {o o' o'' : Outcome α}

theorem KeptBy.refl (o : Outcome α) : o.KeptBy o := fun _ => rfl

theorem KeptBy.trans (h : o.KeptBy o') (h' : o'.KeptBy o'') : o.KeptBy o'' := by
  intro ho
  have hkept := h ho
  rw [h' (hkept ▸ ho), hkept]

theorem unfinished_keptBy (o : Outcome α) : unfinished.KeptBy o := fun h => absurd rfl h

theorem KeptBy.eq_done {v : α} {rest : List Lexeme} (h : o.KeptBy o') (ho : o = .done v rest) :
    o' = .done v rest :=
  (h (ho ▸ nofun)).trans ho

theorem KeptBy.eq_failed {stop : Stop} (h : o.KeptBy o') (ho : o = .failed stop) :
    o' = .failed stop :=
  (h (ho ▸ nofun)).trans ho

/-- What runs out of fuel keeps nothing that came to an end. -/
theorem KeptBy.eq_unfinished (h : o.KeptBy o') (h' : o' = .unfinished) : o = .unfinished :=
  Classical.byContradiction fun ho => ho (h ho ▸ h')

theorem KeptBy.andThen {f f' : α → List Lexeme → Outcome β} (h : o.KeptBy o')
    (hf : ∀ v rest, (f v rest).KeptBy (f' v rest)) : (o.andThen f).KeptBy (o'.andThen f') := by
  cases o with
  | done v rest =>
    rw [h.eq_done rfl]
    exact hf v rest
  | failed stop =>
    rw [h.eq_failed rfl]
    exact .refl _
  | unfinished => exact unfinished_keptBy _

theorem KeptBy.closedBy (h : o.KeptBy o') (close : Lexeme) :
    (o.closedBy close).KeptBy (o'.closedBy close) :=
  h.andThen fun _ _ => .refl _

theorem KeptBy.orFailAt (h : o.KeptBy o') (start : List Lexeme) :
    (o.orFailAt start).KeptBy (o'.orFailAt start) := by
  cases o with
  | unfinished => exact unfinished_keptBy _
  | _ =>
    rw [h nofun]
    exact .refl _

end Outcome

/-! ### Loops -/

/-- What is no less than a turn's fuel leaves no less for the other turns. -/
theorem exists_eq_succ_of_le {fuel fuel' : Nat} (h : fuel + 1 ≤ fuel') :
    ∃ rest, fuel' = rest + 1 ∧ fuel ≤ rest :=
  ⟨fuel' - 1, by omega, by omega⟩

section Loops

variable {item item' : List Lexeme → Outcome α} {fuel fuel' : Nat}

theorem itemsAfterComma_keptBy (hitem : ∀ ls, (item ls).KeptBy (item' ls)) (hle : fuel ≤ fuel')
    (ls : List Lexeme) :
    (itemsAfterComma item fuel ls).KeptBy (itemsAfterComma item' fuel' ls) := by
  fun_induction itemsAfterComma item fuel ls generalizing fuel' with
  | case1 => exact Outcome.unfinished_keptBy _
  | case2 fuel ls v rest hv ih =>
    obtain ⟨fuel', rfl, hle'⟩ := exists_eq_succ_of_le hle
    have hv' := (hitem ls).eq_done hv
    rw [itemsAfterComma, hv']
    exact (ih hle').andThen fun _ _ => .refl _
  | case3 fuel ls stop hv =>
    obtain ⟨fuel', rfl, -⟩ := exists_eq_succ_of_le hle
    have hv' := (hitem ls).eq_failed hv
    rw [itemsAfterComma, hv']
    exact .refl _
  | case4 => exact Outcome.unfinished_keptBy _
  | case5 fuel ls hls =>
    obtain ⟨fuel', rfl, -⟩ := exists_eq_succ_of_le hle
    rw [itemsAfterComma.eq_3 _ _ _ hls]
    exact .refl _

theorem items_keptBy (hitem : ∀ ls, (item ls).KeptBy (item' ls)) (hle : fuel ≤ fuel')
    (ls : List Lexeme) : (items item fuel ls).KeptBy (items item' fuel' ls) := by
  rw [items, items]
  split
  · rename_i v rest hv
    have hv' := (hitem ls).eq_done hv
    rw [hv']
    exact (itemsAfterComma_keptBy hitem hle rest).andThen fun _ _ => .refl _
  · rename_i stop hv
    have hv' := (hitem ls).eq_failed hv
    rw [hv']
    exact .refl _
  · exact Outcome.unfinished_keptBy _

theorem sequenceAfterComma_keptBy (hitem : ∀ ls, (item ls).KeptBy (item' ls)) (hle : fuel ≤ fuel')
    (ls : List Lexeme) :
    (sequenceAfterComma item fuel ls).KeptBy (sequenceAfterComma item' fuel' ls) := by
  fun_induction sequenceAfterComma item fuel ls generalizing fuel' with
  | case1 => exact Outcome.unfinished_keptBy _
  | case2 fuel ls ih =>
    obtain ⟨fuel', rfl, hle'⟩ := exists_eq_succ_of_le hle
    rw [sequenceAfterComma]
    exact (hitem ls).andThen fun _ rest => (ih rest hle').andThen fun _ _ => .refl _
  | case3 fuel ls hls =>
    obtain ⟨fuel', rfl, -⟩ := exists_eq_succ_of_le hle
    rw [sequenceAfterComma.eq_3 _ _ _ hls]
    exact .refl _

theorem chainAfter_keptBy {operand operand' : List Lexeme → Outcome Expr}
    (hoperand : ∀ ls, (operand ls).KeptBy (operand' ls)) (tier : Nat) (hle : fuel ≤ fuel')
    (left : Expr) (ls : List Lexeme) :
    (chainAfter operand tier fuel left ls).KeptBy (chainAfter operand' tier fuel' left ls) := by
  fun_induction chainAfter operand tier fuel left ls generalizing fuel' with
  | case1 => exact Outcome.unfinished_keptBy _
  | case2 fuel left op ls hop ih =>
    obtain ⟨fuel', rfl, hle'⟩ := exists_eq_succ_of_le hle
    rw [chainAfter, if_pos hop]
    exact (hoperand ls).andThen fun right rest => ih right rest hle'
  | case3 fuel left op ls hop =>
    obtain ⟨fuel', rfl, -⟩ := exists_eq_succ_of_le hle
    rw [chainAfter, if_neg hop]
    exact .refl _
  | case4 fuel left ls hls =>
    obtain ⟨fuel', rfl, -⟩ := exists_eq_succ_of_le hle
    rw [chainAfter.eq_3 _ _ _ _ _ hls]
    exact .refl _

end Loops

section Accesses

variable {arguments arguments' : List Lexeme → Outcome (List Expr)}
  {subscript subscript' : List Lexeme → Outcome Expr} {fuel fuel' : Nat}
  (harguments : ∀ ls, (arguments ls).KeptBy (arguments' ls))
  (hsubscript : ∀ ls, (subscript ls).KeptBy (subscript' ls))

include harguments

theorem constructionAfter_keptBy (ls : List Lexeme) :
    (constructionAfter arguments ls).KeptBy (constructionAfter arguments' ls) := by
  rw [constructionAfter.eq_def, constructionAfter.eq_def]
  split
  · split
    · exact (harguments _).andThen fun _ _ => .refl _
    · exact .refl _
  · exact .refl _

include hsubscript

theorem accessesAfter_keptBy (hle : fuel ≤ fuel') (e : Expr) (ls : List Lexeme) :
    (accessesAfter arguments subscript fuel e ls).KeptBy
      (accessesAfter arguments' subscript' fuel' e ls) := by
  fun_induction accessesAfter arguments subscript fuel e ls generalizing fuel' with
  | case1 => exact Outcome.unfinished_keptBy _
  | case2 fuel e name ls ih =>
    obtain ⟨fuel', rfl, hle'⟩ := exists_eq_succ_of_le hle
    rw [accessesAfter]
    exact ih hle'
  | case3 fuel e ls hls =>
    obtain ⟨fuel', rfl, -⟩ := exists_eq_succ_of_le hle
    rw [accessesAfter.eq_3 _ _ _ _ _ hls]
    exact .refl _
  | case4 fuel e ls ih =>
    obtain ⟨fuel', rfl, hle'⟩ := exists_eq_succ_of_le hle
    rw [accessesAfter]
    exact (harguments ls).andThen fun args rest => ih args rest hle'
  | case5 fuel e ls ih =>
    obtain ⟨fuel', rfl, hle'⟩ := exists_eq_succ_of_le hle
    rw [accessesAfter]
    exact (hsubscript ls).andThen fun i rest => ih i rest hle'
  | case6 fuel e ls hmember hdot hparen hbracket =>
    obtain ⟨fuel', rfl, -⟩ := exists_eq_succ_of_le hle
    rw [accessesAfter.eq_6 _ _ _ _ _ hmember hdot hparen hbracket]
    exact .refl _

end Accesses

/-! ### The descent -/

/-- **What is read with some fuel is kept** with one more. -/
structure KeptAt (fuel : Nat) : Prop where
  sequence : ∀ ls, (sequenceOf fuel ls).KeptBy (sequenceOf (fuel + 1) ls)
  conditional : ∀ ls, (conditionalOf fuel ls).KeptBy (conditionalOf (fuel + 1) ls)
  chain : ∀ tier ls, (chainOf fuel tier ls).KeptBy (chainOf (fuel + 1) tier ls)
  operand : ∀ ls, (operandOf fuel ls).KeptBy (operandOf (fuel + 1) ls)
  access : ∀ ls, (accessOf fuel ls).KeptBy (accessOf (fuel + 1) ls)
  arguments : ∀ ls, (argumentsOf fuel ls).KeptBy (argumentsOf (fuel + 1) ls)
  primary : ∀ ls, (primaryOf fuel ls).KeptBy (primaryOf (fuel + 1) ls)
  property : ∀ ls, (propertyOf fuel ls).KeptBy (propertyOf (fuel + 1) ls)
  value : ∀ key ls, (valueOf fuel key ls).KeptBy (valueOf (fuel + 1) key ls)

namespace KeptAt

variable {fuel : Nat} (ih : KeptAt fuel)

include ih

theorem sequenceOf_succ (ls : List Lexeme) :
    (sequenceOf (fuel + 1) ls).KeptBy (sequenceOf (fuel + 1 + 1) ls) := by
  rw [sequenceOf, sequenceOf]
  refine (ih.conditional ls).andThen fun _ rest => ?_
  exact (sequenceAfterComma_keptBy ih.conditional (Nat.le_succ _) rest).andThen fun _ _ => .refl _

theorem conditionalOf_succ (ls : List Lexeme) :
    (conditionalOf (fuel + 1) ls).KeptBy (conditionalOf (fuel + 1 + 1) ls) := by
  rw [conditionalOf, conditionalOf]
  refine (ih.chain 6 ls).andThen fun _ rest => ?_
  split
  · refine ((ih.conditional _).closedBy _).andThen fun _ rest => ?_
    exact (ih.conditional rest).andThen fun _ _ => .refl _
  · exact .refl _

theorem chainOf_succ (tier : Nat) (ls : List Lexeme) :
    (chainOf (fuel + 1) tier ls).KeptBy (chainOf (fuel + 1 + 1) tier ls) := by
  cases tier with
  | zero =>
    rw [chainOf, chainOf]
    exact ih.operand ls
  | succ tier =>
    rw [chainOf, chainOf]
    exact (ih.chain tier ls).andThen fun left rest =>
      chainAfter_keptBy (ih.chain tier) _ (Nat.le_succ _) left rest

theorem operandOf_succ (ls : List Lexeme) :
    (operandOf (fuel + 1) ls).KeptBy (operandOf (fuel + 1 + 1) ls) := by
  rw [operandOf.eq_def, operandOf.eq_def]
  dsimp only
  split
  · exact .refl _
  · split
    · exact (ih.operand _).andThen fun _ _ => .refl _
    · split
      · exact .refl _
      · exact ih.access _

theorem accessOf_succ (ls : List Lexeme) :
    (accessOf (fuel + 1) ls).KeptBy (accessOf (fuel + 1 + 1) ls) := by
  rw [accessOf, accessOf]
  exact (ih.primary ls).andThen fun e rest => accessesAfter_keptBy ih.arguments
    (fun rest => (ih.sequence rest).closedBy _) (Nat.le_succ _) e rest

theorem argumentsOf_succ (ls : List Lexeme) :
    (argumentsOf (fuel + 1) ls).KeptBy (argumentsOf (fuel + 1 + 1) ls) := by
  rw [argumentsOf, argumentsOf]
  exact (items_keptBy ih.conditional (Nat.le_succ _) ls).closedBy _

theorem primaryOf_succ (ls : List Lexeme) :
    (primaryOf (fuel + 1) ls).KeptBy (primaryOf (fuel + 1 + 1) ls) := by
  rw [primaryOf.eq_def, primaryOf.eq_def]
  dsimp only
  split
  · exact .refl _
  · exact .refl _
  · split_ifs
    · exact .refl _
    · exact .refl _
    · exact .refl _
    · exact constructionAfter_keptBy ih.arguments _
    · exact .refl _
  · exact ((ih.sequence _).closedBy _).orFailAt _
  · exact (((items_keptBy ih.conditional (Nat.le_succ _) _).closedBy _).orFailAt _).andThen
      fun _ _ => .refl _
  · exact (((items_keptBy ih.property (Nat.le_succ _) _).closedBy _).orFailAt _).andThen
      fun _ _ => .refl _
  · exact .refl _

theorem propertyOf_succ (ls : List Lexeme) :
    (propertyOf (fuel + 1) ls).KeptBy (propertyOf (fuel + 1 + 1) ls) := by
  rw [propertyOf.eq_def, propertyOf.eq_def]
  dsimp only
  split
  · exact ih.value _ _
  · exact ih.value _ _
  · exact ih.value _ _
  · exact (((ih.sequence _).closedBy _).closedBy _).andThen fun _ rest => ih.value _ rest
  · exact .refl _

theorem valueOf_succ (key : Expr → Property) (ls : List Lexeme) :
    (valueOf (fuel + 1) key ls).KeptBy (valueOf (fuel + 1 + 1) key ls) := by
  rw [valueOf, valueOf]
  exact (ih.conditional ls).andThen fun _ _ => .refl _

end KeptAt

/-- **More fuel keeps what is read**, by every reader. -/
theorem keptAt (fuel : Nat) : KeptAt fuel := by
  induction fuel with
  | zero =>
    constructor <;> intros <;> simp only [sequenceOf, conditionalOf, chainOf, operandOf, accessOf,
      argumentsOf, primaryOf, propertyOf, valueOf, Outcome.unfinished_keptBy]
  | succ fuel ih =>
    exact
      { sequence := ih.sequenceOf_succ
        conditional := ih.conditionalOf_succ
        chain := ih.chainOf_succ
        operand := ih.operandOf_succ
        access := ih.accessOf_succ
        arguments := ih.argumentsOf_succ
        primary := ih.primaryOf_succ
        property := ih.propertyOf_succ
        value := ih.valueOf_succ }

end Expr

end Phrasebook
