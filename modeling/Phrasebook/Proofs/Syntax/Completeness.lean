import Phrasebook.Proofs.Syntax.Grammar

/-!
# What is derived is read

Where a phrase of a category stands, the reader of the category reads it, and just it – with
fuel enough, and unless what follows would be read as a part of it. Two things make this more
than a walk along the derivation.

**What follows.** A reader takes all it can. A lexeme *joins* what stands before it if that
binds tightly enough (`Phrasebook.Expr.Lexeme.joint`), so a phrase of a category is over where
the next lexeme joins looser categories only (`Phrasebook.Expr.EndsBefore`). A list in
brackets is over where a bracket closes.

**Loops.** A chain and an access are read by a loop that starts behind their first part, but
they are derived from their last part backwards: the chain `a - b - c` is derived from the
chain `a - b`. So what is carried along such a derivation is not that the reader is done
behind the phrase, but that its loop **arrives** there (`Phrasebook.Expr.ChainArrives`,
`Phrasebook.Expr.AccessArrives`): from there it runs on with the value the phrase stands for.

The fuel a reader needs grows with the number of the lexemes it reads: sixteen for each of
them is enough, since no descent from one lexeme to the next takes as many steps.
-/

namespace Phrasebook

namespace Expr

variable {α : Type}

/-! ### What may follow -/

/-- How loose a phrase must be for a lexeme behind it to be read as a part of it. The brackets
that close, a colon and what begins a phrase are a part of no phrase before them. -/
def Lexeme.joint : Lexeme → Nat
  | dot | openParen => 1
  | openBracket => 2
  | operator op => op.tier + 3
  | question => 10
  | comma => 11
  | _ => 12

/-- Whether a phrase that takes up all lexemes of joint `reach` and less is over before some
lexemes. -/
def EndsBefore (reach : Nat) (rest : List Lexeme) : Prop :=
  ∀ l ∈ rest.head?, reach < l.joint

/-- Whether a lexeme is a bracket that closes. -/
def Lexeme.closes : Lexeme → Bool
  | closeParen | closeBracket | closeBrace => true
  | _ => false

@[simp] theorem endsBefore_nil (reach : Nat) : EndsBefore reach [] := by
  intro l hl
  exact nomatch hl

@[simp] theorem endsBefore_cons {reach : Nat} {l : Lexeme} {rest : List Lexeme} :
    EndsBefore reach (l :: rest) ↔ reach < l.joint := by
  simp [EndsBefore]

theorem EndsBefore.mono {reach reach' : Nat} {rest : List Lexeme} (h : EndsBefore reach rest)
    (hle : reach' ≤ reach) : EndsBefore reach' rest :=
  fun l hl => Nat.lt_of_le_of_lt hle (h l hl)

/-- Nothing joins a phrase that is closed in itself. -/
@[simp] theorem endsBefore_zero (rest : List Lexeme) : EndsBefore 0 rest := by
  rintro l -
  cases l <;> simp [Lexeme.joint]

theorem Lexeme.joint_of_closes {l : Lexeme} (h : l.closes = true) : l.joint = 12 := by
  cases l <;> first | rfl | exact nomatch h

/-! ### Loops that are over -/

theorem sequenceAfterComma_of_endsBefore {item : List Lexeme → Outcome α} {fuel : Nat}
    {rest : List Lexeme} (hfuel : 0 < fuel) (hrest : EndsBefore 11 rest) :
    sequenceAfterComma item fuel rest = .done [] rest := by
  obtain ⟨fuel, rfl⟩ := Nat.exists_eq_add_of_lt hfuel
  rw [Nat.zero_add]
  refine sequenceAfterComma.eq_3 _ _ _ ?_
  rintro ls rfl
  exact absurd (endsBefore_cons.mp hrest) (by decide)

theorem itemsAfterComma_of_endsBefore {item : List Lexeme → Outcome α} {fuel : Nat}
    {rest : List Lexeme} (hfuel : 0 < fuel) (hrest : EndsBefore 11 rest) :
    itemsAfterComma item fuel rest = .done [] rest := by
  obtain ⟨fuel, rfl⟩ := Nat.exists_eq_add_of_lt hfuel
  rw [Nat.zero_add]
  refine itemsAfterComma.eq_3 _ _ _ ?_
  rintro ls rfl
  exact absurd (endsBefore_cons.mp hrest) (by decide)

theorem chainAfter_of_endsBefore {operand : List Lexeme → Outcome Expr} {tier fuel : Nat}
    {e : Expr} {rest : List Lexeme} (hfuel : 0 < fuel) (hrest : EndsBefore (tier + 3) rest) :
    chainAfter operand tier fuel e rest = .done e rest := by
  obtain ⟨fuel, rfl⟩ := Nat.exists_eq_add_of_lt hfuel
  rw [Nat.zero_add]
  rcases rest with _ | ⟨l, rest⟩
  · rfl
  cases l with
  | operator op =>
    rw [endsBefore_cons, Lexeme.joint] at hrest
    rw [chainAfter, if_neg (by omega)]
  | _ => rfl

theorem accessesAfter_of_endsBefore {arguments : List Lexeme → Outcome (List Expr)}
    {subscript : List Lexeme → Outcome Expr} {fuel : Nat} {e : Expr} {rest : List Lexeme}
    (hfuel : 0 < fuel) (hrest : EndsBefore 2 rest) :
    accessesAfter arguments subscript fuel e rest = .done e rest := by
  obtain ⟨fuel, rfl⟩ := Nat.exists_eq_add_of_lt hfuel
  rw [Nat.zero_add]
  refine accessesAfter.eq_6 _ _ _ _ _ ?_ ?_ ?_ ?_
  · rintro name ls rfl
    exact absurd (endsBefore_cons.mp hrest) (by decide)
  · rintro ls rfl
    exact absurd (endsBefore_cons.mp hrest) (by decide)
  · rintro ls rfl
    exact absurd (endsBefore_cons.mp hrest) (by decide)
  · rintro ls rfl
    exact absurd (endsBefore_cons.mp hrest) (by decide)

/-! ### No item before a bracket that closes -/

section Closes

variable {l : Lexeme} (hl : l.closes = true) (rest : List Lexeme)

include hl

theorem chainOf_of_closes (tier : Nat) {fuel : Nat} (hfuel : tier + 4 ≤ fuel) :
    chainOf fuel tier (l :: rest) = .failed { rest := l :: rest } := by
  induction tier generalizing fuel with
  | zero =>
    obtain ⟨fuel, rfl⟩ := Nat.exists_eq_add_of_le hfuel
    rw [show 0 + 4 + fuel = fuel + 4 by omega]
    cases l <;> first | rfl | simp [Lexeme.closes] at hl
  | succ tier ih =>
    obtain ⟨fuel, rfl⟩ : ∃ n, fuel = n + 1 := ⟨fuel - 1, by omega⟩
    rw [chainOf, ih (by omega)]
    rfl

theorem conditionalOf_of_closes {fuel : Nat} (hfuel : 11 ≤ fuel) :
    conditionalOf fuel (l :: rest) = .failed { rest := l :: rest } := by
  obtain ⟨fuel, rfl⟩ : ∃ n, fuel = n + 1 := ⟨fuel - 1, by omega⟩
  rw [conditionalOf, chainOf_of_closes hl rest 6 (by omega)]
  rfl

theorem propertyOf_of_closes {fuel : Nat} (hfuel : 11 ≤ fuel) :
    propertyOf fuel (l :: rest) = .failed { rest := l :: rest } := by
  obtain ⟨fuel, rfl⟩ : ∃ n, fuel = n + 1 := ⟨fuel - 1, by omega⟩
  cases l <;> first | rfl | simp [Lexeme.closes] at hl

end Closes

/-! ### What it is to be read -/

/-- A reader **reads** a value from lexemes wherever these are over: it does so with sixteen
times their number as fuel, and `rank` more. -/
def Reads (reader : Nat → List Lexeme → Outcome α) (rank reach : Nat) (ls : List Lexeme)
    (v : α) : Prop :=
  ∀ fuel rest, 16 * ls.length + rank ≤ fuel → EndsBefore reach rest →
    reader fuel (ls ++ rest) = .done v rest

/-- A reader spends one fuel on itself. -/
theorem Reads.of_succ {reader : Nat → List Lexeme → Outcome α} {rank reach : Nat}
    {ls : List Lexeme} {v : α}
    (h : ∀ fuel rest, 16 * ls.length + rank ≤ fuel → EndsBefore reach rest →
      reader (fuel + 1) (ls ++ rest) = .done v rest) : Reads reader (rank + 1) reach ls v := by
  intro fuel rest hfuel hrest
  obtain ⟨fuel, rfl⟩ : ∃ n, fuel = n + 1 := ⟨fuel - 1, by omega⟩
  exact h fuel rest (by omega) hrest

/-- The loop of a chain **arrives** behind its lexemes with the value `e`. -/
def ChainArrives (tier : Nat) (ls : List Lexeme) (e : Expr) : Prop :=
  ∀ fuel rest, 16 * ls.length + (tier + 4) ≤ fuel → EndsBefore (tier + 3) rest →
    ∃ left, fuel ≤ left + ls.length ∧ chainOf (fuel + 1) (tier + 1) (ls ++ rest) =
      chainAfter (chainOf fuel tier) (tier + 1) left e rest

/-- The index of an access, behind its opening bracket. -/
def subscriptOf (fuel : Nat) (ls : List Lexeme) : Outcome Expr :=
  (sequenceOf fuel ls).closedBy .closeBracket

/-- The loop of an access **arrives** behind its lexemes with the value `e`. -/
def AccessArrives (reach : Nat) (ls : List Lexeme) (e : Expr) : Prop :=
  ∀ fuel rest, 16 * ls.length + 1 ≤ fuel → EndsBefore reach rest →
    ∃ left, fuel ≤ left + ls.length ∧ accessOf (fuel + 1) (ls ++ rest) =
      accessesAfter (argumentsOf fuel) (subscriptOf fuel) left e rest

/-- The reader of what is parted by commas between brackets. -/
def Category.readItem : (item : Category) → Nat → List Lexeme → Outcome item.Value
  | conditional => conditionalOf
  | property => propertyOf
  | _ => fun _ _ => .unfinished

/-- Both loops over commas read the items behind a first one. -/
def OthersRead (item : Category) (ls : List Lexeme) (vs : List item.Value) : Prop :=
  ∀ fuel left rest, 16 * ls.length ≤ fuel → ls.length < left → EndsBefore 11 rest →
    itemsAfterComma (item.readItem fuel) left (ls ++ rest) = .done vs rest ∧
      sequenceAfterComma (item.readItem fuel) left (ls ++ rest) = .done vs rest

/-- A list is read where a bracket closes it. -/
def ListRead (item : Category) (ls : List Lexeme) (vs : List item.Value) : Prop :=
  ∀ fuel close rest, 16 * ls.length + 11 ≤ fuel → close.closes = true →
    items (item.readItem fuel) fuel (ls ++ close :: rest) = .done vs (close :: rest)

/-- **What it is for a phrase to be read**, category by category. The first number beside a
reader is the fuel it needs for the descent to the first lexeme, the second is the joint up to
which it would take up a lexeme behind the phrase. -/
def Found : (c : Category) → List Lexeme → c.Value → Prop
  | .sequence => Reads sequenceOf 12 11
  | .conditional => Reads conditionalOf 11 10
  | .chain 0 => Reads (fun fuel => chainOf fuel 0) 4 3
  | .chain (tier + 1) => ChainArrives tier
  | .operand => Reads operandOf 3 2
  | .access => AccessArrives 1
  | .settled => AccessArrives 0
  | .bare => Reads primaryOf 1 1
  | .primary => Reads primaryOf 1 0
  | .property => Reads propertyOf 11 10
  | .list item => fun ls vs => item = .conditional ∨ item = .property → ListRead item ls vs
  | .others item => fun ls vs => item = .conditional ∨ item = .property → OthersRead item ls vs

/-! ### Chains -/

/-- A chain of any tier is read where it is over: there its loop stops as soon as it
arrives. -/
theorem Found.chainOf_eq {tier : Nat} {ls rest : List Lexeme} {e : Expr}
    (h : Found (.chain tier) ls e) {fuel : Nat} (hfuel : 16 * ls.length + (tier + 4) ≤ fuel)
    (hrest : EndsBefore (tier + 3) rest) : chainOf fuel tier (ls ++ rest) = .done e rest := by
  cases tier with
  | zero => exact h fuel rest hfuel hrest
  | succ tier =>
    obtain ⟨fuel, rfl⟩ : ∃ n, fuel = n + 1 := ⟨fuel - 1, by omega⟩
    obtain ⟨left, hleft, harrives⟩ := h fuel rest (by omega) (hrest.mono (by omega))
    exact harrives.trans (chainAfter_of_endsBefore (by omega) hrest)

theorem reads_chain_zero {ls : List Lexeme} {e : Expr} (h : Reads operandOf 3 2 ls e) :
    Reads (fun fuel => chainOf fuel 0) 4 3 ls e := by
  refine .of_succ fun fuel rest hfuel hrest => ?_
  exact h fuel rest (by omega) (hrest.mono (by omega))

theorem chainArrives_tighter {tier : Nat} {ls : List Lexeme} {e : Expr}
    (h : Found (.chain tier) ls e) : ChainArrives tier ls e := by
  intro fuel rest hfuel hrest
  refine ⟨fuel, by omega, ?_⟩
  rw [chainOf, h.chainOf_eq hfuel hrest]
  rfl

theorem ChainArrives.binary {tier : Nat} {op : BinaryOp} {ls ls' : List Lexeme} {e e' : Expr}
    (h : ChainArrives tier ls e) (hop : op.tier = tier + 1) (h' : Found (.chain tier) ls' e') :
    ChainArrives tier (ls ++ .operator op :: ls') (.binary op e e') := by
  intro fuel rest hfuel hrest
  rw [List.length_append, List.length_cons] at hfuel ⊢
  -- the operator joins no chain of a tighter tier, so the loop does arrive before it
  have hjoint : EndsBefore (tier + 3) (.operator op :: (ls' ++ rest)) := by
    rw [endsBefore_cons, Lexeme.joint, hop]
    omega
  obtain ⟨left, hleft, harrives⟩ := h fuel _ (by omega) hjoint
  obtain ⟨left, rfl⟩ : ∃ n, left = n + 1 := ⟨left - 1, by omega⟩
  refine ⟨left, by omega, ?_⟩
  rw [List.append_assoc, List.cons_append, harrives, chainAfter, if_pos hop,
    h'.chainOf_eq (by omega) hrest]
  rfl

/-! ### Conditionals and sequences -/

theorem reads_test {ls : List Lexeme} {e : Expr} (h : Found (.chain 6) ls e) :
    Reads conditionalOf 11 10 ls e := by
  refine .of_succ fun fuel rest hfuel hrest => ?_
  rw [conditionalOf, h.chainOf_eq (by omega) (hrest.mono (by omega)), Outcome.andThen]
  split
  · exact absurd (endsBefore_cons.mp hrest) (by decide)
  · rfl

theorem reads_conditional {ls ls₁ ls₂ : List Lexeme} {e e₁ e₂ : Expr} (h : Found (.chain 6) ls e)
    (h₁ : Reads conditionalOf 11 10 ls₁ e₁) (h₂ : Reads conditionalOf 11 10 ls₂ e₂) :
    Reads conditionalOf 11 10 (ls ++ .question :: (ls₁ ++ .colon :: ls₂))
      (.conditional e e₁ e₂) := by
  refine .of_succ fun fuel rest hfuel hrest => ?_
  simp only [List.length_append, List.length_cons] at hfuel
  simp only [List.append_assoc, List.cons_append]
  rw [conditionalOf, h.chainOf_eq (by omega) (by simp [Lexeme.joint]), Outcome.andThen]
  dsimp only
  rw [h₁ fuel _ (by omega) (by simp [Lexeme.joint]), Outcome.closedBy, Outcome.andThen]
  dsimp only
  rw [if_pos rfl, Outcome.andThen, h₂ fuel rest (by omega) hrest]
  rfl

theorem reads_single {ls : List Lexeme} {e : Expr} (h : Reads conditionalOf 11 10 ls e) :
    Reads sequenceOf 12 11 ls e := by
  refine .of_succ fun fuel rest hfuel hrest => ?_
  rw [sequenceOf, h fuel rest (by omega) (hrest.mono (by omega)), Outcome.andThen,
    sequenceAfterComma_of_endsBefore (by omega) hrest]
  rfl

/-- Behind an item there is a comma, or what follows the list. -/
theorem endsBefore_others {item : Category} {ls rest : List Lexeme} {vs : List item.Value}
    (h : Derives (.others item) ls vs) (hrest : EndsBefore 11 rest) :
    EndsBefore 10 (ls ++ rest) := by
  cases h with
  | noOthers => exact hrest.mono (by omega)
  | others => simp [Lexeme.joint]

theorem reads_sequence {ls ls' : List Lexeme} {e : Expr} {es : List Expr}
    (h : Reads conditionalOf 11 10 ls e) (hes : Derives (.others .conditional) ls' es)
    (hread : OthersRead .conditional ls' es) (hne : es ≠ []) :
    Reads sequenceOf 12 11 (ls ++ ls') (.sequence (e :: es)) := by
  refine .of_succ fun fuel rest hfuel hrest => ?_
  rw [List.length_append] at hfuel
  rw [sequenceOf, List.append_assoc, h fuel _ (by omega) (endsBefore_others hes hrest),
    Outcome.andThen, show sequenceAfterComma (conditionalOf fuel) fuel (ls' ++ rest) = _ from
      (hread fuel fuel rest (by omega) (by omega) hrest).2, Outcome.andThen]
  split
  · exact absurd rfl hne
  · rfl

/-! ### Lists -/

theorem othersRead_nil (item : Category) : OthersRead item [] [] := by
  intro fuel left rest _ hleft hrest
  exact ⟨itemsAfterComma_of_endsBefore hleft hrest, sequenceAfterComma_of_endsBefore hleft hrest⟩

theorem OthersRead.cons {item : Category} {ls ls' : List Lexeme} {v : item.Value}
    {vs : List item.Value} (h : Reads item.readItem 11 10 ls v)
    (hvs : Derives (.others item) ls' vs) (hread : OthersRead item ls' vs) :
    OthersRead item (.comma :: (ls ++ ls')) (v :: vs) := by
  intro fuel left rest hfuel hleft hrest
  rw [List.length_cons, List.length_append] at hfuel hleft
  obtain ⟨left, rfl⟩ : ∃ n, left = n + 1 := ⟨left - 1, by omega⟩
  have hitem := h fuel (ls' ++ rest) (by omega) (endsBefore_others hvs hrest)
  obtain ⟨hitems, hsequence⟩ := hread fuel left rest (by omega) (by omega) hrest
  rw [List.cons_append, List.append_assoc]
  constructor
  · rw [itemsAfterComma, hitem]
    dsimp only
    rw [hitems]
    rfl
  · rw [sequenceAfterComma, hitem, Outcome.andThen, hsequence]
    rfl

theorem listRead_nil {item : Category} (hitem : item = .conditional ∨ item = .property) :
    ListRead item [] [] := by
  intro fuel close rest hfuel hclose
  -- an item that fails at its first lexeme is no item, and the list is over
  have hnone : item.readItem fuel (close :: rest) = .failed { rest := close :: rest } := by
    obtain rfl | rfl := hitem
    · exact conditionalOf_of_closes hclose rest (by simpa using hfuel)
    · exact propertyOf_of_closes hclose rest (by simpa using hfuel)
  rw [List.nil_append, items, hnone]

theorem listRead_cons {item : Category} {ls ls' : List Lexeme} {v : item.Value}
    {vs : List item.Value} (h : Reads item.readItem 11 10 ls v)
    (hvs : Derives (.others item) ls' vs) (hread : OthersRead item ls' vs) :
    ListRead item (ls ++ ls') (v :: vs) := by
  intro fuel close rest hfuel hclose
  rw [List.length_append] at hfuel
  have hrest : EndsBefore 11 (close :: rest) := by
    rw [endsBefore_cons, Lexeme.joint_of_closes hclose]
    omega
  rw [List.append_assoc, items, h fuel _ (by omega) (endsBefore_others hvs hrest)]
  dsimp only
  rw [(hread fuel fuel _ (by omega) (by omega) hrest).1]
  rfl

/-- A list is read up to the bracket that closes it, and with it. -/
theorem ListRead.closedBy {item : Category} {ls : List Lexeme} {vs : List item.Value}
    (h : ListRead item ls vs) {close : Lexeme} (hclose : close.closes = true) {fuel : Nat}
    (hfuel : 16 * ls.length + 11 ≤ fuel) (rest : List Lexeme) :
    (items (item.readItem fuel) fuel (ls ++ close :: rest)).closedBy close = .done vs rest := by
  rw [h fuel close rest hfuel hclose]
  exact if_pos rfl

theorem ListRead.arguments {ls : List Lexeme} {args : List Expr}
    (h : ListRead .conditional ls args) {fuel : Nat} (hfuel : 16 * ls.length + 12 ≤ fuel)
    (rest : List Lexeme) : argumentsOf fuel (ls ++ .closeParen :: rest) = .done args rest := by
  obtain ⟨fuel, rfl⟩ : ∃ n, fuel = n + 1 := ⟨fuel - 1, by omega⟩
  rw [argumentsOf]
  exact h.closedBy rfl (by omega) rest

/-- A sequence is read up to the bracket that closes it, and with it. -/
theorem Reads.closedBy {ls : List Lexeme} {e : Expr} (h : Reads sequenceOf 12 11 ls e)
    {close : Lexeme} (hclose : close.closes = true) {fuel : Nat}
    (hfuel : 16 * ls.length + 12 ≤ fuel) (rest : List Lexeme) :
    (sequenceOf fuel (ls ++ close :: rest)).closedBy close = .done e rest := by
  have hrest : EndsBefore 11 (close :: rest) := by
    rw [endsBefore_cons, Lexeme.joint_of_closes hclose]
    omega
  rw [h fuel _ hfuel hrest]
  exact if_pos rfl

/-! ### Accesses and operands -/

theorem accessArrives_of_reads {reach : Nat} {ls : List Lexeme} {e : Expr}
    (h : Reads primaryOf 1 reach ls e) : AccessArrives reach ls e := by
  intro fuel rest hfuel hrest
  refine ⟨fuel, by omega, ?_⟩
  rw [accessOf, h fuel rest hfuel hrest]
  rfl

theorem AccessArrives.settled {ls : List Lexeme} {e : Expr} (h : AccessArrives 0 ls e) :
    AccessArrives 1 ls e :=
  fun fuel rest hfuel _ => h fuel rest hfuel (endsBefore_zero rest)

theorem AccessArrives.member {ls : List Lexeme} {e : Expr} (h : AccessArrives 0 ls e)
    (property : String) :
    AccessArrives 0 (ls ++ [.dot, .word property]) (.member e property) := by
  intro fuel rest hfuel _
  simp only [List.length_append, List.length_cons, List.length_nil] at hfuel ⊢
  obtain ⟨left, hleft, harrives⟩ := h fuel (.dot :: .word property :: rest) (by omega)
    (endsBefore_zero _)
  obtain ⟨left, rfl⟩ : ∃ n, left = n + 1 := ⟨left - 1, by omega⟩
  refine ⟨left, by omega, ?_⟩
  rw [List.append_assoc]
  exact harrives

theorem AccessArrives.call {ls ls' : List Lexeme} {e : Expr} {args : List Expr}
    (h : AccessArrives 0 ls e) (hargs : ListRead .conditional ls' args) :
    AccessArrives 0 (ls ++ .openParen :: (ls' ++ [.closeParen])) (.call e args) := by
  intro fuel rest hfuel _
  simp only [List.length_append, List.length_cons, List.length_nil] at hfuel ⊢
  obtain ⟨left, hleft, harrives⟩ := h fuel (.openParen :: (ls' ++ .closeParen :: rest)) (by omega)
    (endsBefore_zero _)
  obtain ⟨left, rfl⟩ : ∃ n, left = n + 1 := ⟨left - 1, by omega⟩
  refine ⟨left, by omega, ?_⟩
  simp only [List.append_assoc, List.cons_append, List.nil_append]
  rw [harrives, accessesAfter, hargs.arguments (by omega)]
  rfl

theorem AccessArrives.index {ls ls' : List Lexeme} {e i : Expr} (h : AccessArrives 1 ls e)
    (hi : Reads sequenceOf 12 11 ls' i) :
    AccessArrives 0 (ls ++ .openBracket :: (ls' ++ [.closeBracket])) (.index e i) := by
  intro fuel rest hfuel _
  simp only [List.length_append, List.length_cons, List.length_nil] at hfuel ⊢
  obtain ⟨left, hleft, harrives⟩ := h fuel (.openBracket :: (ls' ++ .closeBracket :: rest))
    (by omega) (by simp [Lexeme.joint])
  obtain ⟨left, rfl⟩ : ∃ n, left = n + 1 := ⟨left - 1, by omega⟩
  refine ⟨left, by omega, ?_⟩
  simp only [List.append_assoc, List.cons_append, List.nil_append]
  rw [harrives, accessesAfter, subscriptOf, hi.closedBy rfl (by omega)]
  rfl

/-- No access begins with an operator, nor with an exclamation mark. -/
theorem Derives.exists_head {c : Category} {ls : List Lexeme} {v : c.Value} (h : Derives c ls v)
    (hc : c = .access ∨ c = .settled ∨ c = .bare ∨ c = .primary) :
    ∃ l ls', ls = l :: ls' ∧ l.unaryOp? = none ∧ l.hidesBang = false := by
  induction h with
  | settled _ ih => exact ih (by simp)
  | bare _ ih => exact ih (by simp)
  | primary _ ih => exact ih (by simp)
  | member _ _ ih =>
    obtain ⟨l, ls', rfl, hl⟩ := ih (by simp)
    exact ⟨l, _, rfl, hl⟩
  | call _ _ ih _ =>
    obtain ⟨l, ls', rfl, hl⟩ := ih (by simp)
    exact ⟨l, _, rfl, hl⟩
  | index _ _ ih _ =>
    obtain ⟨l, ls', rfl, hl⟩ := ih (by simp)
    exact ⟨l, _, rfl, hl⟩
  | @identifier name hname =>
    have htypeof : name ≠ "typeof" := fun h => hname (by simp [reserved, h])
    exact ⟨_, _, rfl, if_neg htypeof, rfl⟩
  | construction | constructionWith | string | number | trueWord | falseWord | nullWord
  | parens | array | object => exact ⟨_, _, rfl, rfl, rfl⟩
  | _ => simp at hc

theorem reads_operand {ls : List Lexeme} {e : Expr} (hderives : Derives .access ls e)
    (h : AccessArrives 1 ls e) : Reads operandOf 3 2 ls e := by
  intro fuel rest hfuel hrest
  -- the reader looks for an operator first, and an access begins with none
  obtain ⟨l, ls', rfl, hop, hbang⟩ := hderives.exists_head (.inl rfl)
  obtain ⟨fuel, rfl⟩ : ∃ n, fuel = n + 2 := ⟨fuel - 2, by omega⟩
  obtain ⟨left, hleft, harrives⟩ := h fuel rest (by omega) (hrest.mono (by omega))
  rw [List.cons_append, operandOf.eq_def]
  dsimp only
  rw [hop, hbang, ← List.cons_append]
  exact harrives.trans (accessesAfter_of_endsBefore (by omega) hrest)

theorem Reads.unary {ls : List Lexeme} {e : Expr} (h : Reads operandOf 3 2 ls e) (op : UnaryOp) :
    Reads operandOf 3 2 (op.lexeme :: ls) (.unary op e) := by
  refine .of_succ fun fuel rest hfuel hrest => ?_
  rw [List.length_cons] at hfuel
  rw [List.cons_append, operandOf.eq_def]
  dsimp only
  rw [unaryOp?_eq_some_iff.mpr rfl]
  dsimp only
  rw [h fuel rest (by omega) hrest]
  rfl

/-! ### Primaries -/

/-- The members of what is constructed are read one by one. -/
theorem Callee.membersAfter_eq {ls : List Lexeme} {e : Expr} (h : Callee ls e) :
    ∃ name ls', ls = .word name :: ls' ∧
      ∀ rest, membersAfter (.identifier name) (ls' ++ rest) = membersAfter e rest := by
  induction h with
  | name name => exact ⟨name, [], rfl, fun _ => rfl⟩
  | member _ property ih =>
    obtain ⟨name, ls', rfl, hmembers⟩ := ih
    refine ⟨name, ls' ++ [.dot, .word property], rfl, fun rest => ?_⟩
    rw [List.append_assoc, hmembers]
    rfl

theorem membersAfter_of_ne_dot (e : Expr) {rest : List Lexeme} (h : rest.head? ≠ some .dot) :
    membersAfter e rest = (e, rest) := by
  refine membersAfter.eq_2 _ _ ?_
  rintro name ls rfl
  exact h rfl

theorem reads_construction {ls : List Lexeme} {e : Expr} (h : Callee ls e) :
    Reads primaryOf 1 1 (.word "new" :: ls) (.construction e []) := by
  refine .of_succ fun fuel rest hfuel hrest => ?_
  obtain ⟨name, ls', rfl, hmembers⟩ := h.membersAfter_eq
  -- what follows is neither one more member nor arguments
  have hdot : rest.head? ≠ some .dot := fun h => absurd (hrest _ h) (by decide)
  simp only [List.cons_append, primaryOf, reduceIte, String.reduceEq, constructionAfter]
  rw [hmembers, membersAfter_of_ne_dot e hdot]
  split
  · rename_i heq
    obtain ⟨rfl, rfl⟩ := Prod.mk.inj heq
    exact absurd (endsBefore_cons.mp hrest) (by decide)
  · rename_i heq
    obtain ⟨rfl, rfl⟩ := Prod.mk.inj heq
    rfl

theorem reads_constructionWith {ls ls' : List Lexeme} {e : Expr} {args : List Expr}
    (h : Callee ls e) (hargs : ListRead .conditional ls' args) :
    Reads primaryOf 1 0 (.word "new" :: (ls ++ .openParen :: (ls' ++ [.closeParen])))
      (.construction e args) := by
  refine .of_succ fun fuel rest hfuel _ => ?_
  simp only [List.length_append, List.length_cons, List.length_nil] at hfuel
  obtain ⟨name, ls, rfl, hmembers⟩ := h.membersAfter_eq
  simp only [List.cons_append, List.append_assoc, List.nil_append, primaryOf, reduceIte,
    String.reduceEq, constructionAfter]
  rw [hmembers, membersAfter_of_ne_dot e (by simp)]
  dsimp only
  rw [hargs.arguments (by omega)]
  rfl

theorem reads_identifier {name : String} (h : name ∉ reserved) :
    Reads primaryOf 1 0 [.word name] (.identifier name) := by
  refine .of_succ fun fuel rest hfuel _ => ?_
  simp only [reserved, List.mem_cons, List.not_mem_nil, or_false, not_or] at h
  obtain ⟨htrue, hfalse, hnull, hnew, -⟩ := h
  simp only [List.cons_append, List.nil_append, primaryOf]
  rw [if_neg htrue, if_neg hfalse, if_neg hnull, if_neg hnew]

/-- A literal is read whatever follows it. -/
theorem reads_literal {l : Lexeme} {e : Expr}
    (h : ∀ fuel rest, primaryOf (fuel + 1) (l :: rest) = .done e rest) :
    Reads primaryOf 1 0 [l] e := by
  refine .of_succ fun fuel rest hfuel _ => ?_
  exact h fuel rest

theorem Reads.parens {ls : List Lexeme} {e : Expr} (h : Reads sequenceOf 12 11 ls e) :
    Reads primaryOf 1 0 (.openParen :: (ls ++ [.closeParen])) e := by
  refine .of_succ fun fuel rest hfuel _ => ?_
  simp only [List.length_append, List.length_cons, List.length_nil] at hfuel
  simp only [List.cons_append, List.append_assoc, List.nil_append, primaryOf]
  rw [h.closedBy rfl (by omega)]
  rfl

theorem ListRead.array {ls : List Lexeme} {es : List Expr} (h : ListRead .conditional ls es) :
    Reads primaryOf 1 0 (.openBracket :: (ls ++ [.closeBracket])) (.array es) := by
  refine .of_succ fun fuel rest hfuel _ => ?_
  simp only [List.length_append, List.length_cons, List.length_nil] at hfuel
  simp only [List.cons_append, List.append_assoc, List.nil_append, primaryOf]
  rw [show Outcome.closedBy .closeBracket (items (conditionalOf fuel) fuel _) = _ from
    h.closedBy rfl (by omega) rest]
  rfl

theorem ListRead.object {ls : List Lexeme} {ps : List Property} (h : ListRead .property ls ps) :
    Reads primaryOf 1 0 (.openBrace :: (ls ++ [.closeBrace])) (.object ps) := by
  refine .of_succ fun fuel rest hfuel _ => ?_
  simp only [List.length_append, List.length_cons, List.length_nil] at hfuel
  simp only [List.cons_append, List.append_assoc, List.nil_append, primaryOf]
  rw [show Outcome.closedBy .closeBrace (items (propertyOf fuel) fuel _) = _ from
    h.closedBy rfl (by omega) rest]
  rfl

/-! ### Properties -/

theorem valueOf_eq {ls : List Lexeme} {e : Expr} (h : Reads conditionalOf 11 10 ls e)
    (key : Expr → Property) {fuel : Nat} {rest : List Lexeme} (hfuel : 16 * ls.length + 12 ≤ fuel)
    (hrest : EndsBefore 10 rest) : valueOf fuel key (ls ++ rest) = .done (key e) rest := by
  obtain ⟨fuel, rfl⟩ : ∃ n, fuel = n + 1 := ⟨fuel - 1, by omega⟩
  rw [valueOf, h fuel rest (by omega) hrest]
  rfl

theorem reads_static {ls : List Lexeme} {e : Expr} (key : StaticKey)
    (h : Reads conditionalOf 11 10 ls e) :
    Reads propertyOf 11 10 (key.lexeme :: .colon :: ls) (.static key e) := by
  refine .of_succ fun fuel rest hfuel hrest => ?_
  simp only [List.length_cons] at hfuel
  have hvalue := valueOf_eq h (.static key) (show _ ≤ fuel by omega) hrest
  cases key <;> exact hvalue

theorem reads_computed {ls ls' : List Lexeme} {e e' : Expr} (h : Reads sequenceOf 12 11 ls e)
    (h' : Reads conditionalOf 11 10 ls' e') :
    Reads propertyOf 11 10 (.openBracket :: (ls ++ .closeBracket :: .colon :: ls'))
      (.computed e e') := by
  refine .of_succ fun fuel rest hfuel hrest => ?_
  simp only [List.length_append, List.length_cons] at hfuel
  simp only [List.cons_append, List.append_assoc, propertyOf]
  rw [h.closedBy rfl (by omega)]
  exact valueOf_eq h' (.computed e) (by omega) hrest

/-! ### All phrases are read -/

/-- The items of a list are read by the reader of their category. -/
theorem Found.reads_item {item : Category} {ls : List Lexeme} {v : item.Value}
    (h : Found item ls v) (hitem : item = .conditional ∨ item = .property) :
    Reads item.readItem 11 10 ls v := by
  obtain rfl | rfl := hitem <;> exact h

/-- **Every phrase is read.** -/
theorem Derives.found {c : Category} {ls : List Lexeme} {v : c.Value} (h : Derives c ls v) :
    Found c ls v := by
  induction h with
  | single _ ih => exact reads_single ih
  | sequence _ hes hne ih ihes => exact reads_sequence ih hes (ihes (.inl rfl)) hne
  | test _ ih => exact reads_test ih
  | conditional _ _ _ ih ih₁ ih₂ => exact reads_conditional ih ih₁ ih₂
  | operand _ ih => exact reads_chain_zero ih
  | tighter _ ih => exact chainArrives_tighter ih
  | binary hop _ _ ih ih' => exact ChainArrives.binary ih (mem_operators_iff.mp hop) ih'
  | access h ih => exact reads_operand h ih
  | unary op _ ih => exact Reads.unary ih op
  | settled _ ih => exact AccessArrives.settled ih
  | bare _ ih => exact accessArrives_of_reads ih
  | primary _ ih => exact accessArrives_of_reads ih
  | member _ property ih => exact AccessArrives.member ih property
  | call _ _ ih ihargs => exact AccessArrives.call ih (ihargs (.inl rfl))
  | index _ _ ih ihi => exact AccessArrives.index ih ihi
  | construction h => exact reads_construction h
  | constructionWith h _ ihargs => exact reads_constructionWith h (ihargs (.inl rfl))
  | string value => exact reads_literal fun _ _ => rfl
  | number text => exact reads_literal fun _ _ => rfl
  | trueWord => exact reads_literal fun _ _ => rfl
  | falseWord => exact reads_literal fun _ _ => rfl
  | nullWord => exact reads_literal fun _ _ => rfl
  | identifier h => exact reads_identifier h
  | parens _ ih => exact Reads.parens ih
  | array _ ih => exact ListRead.array (ih (.inl rfl))
  | object _ ih => exact ListRead.object (ih (.inr rfl))
  | static key _ ih => exact reads_static key ih
  | computed _ _ ih ih' => exact reads_computed ih ih'
  | empty item => exact listRead_nil
  | list _ hvs ih ihvs => exact fun hitem => listRead_cons (ih.reads_item hitem) hvs (ihvs hitem)
  | noOthers item => exact fun _ => othersRead_nil item
  | others _ hvs ih ihvs =>
    exact fun hitem => OthersRead.cons (ih.reads_item hitem) hvs (ihvs hitem)

end Expr

end Phrasebook
