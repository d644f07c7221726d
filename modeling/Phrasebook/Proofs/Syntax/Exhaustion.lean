import Phrasebook.Proofs.Syntax.Calls

/-!
# When a reading runs out of fuel

A reading has no fuel of its own to use up: it runs out only if a reading that it calls does, with
one less (`Phrasebook.Expr.callRunsOut_of_run`). This says of `Phrasebook.Expr.Calls` that no call is
missing there, for whatever a reader asked in a way not listed could run out as well.

Hence a fuel above its cost is never used up by a reading (`Phrasebook.Expr.run_ne_unfinished`): it
would take a chain of calls that is longer than the cost, and each call costs less than the reading
that makes it.

A loop gives the other readers the same fuel at every turn, though it has less for itself. So what
runs out in a turn may have had more fuel than a call is given here; with less it runs out all the
more (`Phrasebook.Expr.keptAt`).
-/

namespace Phrasebook

namespace Expr

variable {α β : Type}

/-! ### Outcomes and loops that run out -/

namespace Outcome

variable {o : Outcome α}

theorem andThen_eq_unfinished {f : α → List Lexeme → Outcome β} :
    o.andThen f = .unfinished ↔
      o = .unfinished ∨ ∃ v rest, o = .done v rest ∧ f v rest = .unfinished := by
  cases o <;> simp [andThen]

theorem andThen_done_eq_unfinished {f : α → List Lexeme → β} :
    (o.andThen fun v rest => .done (f v rest) rest) = .unfinished ↔ o = .unfinished := by
  cases o <;> simp [andThen]

@[simp] theorem orFailAt_eq_unfinished {start : List Lexeme} :
    o.orFailAt start = .unfinished ↔ o = .unfinished := by
  cases o <;> simp [orFailAt]

@[simp] theorem closedBy_eq_unfinished {close : Lexeme} :
    o.closedBy close = .unfinished ↔ o = .unfinished := by
  rw [closedBy, andThen_eq_unfinished]
  refine ⟨fun h => h.resolve_right ?_, .inl⟩
  rintro ⟨v, _ | ⟨l, rest⟩, -, h⟩
  · cases h
  · dsimp only at h
    split_ifs at h

end Outcome

section Loops

variable {item : List Lexeme → Outcome α} {fuel : Nat} {ls : List Lexeme}

theorem itemsAfterComma_eq_unfinished (h : itemsAfterComma item (fuel + 1) ls = .unfinished) :
    ∃ ls', ls = .comma :: ls' ∧ (item ls' = .unfinished ∨
      ∃ v rest, item ls' = .done v rest ∧ itemsAfterComma item fuel rest = .unfinished) := by
  rw [itemsAfterComma.eq_def] at h
  split at h
  · contradiction
  · rename_i heq
    obtain rfl := Nat.succ.inj heq
    refine ⟨_, rfl, ?_⟩
    split at h
    · rename_i v rest hv
      exact .inr ⟨v, rest, hv, Outcome.andThen_done_eq_unfinished.mp h⟩
    · cases h
    · rename_i hv
      exact .inl hv
  · cases h

theorem items_eq_unfinished (h : items item fuel ls = .unfinished) : item ls = .unfinished ∨
    ∃ v rest, item ls = .done v rest ∧ itemsAfterComma item fuel rest = .unfinished := by
  rw [items] at h
  split at h
  · rename_i v rest hv
    exact .inr ⟨v, rest, hv, Outcome.andThen_done_eq_unfinished.mp h⟩
  · cases h
  · rename_i hv
    exact .inl hv

theorem sequenceAfterComma_eq_unfinished
    (h : sequenceAfterComma item (fuel + 1) ls = .unfinished) :
    ∃ ls', ls = .comma :: ls' ∧ (item ls' = .unfinished ∨
      ∃ v rest, item ls' = .done v rest ∧ sequenceAfterComma item fuel rest = .unfinished) := by
  rw [sequenceAfterComma.eq_def] at h
  split at h
  · contradiction
  · rename_i heq
    obtain rfl := Nat.succ.inj heq
    refine ⟨_, rfl, (Outcome.andThen_eq_unfinished.mp h).imp_right ?_⟩
    rintro ⟨v, rest, hv, h⟩
    exact ⟨v, rest, hv, Outcome.andThen_done_eq_unfinished.mp h⟩
  · cases h

end Loops

section Chains

variable {operand : List Lexeme → Outcome Expr} {tier fuel : Nat} {ls : List Lexeme}

/-- What stands left of a chain's operators makes no difference to what is read. -/
theorem chainAfter_void (left left' : Expr) (ls : List Lexeme) :
    (chainAfter operand tier fuel left ls).void =
      (chainAfter operand tier fuel left' ls).void := by
  fun_induction chainAfter operand tier fuel left ls generalizing left' with
  | case1 => rfl
  | case2 fuel left op ls hop ih =>
    rw [chainAfter, if_pos hop]
    cases operand ls with
    | done right rest => exact ih right rest _
    | _ => rfl
  | case3 fuel left op ls hop =>
    rw [chainAfter, if_neg hop]
    rfl
  | case4 fuel left ls hls =>
    rw [chainAfter.eq_3 _ _ _ _ _ hls]
    rfl

theorem chainAfter_eq_unfinished {left : Expr}
    (h : chainAfter operand tier (fuel + 1) left ls = .unfinished) :
    ∃ op ls', ls = .operator op :: ls' ∧ op.tier = tier ∧ (operand ls' = .unfinished ∨
      ∃ right rest, operand ls' = .done right rest ∧
        chainAfter operand tier fuel (.binary op left right) rest = .unfinished) := by
  rw [chainAfter.eq_def] at h
  split at h
  · contradiction
  · rename_i heq
    obtain rfl := Nat.succ.inj heq
    split_ifs at h with hop
    exact ⟨_, _, rfl, hop, Outcome.andThen_eq_unfinished.mp h⟩
  · cases h

end Chains

section Accesses

variable {arguments : List Lexeme → Outcome (List Expr)} {subscript : List Lexeme → Outcome Expr}
  {fuel : Nat} {ls : List Lexeme}

/-- What stands before accesses makes no difference to what is read. -/
theorem accessesAfter_void (e e' : Expr) (ls : List Lexeme) :
    (accessesAfter arguments subscript fuel e ls).void =
      (accessesAfter arguments subscript fuel e' ls).void := by
  fun_induction accessesAfter arguments subscript fuel e ls generalizing e' with
  | case1 => rfl
  | case2 fuel e name ls ih =>
    rw [accessesAfter]
    exact ih _
  | case3 fuel e ls hls =>
    rw [accessesAfter.eq_3 _ _ _ _ _ hls]
  | case4 fuel e ls ih =>
    rw [accessesAfter]
    cases arguments ls with
    | done args rest => exact ih args rest _
    | _ => rfl
  | case5 fuel e ls ih =>
    rw [accessesAfter]
    cases subscript ls with
    | done i rest => exact ih i rest _
    | _ => rfl
  | case6 fuel e ls hmember hdot hparen hbracket =>
    rw [accessesAfter.eq_6 _ _ _ _ _ hmember hdot hparen hbracket]
    rfl

theorem membersAfter_snd (object object' : Expr) (ls : List Lexeme) :
    (membersAfter object ls).2 = (membersAfter object' ls).2 := by
  fun_induction membersAfter object ls generalizing object' with
  | case1 object name ls ih => exact ih _
  | case2 object ls hls => rw [membersAfter.eq_2 _ _ hls]

theorem constructionAfter_eq_unfinished (h : constructionAfter arguments ls = .unfinished) :
    ∃ name ls' rest, ls = .word name :: ls' ∧
      (membersAfter (.identifier name) ls').2 = .openParen :: rest ∧
      arguments rest = .unfinished := by
  rw [constructionAfter.eq_def] at h
  split at h
  · rename_i name ls'
    split at h
    · rename_i callee rest hafter
      refine ⟨name, ls', rest, rfl, by rw [hafter], ?_⟩
      exact Outcome.andThen_done_eq_unfinished.mp h
    · cases h
  · cases h

end Accesses

/-! ### Readers that run out -/

/-- One of the calls that a reader makes when it is given some lexemes **runs out** of a fuel. -/
def CallRunsOut (fuel : Nat) (r : Reader) (ls : List Lexeme) : Prop :=
  ∃ r' ls', Calls (r, ls) (r', ls') ∧ r'.run fuel ls' = .unfinished

section RunsOut

variable {fuel : Nat} {ls : List Lexeme}

theorem sequenceOf_runsOut (h : sequenceOf (fuel + 1) ls = .unfinished) :
    CallRunsOut fuel .sequence ls := by
  rw [sequenceOf, Outcome.andThen_eq_unfinished] at h
  obtain h | ⟨first, rest, hfirst, h⟩ := h
  · exact ⟨.conditional, ls, .firstPart, Outcome.void_unfinished h⟩
  · rw [Outcome.andThen_eq_unfinished] at h
    obtain h | ⟨others, _, -, h⟩ := h
    · exact ⟨.sequenceLoop, rest, .otherParts ⟨fuel, Outcome.void_done hfirst⟩,
        Outcome.void_unfinished h⟩
    · cases others <;> cases h

theorem sequenceLoop_runsOut
    (h : sequenceAfterComma (conditionalOf (fuel + 1)) (fuel + 1) ls = .unfinished) :
    CallRunsOut fuel .sequenceLoop ls := by
  have hkept := (keptAt fuel).conditional
  obtain ⟨ls, rfl, h | ⟨v, rest, hv, h⟩⟩ := sequenceAfterComma_eq_unfinished h
  · exact ⟨.conditional, ls, .part, Outcome.void_unfinished ((hkept ls).eq_unfinished h)⟩
  · have hloop := (sequenceAfterComma_keptBy hkept (Nat.le_refl fuel) rest).eq_unfinished h
    exact ⟨.sequenceLoop, rest, .nextPart ⟨_, Outcome.void_done hv⟩, Outcome.void_unfinished hloop⟩

theorem conditionalOf_runsOut (h : conditionalOf (fuel + 1) ls = .unfinished) :
    CallRunsOut fuel .conditional ls := by
  rw [conditionalOf, Outcome.andThen_eq_unfinished] at h
  obtain h | ⟨test, rest, htest, h⟩ := h
  · exact ⟨.chain 6, ls, .test, Outcome.void_unfinished h⟩
  · have htest : (Reader.chain 6).Reaches ls rest := ⟨fuel, Outcome.void_done htest⟩
    split at h
    · rw [Outcome.andThen_eq_unfinished, Outcome.closedBy_eq_unfinished] at h
      obtain h | ⟨consequent, rest', hconsequent, h⟩ := h
      · exact ⟨.conditional, _, .consequent htest, Outcome.void_unfinished h⟩
      · rw [Outcome.closedBy_eq_done] at hconsequent
        have h := Outcome.andThen_done_eq_unfinished.mp h
        exact ⟨.conditional, rest', .alternate htest ⟨fuel, Outcome.void_done hconsequent⟩,
          Outcome.void_unfinished h⟩
    · cases h

theorem chainOf_runsOut {tier : Nat} (h : chainOf (fuel + 1) tier ls = .unfinished) :
    CallRunsOut fuel (.chain tier) ls := by
  cases tier with
  | zero =>
    rw [chainOf] at h
    exact ⟨.operand, ls, .operandOfChain, Outcome.void_unfinished h⟩
  | succ tier =>
    rw [chainOf, Outcome.andThen_eq_unfinished] at h
    obtain h | ⟨left, rest, hleft, h⟩ := h
    · exact ⟨.chain tier, ls, .tighterChain, Outcome.void_unfinished h⟩
    · refine ⟨.chainLoop tier, rest, .operators ⟨fuel, Outcome.void_done hleft⟩, ?_⟩
      exact (chainAfter_void _ left rest).trans (Outcome.void_unfinished h)

theorem chainLoop_runsOut {tier : Nat} {left : Expr}
    (h : chainAfter (chainOf (fuel + 1) tier) (tier + 1) (fuel + 1) left ls = .unfinished) :
    CallRunsOut fuel (.chainLoop tier) ls := by
  have hkept := (keptAt fuel).chain tier
  obtain ⟨op, ls, rfl, hop, h | ⟨right, rest, hright, h⟩⟩ := chainAfter_eq_unfinished h
  · exact ⟨.chain tier, ls, .rightOperand hop, Outcome.void_unfinished ((hkept ls).eq_unfinished h)⟩
  · refine ⟨.chainLoop tier, rest, .nextOperator hop ⟨_, Outcome.void_done hright⟩, ?_⟩
    have hloop := (chainAfter_keptBy hkept _ (Nat.le_refl fuel) _ rest).eq_unfinished h
    exact (chainAfter_void _ _ rest).trans (Outcome.void_unfinished hloop)

theorem operandOf_runsOut (h : operandOf (fuel + 1) ls = .unfinished) :
    CallRunsOut fuel .operand ls := by
  rw [operandOf.eq_def] at h
  dsimp only at h
  split at h
  · cases h
  · split at h
    · rename_i op hop
      have h := Outcome.andThen_done_eq_unfinished.mp h
      exact ⟨.operand, _, .unary hop, Outcome.void_unfinished h⟩
    · rename_i hop
      split_ifs at h with hbang
      exact ⟨.access, _, .accessOfOperand hop (Bool.eq_false_iff.mpr hbang),
        Outcome.void_unfinished h⟩

theorem accessOf_runsOut (h : accessOf (fuel + 1) ls = .unfinished) :
    CallRunsOut fuel .access ls := by
  rw [accessOf, Outcome.andThen_eq_unfinished] at h
  obtain h | ⟨e, rest, he, h⟩ := h
  · exact ⟨.primary, ls, .primaryOfAccess, Outcome.void_unfinished h⟩
  · refine ⟨.accessLoop, rest, .accesses ⟨fuel, Outcome.void_done he⟩, ?_⟩
    exact (accessesAfter_void _ e rest).trans (Outcome.void_unfinished h)

theorem accessLoop_runsOut {e : Expr}
    (h : accessesAfter (argumentsOf (fuel + 1))
      (fun ls => (sequenceOf (fuel + 1) ls).closedBy .closeBracket) (fuel + 1) e ls =
        .unfinished) : CallRunsOut fuel .accessLoop ls := by
  have harguments := (keptAt fuel).arguments
  have hsequence := (keptAt fuel).sequence
  have hloop : ∀ (e : Expr) (rest : List Lexeme),
      accessesAfter (argumentsOf (fuel + 1))
        (fun ls => (sequenceOf (fuel + 1) ls).closedBy .closeBracket) fuel e rest = .unfinished →
      Reader.accessLoop.run fuel rest = .unfinished := fun e rest h =>
    (accessesAfter_void _ e rest).trans (Outcome.void_unfinished ((accessesAfter_keptBy harguments
      (fun ls => (hsequence ls).closedBy _) (Nat.le_refl fuel) e rest).eq_unfinished h))
  rw [accessesAfter.eq_def] at h
  split at h
  · contradiction
  · rename_i name ls heq
    obtain rfl := Nat.succ.inj heq
    exact ⟨.accessLoop, ls, .behindMember, hloop _ _ h⟩
  · cases h
  · rename_i ls heq
    obtain rfl := Nat.succ.inj heq
    obtain h | ⟨args, rest, hargs, h⟩ := Outcome.andThen_eq_unfinished.mp h
    · exact ⟨.arguments, ls, .argumentsOfCall,
        Outcome.void_unfinished ((harguments ls).eq_unfinished h)⟩
    · exact ⟨.accessLoop, rest, .behindCall ⟨_, Outcome.void_done hargs⟩, hloop _ _ h⟩
  · rename_i ls heq
    obtain rfl := Nat.succ.inj heq
    obtain h | ⟨i, rest, hi, h⟩ := Outcome.andThen_eq_unfinished.mp h
    · rw [Outcome.closedBy_eq_unfinished] at h
      exact ⟨.sequence, ls, .index, Outcome.void_unfinished ((hsequence ls).eq_unfinished h)⟩
    · rw [Outcome.closedBy_eq_done] at hi
      exact ⟨.accessLoop, rest, .behindIndex ⟨_, Outcome.void_done hi⟩, hloop _ _ h⟩
  · cases h

theorem argumentsOf_runsOut (h : argumentsOf (fuel + 1) ls = .unfinished) :
    CallRunsOut fuel .arguments ls := by
  rw [argumentsOf, Outcome.closedBy_eq_unfinished] at h
  exact ⟨.list .conditional, ls, .listOfArguments, Outcome.void_unfinished h⟩

theorem constructionAfter_runsOut
    (h : constructionAfter (argumentsOf (fuel + 1)) ls = .unfinished) :
    CallRunsOut fuel .construction ls := by
  obtain ⟨name, ls, rest, rfl, hmembers, h⟩ := constructionAfter_eq_unfinished h
  rw [membersAfter_snd _ .null] at hmembers
  exact ⟨.arguments, rest, .constructionArguments ⟨fuel, congrArg _ hmembers⟩,
    Outcome.void_unfinished (((keptAt fuel).arguments rest).eq_unfinished h)⟩

theorem primaryOf_runsOut (h : primaryOf (fuel + 1) ls = .unfinished) :
    CallRunsOut fuel .primary ls := by
  rw [primaryOf.eq_def] at h
  dsimp only at h
  split at h
  · cases h
  · cases h
  · split_ifs at h with _ _ _ hnew
    exact ⟨.construction, _, hnew ▸ Calls.construction, Outcome.void_unfinished h⟩
  · rw [Outcome.orFailAt_eq_unfinished, Outcome.closedBy_eq_unfinished] at h
    exact ⟨.sequence, _, .parens, Outcome.void_unfinished h⟩
  · have h := Outcome.andThen_done_eq_unfinished.mp h
    rw [Outcome.orFailAt_eq_unfinished, Outcome.closedBy_eq_unfinished] at h
    exact ⟨.list .conditional, _, .array, Outcome.void_unfinished h⟩
  · have h := Outcome.andThen_done_eq_unfinished.mp h
    rw [Outcome.orFailAt_eq_unfinished, Outcome.closedBy_eq_unfinished] at h
    exact ⟨.list .property, _, .object, Outcome.void_unfinished h⟩
  · cases h

theorem valueOf_runsOut {key : Expr → Property} (h : valueOf (fuel + 1) key ls = .unfinished) :
    CallRunsOut fuel .value ls := by
  rw [valueOf] at h
  have h := Outcome.andThen_done_eq_unfinished.mp h
  exact ⟨.conditional, ls, .conditionalOfValue, Outcome.void_unfinished h⟩

/-- A value runs out of fuel whatever key it stands behind. -/
theorem run_value_of_valueOf {key : Expr → Property} (h : valueOf fuel key ls = .unfinished) :
    Reader.value.run fuel ls = .unfinished := by
  cases fuel with
  | zero => rw [Reader.run, valueOf, Outcome.void]
  | succ fuel =>
    rw [valueOf] at h
    have h := Outcome.andThen_done_eq_unfinished.mp h
    rw [Reader.run, valueOf, h]
    rfl

theorem propertyOf_runsOut (h : propertyOf (fuel + 1) ls = .unfinished) :
    CallRunsOut fuel .property ls := by
  rw [propertyOf.eq_def] at h
  dsimp only at h
  split at h
  · exact ⟨.value, _, .valueOfStatic (.string _), run_value_of_valueOf h⟩
  · exact ⟨.value, _, .valueOfStatic (.number _), run_value_of_valueOf h⟩
  · exact ⟨.value, _, .valueOfStatic (.name _), run_value_of_valueOf h⟩
  · obtain h | ⟨key, rest, hkey, h⟩ := Outcome.andThen_eq_unfinished.mp h
    · rw [Outcome.closedBy_eq_unfinished, Outcome.closedBy_eq_unfinished] at h
      exact ⟨.sequence, _, .key, Outcome.void_unfinished h⟩
    · rw [Outcome.closedBy_eq_done, Outcome.closedBy_eq_done] at hkey
      exact ⟨.value, rest, .valueOfComputed ⟨fuel, Outcome.void_done hkey⟩, run_value_of_valueOf h⟩
  · cases h

theorem ListItem.read_keptBy (item : ListItem) (ls : List Lexeme) :
    (item.read fuel ls).KeptBy (item.read (fuel + 1) ls) := by
  cases item with
  | conditional => exact (keptAt fuel).conditional ls
  | property => exact (keptAt fuel).property ls

theorem ListItem.run_eq_unfinished {item : ListItem}
    (h : item.read (fuel + 1) ls = .unfinished) : item.reader.run fuel ls = .unfinished :=
  (item.run_reader fuel ls).trans
    (Outcome.void_unfinished ((item.read_keptBy ls).eq_unfinished h))

theorem items_runsOut {item : ListItem}
    (h : items (item.read (fuel + 1)) (fuel + 1) ls = .unfinished) :
    CallRunsOut fuel (.list item) ls := by
  obtain h | ⟨v, rest, hv, h⟩ := items_eq_unfinished h
  · exact ⟨item.reader, ls, .firstItem, ListItem.run_eq_unfinished h⟩
  · refine ⟨.listLoop item, rest, .otherItems (ListItem.reaches_of_read hv), ?_⟩
    exact Outcome.void_unfinished
      ((itemsAfterComma_keptBy item.read_keptBy (Nat.le_succ fuel) rest).eq_unfinished h)

theorem listLoop_runsOut {item : ListItem}
    (h : itemsAfterComma (item.read (fuel + 1)) (fuel + 1) ls = .unfinished) :
    CallRunsOut fuel (.listLoop item) ls := by
  obtain ⟨ls, rfl, h | ⟨v, rest, hv, h⟩⟩ := itemsAfterComma_eq_unfinished h
  · exact ⟨item.reader, ls, .item, ListItem.run_eq_unfinished h⟩
  · refine ⟨.listLoop item, rest, .nextItem (ListItem.reaches_of_read hv), ?_⟩
    exact Outcome.void_unfinished
      ((itemsAfterComma_keptBy item.read_keptBy (Nat.le_refl fuel) rest).eq_unfinished h)

end RunsOut

/-- **No call is missing**: a reading runs out of fuel only if one of its calls does, with one
less. -/
theorem callRunsOut_of_run {fuel : Nat} {r : Reader} {ls : List Lexeme}
    (h : r.run (fuel + 1) ls = .unfinished) : CallRunsOut fuel r ls := by
  cases r with
  | sequence => exact sequenceOf_runsOut (Outcome.eq_unfinished_of_void h)
  | sequenceLoop => exact sequenceLoop_runsOut (Outcome.eq_unfinished_of_void h)
  | conditional => exact conditionalOf_runsOut (Outcome.eq_unfinished_of_void h)
  | chain tier => exact chainOf_runsOut (Outcome.eq_unfinished_of_void h)
  | chainLoop tier => exact chainLoop_runsOut (Outcome.eq_unfinished_of_void h)
  | operand => exact operandOf_runsOut (Outcome.eq_unfinished_of_void h)
  | access => exact accessOf_runsOut (Outcome.eq_unfinished_of_void h)
  | accessLoop => exact accessLoop_runsOut (Outcome.eq_unfinished_of_void h)
  | arguments => exact argumentsOf_runsOut (Outcome.eq_unfinished_of_void h)
  | primary => exact primaryOf_runsOut (Outcome.eq_unfinished_of_void h)
  | construction => exact constructionAfter_runsOut (Outcome.eq_unfinished_of_void h)
  | memberLoop => exact nomatch h
  | property => exact propertyOf_runsOut (Outcome.eq_unfinished_of_void h)
  | value => exact valueOf_runsOut (Outcome.eq_unfinished_of_void h)
  | list item => exact items_runsOut (Outcome.eq_unfinished_of_void h)
  | listLoop item => exact listLoop_runsOut (Outcome.eq_unfinished_of_void h)

/-- **A fuel above its cost is never used up by a reading.** -/
theorem run_ne_unfinished {fuel : Nat} {r : Reader} {ls : List Lexeme}
    (h : cost (r, ls) < fuel) : r.run fuel ls ≠ .unfinished := by
  induction fuel generalizing r ls with
  | zero => exact absurd h (Nat.not_lt_zero _)
  | succ fuel ih =>
    intro hrun
    obtain ⟨r', ls', hcall, hrun'⟩ := callRunsOut_of_run hrun
    have hcost := hcall.cost_lt
    exact ih (by omega) hrun'

end Expr

end Phrasebook
