import Phrasebook.Expr

/-!
# Calls among the parts of an expression

Whether an expression may be evaluated ahead of its phrase is decided by a walk
over it, `Phrasebook.Expr.hasCall`. Here the walk is measured against what it is
meant to find: an expression has **parts**, itself and the parts of its operands
(`Phrasebook.Expr.OccursIn`), and the walk finds a call exactly when one of them
is a call or a construction (`Phrasebook.Expr.hasCall_iff`).
-/

namespace Phrasebook

/-- The expressions a property is made of: its value, and its key if that is
evaluated. -/
def Property.operands : Property → List Expr
  | .static _ value => [value]
  | .computed key value => [key, value]

/-- The expressions an expression is directly made of. -/
def Expr.operands : Expr → List Expr
  | .identifier _ | .string _ | .number _ | .bool _ | .null => []
  | .member e _ => [e]
  | .index e i => [e, i]
  | .call callee args => callee :: args
  | .construction callee args => callee :: args
  | .unary _ operand => [operand]
  | .binary _ left right => [left, right]
  | .conditional test consequent alternate => [test, consequent, alternate]
  | .sequence items => items
  | .array items => items
  | .object properties => properties.flatMap Property.operands

namespace Expr

/-- An expression **occurs in** another: it is that one, or occurs in one of its
operands. -/
inductive OccursIn (part : Expr) : Expr → Prop
  | self : OccursIn part part
  | operand {o e : Expr} : o ∈ e.operands → OccursIn part o → OccursIn part e

/-- Some part of an expression is a call or a construction. -/
def HoldsCall (e : Expr) : Prop :=
  ∃ part : Expr, part.OccursIn e ∧ part.isCall = true

theorem HoldsCall.of_operand {o e : Expr} (ho : o ∈ e.operands) (h : o.HoldsCall) :
    e.HoldsCall := by
  obtain ⟨part, hpart, hcall⟩ := h
  exact ⟨part, .operand ho hpart, hcall⟩

end Expr

/-! ### What the walk looks at -/

theorem anyHasCall_iff (items : List Expr) :
    anyHasCall items = true ↔ ∃ o ∈ items, o.hasCall = true := by
  induction items with
  | nil => simp [anyHasCall]
  | cons item items ih => simp [anyHasCall, ih]

theorem Property.hasCall_iff (p : Property) :
    p.hasCall = true ↔ ∃ o ∈ p.operands, o.hasCall = true := by
  cases p <;> simp [Property.hasCall, Property.operands]

theorem anyPropertyHasCall_iff (properties : List Property) :
    anyPropertyHasCall properties = true ↔
      ∃ o ∈ properties.flatMap Property.operands, o.hasCall = true := by
  induction properties with
  | nil => simp [anyPropertyHasCall]
  | cons p ps ih =>
    rw [anyPropertyHasCall, Bool.or_eq_true, ih, Property.hasCall_iff, List.flatMap_cons]
    simp only [List.mem_append, or_and_right, exists_or]

/-- The walk stops at a call and goes on into the operands of all else. -/
theorem Expr.hasCall_iff_operands (e : Expr) :
    e.hasCall = true ↔ e.isCall = true ∨ ∃ o ∈ e.operands, o.hasCall = true := by
  cases e <;>
    simp [Expr.hasCall, Expr.isCall, Expr.operands, anyHasCall_iff, anyPropertyHasCall_iff,
      or_assoc]

/-! ### What the walk finds -/

theorem Expr.hasCall_of_holdsCall {e : Expr} (h : e.HoldsCall) : e.hasCall = true := by
  obtain ⟨part, hpart, hcall⟩ := h
  induction hpart with
  | self => exact (hasCall_iff_operands part).mpr (Or.inl hcall)
  | operand ho _ ih => exact (hasCall_iff_operands _).mpr (Or.inr ⟨_, ho, ih⟩)

theorem Property.sizeOf_lt_of_mem_operands {p : Property} {o : Expr} (h : o ∈ p.operands) :
    sizeOf o < sizeOf p := by
  cases p <;> simp only [Property.operands, List.mem_cons, List.not_mem_nil, or_false] at h
  case static key value =>
    rw [h, Property.static.sizeOf_spec]
    omega
  case computed key value =>
    rw [Property.computed.sizeOf_spec]
    rcases h with rfl | rfl <;> omega

theorem Expr.sizeOf_lt_of_mem_operands {e o : Expr} (h : o ∈ e.operands) :
    sizeOf o < sizeOf e := by
  have hlist : ∀ {items : List Expr}, o ∈ items → sizeOf o < sizeOf items :=
    fun hi => List.sizeOf_lt_of_mem hi
  cases e with
  | object properties =>
    obtain ⟨p, hp, ho⟩ := List.mem_flatMap.mp h
    have hop := Property.sizeOf_lt_of_mem_operands ho
    have hps := List.sizeOf_lt_of_mem hp
    rw [Expr.object.sizeOf_spec]
    omega
  | _ =>
    simp only [Expr.operands] at h
    grind [Expr.member.sizeOf_spec, Expr.index.sizeOf_spec, Expr.call.sizeOf_spec,
      Expr.construction.sizeOf_spec, Expr.unary.sizeOf_spec, Expr.binary.sizeOf_spec,
      Expr.conditional.sizeOf_spec, Expr.sequence.sizeOf_spec, Expr.array.sizeOf_spec]

theorem Expr.holdsCall_of_hasCall (e : Expr) (h : e.hasCall = true) : e.HoldsCall := by
  rcases (hasCall_iff_operands e).mp h with hcall | ⟨o, ho, hocall⟩
  · exact ⟨e, .self, hcall⟩
  · have := sizeOf_lt_of_mem_operands ho
    exact (holdsCall_of_hasCall o hocall).of_operand ho
termination_by sizeOf e

/-- **The walk finds a call exactly when some part of the expression is one.** -/
theorem Expr.hasCall_iff (e : Expr) : e.hasCall = true ↔ e.HoldsCall :=
  ⟨holdsCall_of_hasCall e, hasCall_of_holdsCall⟩

end Phrasebook
