import Phrasebook.Expr.Print
import Phrasebook.Proofs.Syntax.Grammar
import Phrasebook.Proofs.Syntax.Spelling

/-!
# Sequences inside sequences

An expression is more than its text: parentheses are no part of it, and it may be made of
anything, a name `1x` or a sequence of nothing. An expression that has a text of its own is
**writable** (`Phrasebook.Expr.Writable`): its names and numbers are spelled as such, its
sequences have two items or more, and it constructs members of a name.

Of a writable expression the text shows all but one thing. A sequence that is directly an
item of another is written without parentheses, and cannot be told from the items it is made
of. So the text is that of the **flattened** expression (`Phrasebook.Expr.flatten`), in which
every such sequence is spliced into the one it is in, and it is the expression's own just if
there is none (`Phrasebook.Expr.flatten_eq_self_iff`).
-/

namespace Phrasebook

/-! ### Writable expressions -/

/-- Whether an expression is a name and members of it. -/
def Expr.isCallee : Expr → Bool
  | identifier name => isName name.toList
  | member owner property => owner.isCallee && isName property.toList
  | _ => false

/-- Whether a key can be written before a colon. -/
def StaticKey.Writable : StaticKey → Prop
  | name n => Expr.isName n.toList = true
  | string _ => True
  | number t => Expr.Numeral t.toList

mutual

/-- **Whether an expression can be written**: its names, its numbers and its callees are such,
and its sequences are no single items. -/
def Expr.Writable : Expr → Prop
  | .identifier name => Expr.isName name.toList = true ∧ name ∉ Expr.reserved
  | .number text => Expr.Numeral text.toList
  | .string _ | .bool _ | .null => True
  | .member object property => object.Writable ∧ Expr.isName property.toList = true
  | .index object index => object.Writable ∧ index.Writable
  | .call callee args => callee.Writable ∧ AllWritable args
  | .construction callee args => callee.isCallee = true ∧ AllWritable args
  | .unary _ operand => operand.Writable
  | .binary _ left right => left.Writable ∧ right.Writable
  | .conditional test consequent alternate =>
    test.Writable ∧ consequent.Writable ∧ alternate.Writable
  | .sequence items => 2 ≤ items.length ∧ AllWritable items
  | .array items => AllWritable items
  | .object properties => AllPropertiesWritable properties

/-- Whether all expressions of a list can be written. -/
def AllWritable : List Expr → Prop
  | [] => True
  | item :: items => item.Writable ∧ AllWritable items

/-- Whether a property can be written. -/
def Property.Writable : Property → Prop
  | .static key value => key.Writable ∧ value.Writable
  | .computed key value => key.Writable ∧ value.Writable

/-- Whether all properties of a list can be written. -/
def AllPropertiesWritable : List Property → Prop
  | [] => True
  | property :: properties => property.Writable ∧ AllPropertiesWritable properties

end

theorem allWritable_iff {items : List Expr} : AllWritable items ↔ ∀ e ∈ items, e.Writable := by
  induction items with
  | nil => simp [AllWritable]
  | cons item items ih => simp [AllWritable, ih]

theorem allPropertiesWritable_iff {properties : List Property} :
    AllPropertiesWritable properties ↔ ∀ p ∈ properties, p.Writable := by
  induction properties with
  | nil => simp [AllPropertiesWritable]
  | cons property properties ih => simp [AllPropertiesWritable, ih]

/-! ### Flattening -/

/-- What an expression is as items of a sequence: a sequence is its items, and any other
expression is an item of its own. -/
def Expr.parts : Expr → List Expr
  | sequence items => items
  | e => [e]

mutual

/-- **An expression with every sequence that is directly an item of another spliced into
it**. -/
def Expr.flatten : Expr → Expr
  | .identifier name => .identifier name
  | .string value => .string value
  | .number text => .number text
  | .bool value => .bool value
  | .null => .null
  | .member object property => .member object.flatten property
  | .index object index => .index object.flatten index.flatten
  | .call callee args => .call callee.flatten (flattenAll args)
  | .construction callee args => .construction callee.flatten (flattenAll args)
  | .unary op operand => .unary op operand.flatten
  | .binary op left right => .binary op left.flatten right.flatten
  | .conditional test consequent alternate =>
    .conditional test.flatten consequent.flatten alternate.flatten
  | .sequence items => .sequence (splice items)
  | .array items => .array (flattenAll items)
  | .object properties => .object (flattenProperties properties)

/-- The expressions of a list, each flattened. -/
def flattenAll : List Expr → List Expr
  | [] => []
  | item :: items => item.flatten :: flattenAll items

/-- The items of a sequence, the sequences among them spliced into it. -/
def splice : List Expr → List Expr
  | [] => []
  | item :: items => item.flatten.parts ++ splice items

/-- A property with its expressions flattened. -/
def Property.flatten : Property → Property
  | .static key value => .static key value.flatten
  | .computed key value => .computed key.flatten value.flatten

/-- The properties of a list, each flattened. -/
def flattenProperties : List Property → List Property
  | [] => []
  | property :: properties => property.flatten :: flattenProperties properties

end

mutual

/-- Whether no sequence is directly an item of another, anywhere in an expression. -/
def Expr.isFlat : Expr → Bool
  | .identifier _ | .string _ | .number _ | .bool _ | .null => true
  | .member object _ => object.isFlat
  | .index object index => object.isFlat && index.isFlat
  | .call callee args => callee.isFlat && allFlat args
  | .construction callee args => callee.isFlat && allFlat args
  | .unary _ operand => operand.isFlat
  | .binary _ left right => left.isFlat && right.isFlat
  | .conditional test consequent alternate =>
    test.isFlat && consequent.isFlat && alternate.isFlat
  | .sequence items => items.all (!·.isSequence) && allFlat items
  | .array items => allFlat items
  | .object properties => allPropertiesFlat properties

/-- Whether all expressions of a list are flat. -/
def allFlat : List Expr → Bool
  | [] => true
  | item :: items => item.isFlat && allFlat items

/-- Whether the expressions of a property are flat. -/
def Property.isFlat : Property → Bool
  | .static _ value => value.isFlat
  | .computed key value => key.isFlat && value.isFlat

/-- Whether all properties of a list are flat. -/
def allPropertiesFlat : List Property → Bool
  | [] => true
  | property :: properties => property.isFlat && allPropertiesFlat properties

end

namespace Expr

/-! ### What flattening keeps -/

@[simp] theorem isOpen_flatten (e : Expr) : e.flatten.isOpen = e.isOpen := by
  cases e <;> rw [flatten] <;> rfl

@[simp] theorem isSequence_flatten (e : Expr) : e.flatten.isSequence = e.isSequence := by
  cases e <;> rw [flatten] <;> rfl

theorem parts_of_not_isSequence {e : Expr} (h : e.isSequence = false) : e.parts = [e] := by
  cases e <;> first | rfl | exact nomatch h

/-- A callee holds no sequence. -/
theorem flat_of_isCallee {e : Expr} (h : e.isCallee = true) :
    e.flatten = e ∧ e.isFlat = true := by
  fun_induction isCallee e with
  | case1 name => exact ⟨by rw [flatten], by rw [isFlat]⟩
  | case2 owner property ih =>
    obtain ⟨hflatten, hflat⟩ := ih (Bool.and_eq_true_iff.mp h).1
    exact ⟨by rw [flatten, hflatten], by rw [isFlat, hflat]⟩
  | case3 => exact nomatch h

mutual

/-- Splicing makes no sequence shorter. -/
theorem length_parts : ∀ {e : Expr}, e.Writable →
    1 ≤ e.flatten.parts.length ∧ (e.isSequence = true → 2 ≤ e.flatten.parts.length)
  | .sequence items, h => by
    rw [Writable] at h
    have hlength := length_splice h.2
    rw [flatten, parts]
    omega
  | .identifier _, _ | .string _, _ | .number _, _ | .bool _, _ | .null, _ | .member _ _, _
  | .index _ _, _ | .call _ _, _ | .construction _ _, _ | .unary _ _, _ | .binary _ _ _, _
  | .conditional _ _ _, _ | .array _, _ | .object _, _ => by
    simp [flatten, parts, isSequence]

theorem length_splice : ∀ {items : List Expr}, AllWritable items →
    items.length ≤ (splice items).length
  | [], _ => Nat.zero_le _
  | item :: items, h => by
    rw [AllWritable] at h
    have hparts := length_parts h.1
    have hsplice := length_splice h.2
    rw [splice, List.length_append, List.length_cons]
    omega

end

theorem parts_flatten_ne_nil {e : Expr} (h : e.Writable) : e.flatten.parts ≠ [] := by
  have hlength := (length_parts h).1
  intro hnil
  rw [hnil] at hlength
  exact absurd hlength (by decide)

theorem splice_ne_nil {items : List Expr} (h : AllWritable items) (hne : items ≠ []) :
    splice items ≠ [] := by
  have hlength := length_splice h
  intro hnil
  rw [hnil] at hlength
  exact hne (List.eq_nil_of_length_eq_zero (Nat.le_zero.mp hlength))

/-! ### Flat expressions -/

mutual

/-- **Flattening leaves an expression as it is** exactly if no sequence is directly an item of
another. -/
theorem flatten_eq_self_iff : ∀ {e : Expr}, e.Writable → (e.flatten = e ↔ e.isFlat = true)
  | .identifier _, _ | .string _, _ | .number _, _ | .bool _, _ | .null, _ => by
    simp [flatten, isFlat]
  | .member owner property, h => by
    rw [Writable] at h
    simp [flatten, isFlat, flatten_eq_self_iff h.1]
  | .index owner i, h => by
    rw [Writable] at h
    simp [flatten, isFlat, flatten_eq_self_iff h.1, flatten_eq_self_iff h.2]
  | .call callee args, h => by
    rw [Writable] at h
    simp [flatten, isFlat, flatten_eq_self_iff h.1, flattenAll_eq_self_iff h.2]
  | .construction callee args, h => by
    rw [Writable] at h
    -- a callee may be a name that is reserved elsewhere, and so not writable by itself
    obtain ⟨hflatten, hflat⟩ := flat_of_isCallee h.1
    simp [flatten, isFlat, hflatten, hflat, flattenAll_eq_self_iff h.2]
  | .unary op operand, h => by
    rw [Writable] at h
    simp [flatten, isFlat, flatten_eq_self_iff h]
  | .binary op left right, h => by
    rw [Writable] at h
    simp [flatten, isFlat, flatten_eq_self_iff h.1, flatten_eq_self_iff h.2]
  | .conditional test consequent alternate, h => by
    rw [Writable] at h
    simp [flatten, isFlat, flatten_eq_self_iff h.1, flatten_eq_self_iff h.2.1,
      flatten_eq_self_iff h.2.2, and_assoc]
  | .sequence items, h => by
    rw [Writable] at h
    simp [flatten, isFlat, splice_eq_self_iff h.2]
  | .array items, h => by
    rw [Writable] at h
    simp [flatten, isFlat, flattenAll_eq_self_iff h]
  | .object properties, h => by
    rw [Writable] at h
    simp [flatten, isFlat, flattenProperties_eq_self_iff h]

theorem flattenAll_eq_self_iff : ∀ {items : List Expr}, AllWritable items →
    (flattenAll items = items ↔ allFlat items = true)
  | [], _ => by simp [flattenAll, allFlat]
  | item :: items, h => by
    rw [AllWritable] at h
    simp [flattenAll, allFlat, flatten_eq_self_iff h.1, flattenAll_eq_self_iff h.2]

theorem splice_eq_self_iff : ∀ {items : List Expr}, AllWritable items →
    (splice items = items ↔ (∀ e ∈ items, e.isSequence = false) ∧ allFlat items = true)
  | [], _ => by simp [splice, allFlat]
  | item :: items, h => by
    rw [AllWritable] at h
    have hlength := length_splice h.2
    by_cases hsequence : item.isSequence = true
    · -- a sequence has two items at least, and makes the spliced sequence longer
      have hparts := (length_parts h.1).2 hsequence
      have hne : splice (item :: items) ≠ item :: items := by
        intro heq
        have hlengths := congrArg List.length heq
        rw [splice, List.length_append, List.length_cons] at hlengths
        omega
      simp [hne, hsequence]
    · have hparts : item.flatten.parts = [item.flatten] :=
        parts_of_not_isSequence (by simpa using hsequence)
      have hitem := flatten_eq_self_iff h.1
      have hitems := splice_eq_self_iff h.2
      simp only [splice, hparts, List.singleton_append, List.cons.injEq, hitem, hitems, allFlat,
        Bool.and_eq_true, List.forall_mem_cons, Bool.eq_false_iff.mpr hsequence, true_and]
      exact and_left_comm

theorem Property.flatten_eq_self_iff : ∀ {p : Property}, p.Writable →
    (p.flatten = p ↔ p.isFlat = true)
  | .static key value, h => by
    rw [Property.Writable] at h
    simp [Property.flatten, Property.isFlat, Expr.flatten_eq_self_iff h.2]
  | .computed key value, h => by
    rw [Property.Writable] at h
    simp [Property.flatten, Property.isFlat, Expr.flatten_eq_self_iff h.1,
      Expr.flatten_eq_self_iff h.2]

theorem flattenProperties_eq_self_iff : ∀ {properties : List Property},
    AllPropertiesWritable properties →
    (flattenProperties properties = properties ↔ allPropertiesFlat properties = true)
  | [], _ => by simp [flattenProperties, allPropertiesFlat]
  | property :: properties, h => by
    rw [AllPropertiesWritable] at h
    simp [flattenProperties, allPropertiesFlat, Property.flatten_eq_self_iff h.1,
      flattenProperties_eq_self_iff h.2]

end

/-! ### The text of a flattened expression -/

theorem printBare_append {items items' : List Expr} (h : items ≠ []) (h' : items' ≠ []) :
    printBare (items ++ items') = printBare items ++ ", " ++ printBare items' := by
  induction items with
  | nil => exact absurd rfl h
  | cons item items ih =>
    rcases items with _ | ⟨item', items⟩
    · obtain ⟨first, others, rfl⟩ := List.exists_cons_of_ne_nil h'
      rw [List.singleton_append, printBare, printBare]
      exact List.cons_ne_nil _ _
    · have hitems := ih (List.cons_ne_nil _ _)
      rw [List.cons_append] at hitems
      simp only [List.cons_append, printBare, hitems, String.append_assoc]

theorem printBare_parts (e : Expr) : printBare e.parts = e.print := by
  cases e with
  | sequence items => rw [parts, print]
  | _ => rw [parts_of_not_isSequence rfl, printBare]

mutual

/-- **Flattening does not show in the text.** -/
theorem print_flatten : ∀ {e : Expr}, e.Writable → e.flatten.print = e.print
  | .identifier _, _ | .string _, _ | .number _, _ | .bool _, _ | .null, _ => by rw [flatten]
  | .member owner property, h => by
    rw [Writable] at h
    rw [flatten, print, print, isOpen_flatten, print_flatten h.1]
  | .index owner i, h => by
    rw [Writable] at h
    rw [flatten, print, print, isOpen_flatten, print_flatten h.1, print_flatten h.2]
  | .call callee args, h => by
    rw [Writable] at h
    rw [flatten, print, print, isOpen_flatten, print_flatten h.1, printItems_flattenAll h.2]
  | .construction callee args, h => by
    rw [Writable] at h
    rw [flatten, print, print, (flat_of_isCallee h.1).1, printItems_flattenAll h.2]
  | .unary op operand, h => by
    rw [Writable] at h
    rw [flatten, print, print, isOpen_flatten, print_flatten h]
  | .binary op left right, h => by
    rw [Writable] at h
    rw [flatten, print, print, isOpen_flatten, isOpen_flatten, print_flatten h.1,
      print_flatten h.2]
  | .conditional test consequent alternate, h => by
    rw [Writable] at h
    rw [flatten, print, print, isOpen_flatten, isOpen_flatten, isOpen_flatten,
      print_flatten h.1, print_flatten h.2.1, print_flatten h.2.2]
  | .sequence items, h => by
    rw [Writable] at h
    rw [flatten, print, print, printBare_splice h.2]
  | .array items, h => by
    rw [Writable] at h
    rw [flatten, print, print, printItems_flattenAll h]
  | .object [], _ => by rw [flatten, flattenProperties]
  | .object (property :: properties), h => by
    rw [Writable] at h
    have hproperties := printProperties_flattenProperties h
    rw [flattenProperties] at hproperties
    rw [flatten, flattenProperties, print, print, hproperties]

theorem printItems_flattenAll : ∀ {items : List Expr}, AllWritable items →
    printItems (flattenAll items) = printItems items
  | [], _ => rfl
  | [item], h => by
    rw [AllWritable] at h
    rw [flattenAll, flattenAll, printItems, printItems, isSequence_flatten, print_flatten h.1]
  | item :: item' :: items, h => by
    rw [AllWritable] at h
    have hitems := printItems_flattenAll h.2
    rw [flattenAll] at hitems
    simp only [flattenAll, printItems, isSequence_flatten, print_flatten h.1, hitems]

theorem printBare_splice : ∀ {items : List Expr}, AllWritable items →
    printBare (splice items) = printBare items
  | [], _ => rfl
  | [item], h => by
    rw [AllWritable] at h
    rw [splice, splice, List.append_nil, printBare_parts, print_flatten h.1, printBare]
  | item :: item' :: items, h => by
    rw [AllWritable] at h
    rw [splice, printBare_append (parts_flatten_ne_nil h.1)
      (splice_ne_nil h.2 (List.cons_ne_nil _ _)), printBare_parts, print_flatten h.1,
      printBare_splice h.2]
    exact (printBare.eq_3 item (item' :: items) (List.cons_ne_nil _ _)).symm

theorem Property.print_flatten : ∀ {p : Property}, p.Writable → p.flatten.print = p.print
  | .static key value, h => by
    rw [Property.Writable] at h
    rw [Property.flatten, Property.print, Property.print, isSequence_flatten,
      Expr.print_flatten h.2]
  | .computed key value, h => by
    rw [Property.Writable] at h
    rw [Property.flatten, Property.print, Property.print, isSequence_flatten,
      Expr.print_flatten h.1, Expr.print_flatten h.2]

theorem printProperties_flattenProperties : ∀ {properties : List Property},
    AllPropertiesWritable properties →
    printProperties (flattenProperties properties) = printProperties properties
  | [], _ => rfl
  | [property], h => by
    rw [AllPropertiesWritable] at h
    rw [flattenProperties, flattenProperties, printProperties, printProperties,
      Property.print_flatten h.1]
  | property :: property' :: properties, h => by
    rw [AllPropertiesWritable] at h
    have hproperties := printProperties_flattenProperties h.2
    rw [flattenProperties] at hproperties
    simp only [flattenProperties, printProperties, Property.print_flatten h.1, hproperties]

end

end Expr

end Phrasebook
