import Phrasebook.Proofs.Syntax.Flattening
import Phrasebook.Proofs.Syntax.Parsing
import Phrasebook.Proofs.Syntax.Writing

/-!
# Printing and parsing again

Whatever expression can be written, its text is parsed, and to the flattened expression
(`Phrasebook.Expr.parse_print`). The parentheses a text has are those that decide this: an
expression is written in one way where it is an operand, in another where it is an item of a
list, and in a third where it stands alone or is an item of a sequence, and in each of these
places the text is a phrase of the category that is due there (`Phrasebook.Expr.Printed`).

Every expression that is parsed can be written. So printing it and parsing it again gives it
back if no sequence is directly an item of another, and only then
(`Phrasebook.Expr.parse_print_eq_iff`): the source `(a, b), c` is such a sequence, and it is
printed as `a, b, c`.
-/

namespace Phrasebook

namespace Expr

/-! ### An expression in its place -/

/-- An expression is **printed** rightly: wherever it stands, its text is written
for a phrase of the category due there, which stands for the flattened expression. -/
structure Printed (e : Expr) : Prop where
  operand : WrittenFor .settled (inParens e.isOpen e.print) e.flatten
  item : WrittenFor .conditional (inParens e.isSequence e.print) e.flatten
  parts : WrittenFor (.list .conditional) e.print e.flatten.parts
  whole : WrittenFor .sequence e.print e.flatten

/-- Where it is a whole or an item, no parentheses are needed if it is a conditional. -/
theorem Printed.of_conditional {e : Expr} (hsequence : e.isSequence = false)
    (h : WrittenFor .conditional e.print e.flatten)
    (hoperand : WrittenFor .settled (inParens e.isOpen e.print) e.flatten) : Printed e where
  operand := hoperand
  item := by
    rw [hsequence]
    exact h
  parts := by
    rw [parts_of_not_isSequence ((isSequence_flatten e).trans hsequence)]
    exact h.singleton
  whole := h.imp Derives.single

/-- No parentheses are needed anywhere if it is a settled access. -/
theorem Printed.of_settled {e : Expr} (hopen : e.isOpen = false)
    (h : WrittenFor .settled e.print e.flatten) : Printed e := by
  have hsequence : e.isSequence = false := by
    cases e <;> first | rfl | exact hopen
  refine .of_conditional hsequence (h.imp fun h => ?_) ?_
  · exact h.conditional_of_settled
  · rw [hopen]
    exact h

/-- As an operand, an expression made with operators stands in parentheses. -/
theorem Printed.of_open {e : Expr} (hopen : e.isOpen = true) (hsequence : e.isSequence = false)
    (h : WrittenFor .conditional e.print e.flatten) : Printed e := by
  refine .of_conditional hsequence h ?_
  rw [hopen]
  exact (h.imp Derives.single).parens

/-- A sequence stands in parentheses, but not where it is a whole or an item of another. -/
theorem Printed.of_sequence {items : List Expr} (hlength : 2 ≤ (splice items).length)
    (h : WrittenFor (.list .conditional) (printBare items) (splice items)) :
    Printed (.sequence items) := by
  have hprint : (sequence items).print = printBare items := by rw [print]
  have hflatten : (sequence items).flatten = sequence (splice items) := by rw [flatten]
  have hwhole : WrittenFor .sequence (printBare items) (.sequence (splice items)) :=
    h.imp fun h => h.sequence_of_list hlength
  have hparens := hwhole.parens
  constructor <;> rw [hprint, hflatten]
  · exact hparens
  · exact hparens.imp fun h => h.conditional_of_settled
  · exact h
  · exact hwhole

/-! ### All expressions in all places -/

/-- What is constructed is written as a name and members of it. -/
theorem writes_callee {e : Expr} (h : e.isCallee = true) :
    ∃ ls, Writes (inParens e.isOpen e.print) ls ∧ Callee ls e := by
  fun_induction isCallee e with
  | case1 name =>
    rw [print]
    exact ⟨_, writes_word h, .name name⟩
  | case2 owner property ih =>
    obtain ⟨howner, hproperty⟩ := Bool.and_eq_true_iff.mp h
    obtain ⟨ls, hwrites, hcallee⟩ := ih howner
    obtain ⟨hdot, hapart⟩ := writes_dot hproperty
    refine ⟨_, ?_, hcallee.member property⟩
    rw [print]
    have hmember := hwrites.append hdot fun rest _ => hapart rest
    rwa [← String.append_assoc] at hmember
  | case3 => exact absurd h Bool.false_ne_true

theorem writes_key {key : StaticKey} (h : key.Writable) : Writes key.print [key.lexeme] := by
  cases key with
  | name n => exact writes_word h
  | string v => exact writes_quote v
  | number t => exact writes_number h

mutual

/-- **An expression that can be written is printed rightly.** -/
theorem printed : ∀ {e : Expr}, e.Writable → Printed e
  | .identifier name, h => by
    rw [Writable] at h
    refine .of_settled rfl ?_
    rw [print, flatten]
    exact .identifier h.1 h.2
  | .string value, _ => by
    refine .of_settled rfl ?_
    rw [print, flatten]
    exact .string value
  | .number text, h => by
    rw [Writable] at h
    refine .of_settled rfl ?_
    rw [print, flatten]
    exact .number h
  | .bool value, _ => by
    refine .of_settled rfl ?_
    rw [print, flatten]
    exact .bool value
  | .null, _ => by
    refine .of_settled rfl ?_
    rw [print, flatten]
    exact .null
  | .member owner property, h => by
    rw [Writable] at h
    refine .of_settled rfl ?_
    rw [print, flatten]
    exact (printed h.1).operand.member h.2
  | .index owner i, h => by
    rw [Writable] at h
    refine .of_settled rfl ?_
    rw [print, flatten]
    exact (printed h.1).operand.index (printed h.2).whole
  | .call callee args, h => by
    rw [Writable] at h
    refine .of_settled rfl ?_
    rw [print, flatten]
    exact (printed h.1).operand.call (writtenFor_items h.2)
  | .construction callee args, h => by
    rw [Writable] at h
    -- the callee is no expression of its own here: it may be a word that is reserved elsewhere
    obtain ⟨ls, hwrites, hcallee⟩ := writes_callee h.1
    refine .of_settled rfl ?_
    rw [print, flatten, (flat_of_isCallee h.1).1]
    exact .construction hwrites hcallee (writtenFor_items h.2)
  | .unary op operand, h => by
    rw [Writable] at h
    refine .of_open rfl rfl ?_
    rw [print, flatten]
    exact ((printed h).operand.unary op).imp fun h => h.conditional_of_operand
  | .binary op left right, h => by
    rw [Writable] at h
    refine .of_open rfl rfl ?_
    rw [print, flatten]
    exact (printed h.1).operand.binary (printed h.2).operand op
  | .conditional test consequent alternate, h => by
    rw [Writable] at h
    refine .of_open rfl rfl ?_
    rw [print, flatten]
    exact (printed h.1).operand.conditional (printed h.2.1).operand (printed h.2.2).operand
  | .sequence items, h => by
    rw [Writable] at h
    have hne : items ≠ [] := by
      rintro rfl
      exact absurd h.1 (by decide)
    exact .of_sequence (h.1.trans (length_splice h.2)) (writtenFor_bare h.2 hne)
  | .array items, h => by
    rw [Writable] at h
    refine .of_settled rfl ?_
    rw [print, flatten]
    exact (writtenFor_items h).array
  | .object [], _ => by
    refine .of_settled rfl ?_
    rw [print, flatten]
    exact .emptyObject
  | .object (property :: properties), h => by
    rw [Writable] at h
    refine .of_settled rfl ?_
    rw [print, flatten]
    exact (writtenFor_properties h).object

theorem writtenFor_items : ∀ {items : List Expr}, AllWritable items →
    WrittenFor (.list .conditional) (printItems items) (flattenAll items)
  | [], _ => .empty
  | [item], h => by
    rw [AllWritable] at h
    exact (printed h.1).item.singleton
  | item :: item' :: items, h => by
    rw [AllWritable] at h
    exact (printed h.1).item.singleton.append (writtenFor_items h.2) (List.cons_ne_nil _ _)
      (List.cons_ne_nil _ _)

theorem writtenFor_bare : ∀ {items : List Expr}, AllWritable items → items ≠ [] →
    WrittenFor (.list .conditional) (printBare items) (splice items)
  | [], _, hne => absurd rfl hne
  | [item], h, _ => by
    rw [AllWritable] at h
    rw [splice, splice, List.append_nil]
    exact (printed h.1).parts
  | item :: item' :: items, h, _ => by
    rw [AllWritable] at h
    have hne := List.cons_ne_nil item' items
    exact (printed h.1).parts.append (writtenFor_bare h.2 hne) (parts_flatten_ne_nil h.1)
      (splice_ne_nil h.2 hne)

theorem writtenFor_property : ∀ {p : Property}, p.Writable →
    WrittenFor .property p.print p.flatten
  | .static key value, h => by
    rw [Property.Writable] at h
    rw [Property.print, Property.flatten]
    exact .static (writes_key h.1) (printed h.2).item
  | .computed key value, h => by
    rw [Property.Writable] at h
    rw [Property.print, Property.flatten]
    exact .computed (printed h.1).whole (printed h.2).item

theorem writtenFor_properties : ∀ {properties : List Property}, AllPropertiesWritable properties →
    WrittenFor (.list .property) (printProperties properties) (flattenProperties properties)
  | [], _ => .empty
  | [property], h => by
    rw [AllPropertiesWritable] at h
    exact (writtenFor_property h.1).singleton
  | property :: property' :: properties, h => by
    rw [AllPropertiesWritable] at h
    exact (writtenFor_property h.1).singleton.append (writtenFor_properties h.2)
      (List.cons_ne_nil _ _) (List.cons_ne_nil _ _)

end

/-! ### The text is parsed -/

theorem Writable.parse_eq_flatten {e : Expr} (h : e.Writable) :
    parse e.print = .ok e.flatten := by
  obtain ⟨ls, hwrites, hderives⟩ := (printed h).whole
  exact parse_of_spells hwrites.spells_toList hderives

/-- **Printing is exact up to sequences inside sequences**: the text of an expression that can
be written is parsed to the flattened expression, and that has the same text. -/
theorem parse_print {e : Expr} (h : e.Writable) :
    parse e.print = .ok e.flatten ∧ e.flatten.print = e.print :=
  ⟨h.parse_eq_flatten, print_flatten h⟩

/-- A sequence in a sequence, a sign before a sign, a member named like a keyword behind the
word `new`, and a string with a quote in it. -/
def boundsOfMap : Expr :=
  .sequence [.sequence [.identifier "west", .unary .minus (.unary .minus (.number "1.5"))],
    .construction (.member (.identifier "map") "new")
      [.sequence [.identifier "x", .string "the \"old\" town"]]]

theorem parse_print_boundsOfMap : boundsOfMap.Writable ∧
    parse "west, -(-1.5), new map.new((x, \"the \\\"old\\\" town\"))" =
      .ok (.sequence [.identifier "west", .unary .minus (.unary .minus (.number "1.5")),
        .construction (.member (.identifier "map") "new")
          [.sequence [.identifier "x", .string "the \"old\" town"]]]) := by
  have hnumeral : Numeral (['1'] ++ '.' :: ['5']) := .fraction rfl rfl
  have hwritable : boundsOfMap.Writable := by
    simp only [List.singleton_append] at hnumeral
    simp [boundsOfMap, Writable, AllWritable, hnumeral, isCallee, isName, reserved]
  exact ⟨hwritable, (parse_print hwritable).1⟩

/-! ### What is parsed can be written -/

/-- Whether the value of a phrase can be written. -/
def Category.Writable : (c : Category) → c.Value → Prop
  | .property => Property.Writable
  | .list item => fun vs => ∀ v ∈ vs, item.Writable v
  | .others item => fun vs => ∀ v ∈ vs, item.Writable v
  | .sequence | .conditional | .chain _ | .operand | .access | .settled | .bare | .primary =>
    Expr.Writable

theorem Spells.spelled {cs : List Char} {ls : List Lexeme} (h : Spells cs ls) :
    ∀ l ∈ ls, ∃ text, l.Spelled text := by
  induction h with
  | nil => exact fun l hl => nomatch hl
  | blank _ _ ih => exact ih
  | lexeme hl _ _ ih => exact List.forall_mem_cons.mpr ⟨⟨_, hl⟩, ih⟩

theorem Lexeme.Spelled.isName {name : String} {text : List Char}
    (h : (Lexeme.word name).Spelled text) : Expr.isName name.toList = true := by
  cases h with
  | word h =>
    rw [String.toList_ofList]
    exact h
  | symbol h => exact nomatch h

theorem Lexeme.Spelled.numeral {digits : String} {text : List Char}
    (h : (Lexeme.number digits).Spelled text) : Numeral digits.toList := by
  cases h with
  | number h =>
    rw [String.toList_ofList]
    exact h
  | symbol h => exact nomatch h

theorem Callee.isCallee {ls : List Lexeme} {e : Expr} (h : Callee ls e)
    (hls : ∀ l ∈ ls, ∃ text, l.Spelled text) : e.isCallee = true := by
  induction h with
  | name name =>
    obtain ⟨text, hname⟩ := hls _ List.mem_cons_self
    rw [Expr.isCallee]
    exact hname.isName
  | member _ property ih =>
    rw [List.forall_mem_append] at hls
    obtain ⟨text, hname⟩ := hls.2 (.word property) (by simp)
    rw [Expr.isCallee, ih hls.1, hname.isName]
    rfl

/-- **The value of a phrase of spelled lexemes can be written.** -/
theorem Derives.writable {c : Category} {ls : List Lexeme} {v : c.Value} (h : Derives c ls v)
    (hls : ∀ l ∈ ls, ∃ text, l.Spelled text) : c.Writable v := by
  induction h with
  | single _ ih | test _ ih | operand _ ih | tighter _ ih | access _ ih | settled _ ih
  | bare _ ih | primary _ ih => exact ih hls
  | sequence _ _ hne ih ihes =>
    obtain ⟨he, hes⟩ := List.forall_mem_append.mp hls
    have hlength := List.length_pos_iff.mpr hne
    refine ⟨by rw [List.length_cons]; omega, ?_⟩
    exact allWritable_iff.mpr (List.forall_mem_cons.mpr ⟨ih he, ihes hes⟩)
  | conditional _ _ _ ih ih₁ ih₂ =>
    simp only [List.forall_mem_append, List.forall_mem_cons] at hls
    obtain ⟨he, -, he₁, -, he₂⟩ := hls
    exact ⟨ih he, ih₁ he₁, ih₂ he₂⟩
  | binary _ _ _ ih ih' =>
    simp only [List.forall_mem_append, List.forall_mem_cons] at hls
    exact ⟨ih hls.1, ih' hls.2.2⟩
  | unary op _ ih => exact ih (List.forall_mem_cons.mp hls).2
  | member _ property ih =>
    simp only [List.forall_mem_append, List.forall_mem_cons] at hls
    obtain ⟨he, -, ⟨text, hproperty⟩, -⟩ := hls
    exact ⟨ih he, hproperty.isName⟩
  | call _ _ ih ihargs =>
    simp only [List.forall_mem_append, List.forall_mem_cons] at hls
    exact ⟨ih hls.1, allWritable_iff.mpr (ihargs hls.2.2.1)⟩
  | index _ _ ih ihi =>
    simp only [List.forall_mem_append, List.forall_mem_cons] at hls
    exact ⟨ih hls.1, ihi hls.2.2.1⟩
  | construction h =>
    exact ⟨h.isCallee (List.forall_mem_cons.mp hls).2, trivial⟩
  | constructionWith h _ ihargs =>
    simp only [List.forall_mem_append, List.forall_mem_cons] at hls
    exact ⟨h.isCallee hls.2.1, allWritable_iff.mpr (ihargs hls.2.2.2.1)⟩
  | string | trueWord | falseWord | nullWord => trivial
  | number =>
    obtain ⟨text, htext⟩ := hls _ List.mem_cons_self
    exact htext.numeral
  | identifier hname =>
    obtain ⟨text, htext⟩ := hls _ List.mem_cons_self
    exact ⟨htext.isName, hname⟩
  | parens _ ih =>
    simp only [List.forall_mem_append, List.forall_mem_cons] at hls
    exact ih hls.2.1
  | array _ ih =>
    simp only [List.forall_mem_append, List.forall_mem_cons] at hls
    exact allWritable_iff.mpr (ih hls.2.1)
  | object _ ih =>
    simp only [List.forall_mem_append, List.forall_mem_cons] at hls
    exact allPropertiesWritable_iff.mpr (ih hls.2.1)
  | static key _ ih =>
    simp only [List.forall_mem_cons] at hls
    obtain ⟨⟨text, hkey⟩, -, he⟩ := hls
    refine ⟨?_, ih he⟩
    cases key with
    | name n => exact hkey.isName
    | string v => trivial
    | number t => exact hkey.numeral
  | computed _ _ ih ih' =>
    simp only [List.forall_mem_append, List.forall_mem_cons] at hls
    exact ⟨ih hls.2.1, ih' hls.2.2.2.2⟩
  | empty | noOthers => exact fun v hv => absurd hv List.not_mem_nil
  | list _ _ ih ihvs =>
    obtain ⟨hv, hvs⟩ := List.forall_mem_append.mp hls
    exact List.forall_mem_cons.mpr ⟨ih hv, ihvs hvs⟩
  | others _ _ ih ihvs =>
    simp only [List.forall_mem_append, List.forall_mem_cons] at hls
    exact List.forall_mem_cons.mpr ⟨ih hls.2.1, ihvs hls.2.2⟩

/-- What is parsed can be written. -/
theorem writable_of_parse {source : String} {e : Expr} (h : parse source = .ok e) :
    e.Writable := by
  obtain ⟨ls, hspells, hderives⟩ := exists_spells_of_parse h
  exact hderives.writable hspells.spelled

/-- **Printing what is parsed and parsing it again** gives the flattened expression, and so
the expression itself exactly if no sequence is directly an item of another. -/
theorem parse_print_eq_iff {source : String} {e : Expr} (h : parse source = .ok e) :
    parse e.print = .ok e.flatten ∧ (parse e.print = .ok e ↔ e.isFlat = true) := by
  have hwritable := writable_of_parse h
  refine ⟨hwritable.parse_eq_flatten, ?_⟩
  rw [hwritable.parse_eq_flatten, Except.ok.injEq]
  exact flatten_eq_self_iff hwritable

/-- The pair of `a` and `b`, and `c` behind it. -/
def pairThenOne : Expr :=
  .sequence [.sequence [.identifier "a", .identifier "b"], .identifier "c"]

theorem parse_print_eq_iff_pairThenOne : parse "(a, b), c" = .ok pairThenOne ∧
    parse "a, b, c" = .ok (.sequence [.identifier "a", .identifier "b", .identifier "c"]) ∧
    (parse "a, b, c" = .ok pairThenOne ↔ pairThenOne.isFlat = true) := by
  have hparse : parse "(a, b), c" = .ok pairThenOne := by decide +kernel
  exact ⟨hparse, (parse_print_eq_iff hparse).1, (parse_print_eq_iff hparse).2⟩

theorem not_parse_print : ¬∀ (source : String) (e : Expr), parse source = .ok e →
    parse e.print = .ok e := by
  intro hall
  have hparse : parse "(a, b), c" = .ok pairThenOne := by decide +kernel
  have hagain := hall _ _ hparse
  rw [(writable_of_parse hparse).parse_eq_flatten, Except.ok.injEq] at hagain
  simp [pairThenOne, flatten, splice, parts] at hagain

end Expr

end Phrasebook
