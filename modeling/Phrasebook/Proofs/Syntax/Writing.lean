import Phrasebook.Expr.Print
import Phrasebook.Proofs.Syntax.Grammar
import Phrasebook.Proofs.Syntax.Spelling

/-!
# Writing phrases

What text is written for a phrase must do two things at once: it has to spell lexemes the
phrase is derived from, and these must still be its lexemes when more is written behind it.
The second is not to be had for any continuation, since a word goes on with a letter and a
number with a digit. It is to be had for all that is ever written behind an expression: a
blank, a mark, or the point before a name (`Phrasebook.Expr.startsApart`).

So a text is said to **write** a row of lexemes if it spells them before all such
continuations (`Phrasebook.Expr.Writes`), and to write a value of a category if the lexemes
can be chosen to be a phrase that stands for it (`Phrasebook.Expr.Written`). Texts are put
together as phrases are, one lemma for each construct of the language; nothing here says
which expression is written with which text.
-/

namespace Phrasebook

namespace Expr

/-! ### What may be written behind -/

/-- Whether a text goes on with no lexeme before it, whatever that lexeme is. -/
def startsApart : List Char → Bool
  | '.' :: c :: _ => !c.isDigit
  | c :: _ => !isWordChar c && c ≠ '='
  | [] => true

/-- Every lexeme is over before a text that starts apart. -/
theorem Lexeme.endsBefore_of_startsApart (l : Lexeme) {rest : List Char}
    (h : startsApart rest = true) : l.endsBefore rest = true := by
  rcases rest with _ | ⟨c, rest⟩
  · cases l <;> rfl
  by_cases hc : c = '.'
  · subst hc
    cases l with
    | number text =>
      rcases rest with _ | ⟨d, rest⟩
      · rfl
      · exact h
    | _ => rfl
  · have hstart : isWordChar c = false ∧ c ≠ '=' := by
      simpa [startsApart, hc] using h
    have hdigit : c.isDigit = false :=
      Bool.eq_false_iff.mpr fun hdigit => by simp [isWordChar_of_isDigit hdigit] at hstart
    cases l <;> simp [Lexeme.endsBefore, hc, hstart, hdigit]

theorem startsApart_head {rest : List Char} (h : startsApart rest = true) :
    rest.head? ≠ some '=' := by
  rcases rest with _ | ⟨c, rest⟩
  · simp
  · rintro ⟨⟩
    exact nomatch h

theorem head_append_ne {text text' : List Char} (h : text.head? ≠ some '=')
    (h' : text'.head? ≠ some '=') : (text ++ text').head? ≠ some '=' := by
  rcases text with _ | ⟨c, text⟩
  · exact h'
  · exact h

/-- An operator or a mark is over where no equals sign follows. -/
theorem endsBefore_of_symbol? {l : Lexeme} {text rest : List Char} (hl : l.symbol? = some text)
    (hrest : rest.head? ≠ some '=') : l.endsBefore rest = true := by
  rcases rest with _ | ⟨c, rest⟩
  · cases l <;> rfl
  · have hc : c ≠ '=' := fun hc => hrest (congrArg some hc)
    cases l with
    | word name => exact nomatch hl
    | number text => exact nomatch hl
    | operator op => exact decide_eq_true hc
    | bang => exact decide_eq_true hc
    | _ => rfl

/-! ### Texts and lexemes -/

/-- A text **writes** a row of lexemes: it spells them before every text that starts apart.
An operator before it is over as well, since no text written for an expression begins with an
equals sign. -/
structure Writes (text : String) (ls : List Lexeme) : Prop where
  spells : ∀ {rest ls'}, startsApart rest = true → Spells rest ls' →
    Spells (text.toList ++ rest) (ls ++ ls')
  head : text.toList.head? ≠ some '='

/-- What is written with nothing behind it is spelled. -/
theorem Writes.spells_toList {text : String} {ls : List Lexeme} (h : Writes text ls) :
    Spells text.toList ls := by
  simpa using h.spells rfl .nil

theorem writes_empty : Writes "" [] :=
  ⟨fun _ h => h, by simp⟩

/-- A lexeme that is spelled without an equals sign is written. -/
theorem Lexeme.Spelled.writes {l : Lexeme} {text : String} (h : l.Spelled text.toList)
    (hhead : text.toList.head? ≠ some '=') : Writes text [l] :=
  ⟨fun hapart hrest => .cons h (l.endsBefore_of_startsApart hapart) hrest, hhead⟩

theorem writes_word {name : String} (h : isName name.toList = true) :
    Writes name [.word name] := by
  have hspelled := Lexeme.Spelled.word h
  rw [String.ofList_toList] at hspelled
  refine hspelled.writes fun hhead => ?_
  rcases hcs : name.toList with _ | ⟨c, cs⟩
  · rw [hcs] at h
    exact nomatch h
  · rw [hcs] at h hhead
    obtain rfl := Option.some.inj hhead
    exact nomatch h

theorem writes_number {text : String} (h : Numeral text.toList) :
    Writes text [.number text] := by
  have hspelled := Lexeme.Spelled.number h
  rw [String.ofList_toList] at hspelled
  refine hspelled.writes fun hhead => ?_
  rcases hcs : text.toList with _ | ⟨c, cs⟩
  · rw [hcs] at hhead
    exact nomatch hhead
  · rw [hcs] at h hhead
    obtain rfl := Option.some.inj hhead
    exact nomatch h.isDigit

/-- What stands between the quotes of a string is read back to its value. -/
theorem quoted_escape (value : List Char) : Quoted '"' value (value.flatMap escape) := by
  induction value with
  | nil => exact .nil
  | cons c value ih =>
    rw [List.flatMap_cons, escape.eq_def]
    split
    · exact .escaped (.itself (by decide) (by decide) (by decide)) ih
    · exact .escaped (.itself (by decide) (by decide) (by decide)) ih
    · exact .escaped .lineFeed ih
    · exact .escaped .tab ih
    · rename_i hquote hback _ _
      exact .plain hquote hback ih

theorem writes_quote (value : String) : Writes (quote value) [.quoted value] := by
  have hspelled := Lexeme.Spelled.quoted (.inl rfl) (quoted_escape value.toList)
  rw [String.ofList_toList] at hspelled
  have htext : (quote value).toList = '"' :: (value.toList.flatMap escape ++ ['"']) := by
    simp [quote]
  rw [← htext] at hspelled
  refine hspelled.writes ?_
  rw [htext]
  simp

/-! ### Putting texts together -/

/-- Two texts are written one behind the other if the second starts apart. -/
theorem Writes.append {text text' : String} {ls ls' : List Lexeme} (h : Writes text ls)
    (h' : Writes text' ls')
    (hapart : ∀ rest, startsApart rest = true → startsApart (text'.toList ++ rest) = true) :
    Writes (text ++ text') (ls ++ ls') where
  spells hrest hspells := by
    rw [String.toList_append, List.append_assoc, List.append_assoc]
    exact h.spells (hapart _ hrest) (h'.spells hrest hspells)
  head := by
    rw [String.toList_append]
    exact head_append_ne h.head h'.head

/-- A mark is written before any text that begins with no equals sign. -/
theorem Writes.cons {text mark : String} {l : Lexeme} {ls : List Lexeme} (h : Writes text ls)
    (hl : l.symbol? = some mark.toList) (hmark : mark.toList.head? ≠ some '=') :
    Writes (mark ++ text) (l :: ls) where
  spells {rest ls'} hrest hspells := by
    have hends := endsBefore_of_symbol? hl (head_append_ne h.head (startsApart_head hrest))
    rw [String.toList_append, List.append_assoc]
    exact .cons (.symbol hl) hends (h.spells hrest hspells)
  head := by
    rw [String.toList_append]
    exact head_append_ne hmark h.head

/-- A word that is written before another text has a blank behind it. -/
theorem Writes.word_cons {text name : String} {ls : List Lexeme} (h : Writes text ls)
    (hname : isName name.toList = true) : Writes (name ++ " " ++ text) (.word name :: ls) := by
  have hblank : Writes (" " ++ text) ls := by
    refine ⟨fun hrest hspells => ?_, by simp⟩
    rw [String.toList_append]
    exact (h.spells hrest hspells).space
  rw [String.append_assoc]
  refine (writes_word hname).append hblank fun rest _ => ?_
  rw [String.toList_append]
  rfl

section Brackets

variable {text text' before after : String} {l r : Lexeme} {ls ls' : List Lexeme}
  (hl : l.symbol? = some before.toList) (hr : r.symbol? = some after.toList)
  (hbefore : ∀ rest, startsApart (before.toList ++ rest) = true)
  (hafter : ∀ rest, startsApart (after.toList ++ rest) = true)

include hl hr hbefore hafter

/-- A text may be put between two brackets, or other marks that start apart. -/
theorem Writes.between (h : Writes text ls) :
    Writes (before ++ text ++ after) (l :: (ls ++ [r])) := by
  have hbefore' := startsApart_head (hbefore [])
  have hafter' := startsApart_head (hafter [])
  rw [List.append_nil] at hbefore' hafter'
  have hmark : Writes after [r] := (Lexeme.Spelled.symbol hr).writes hafter'
  rw [String.append_assoc]
  exact (h.append hmark fun rest _ => hafter rest).cons hl hbefore'

/-- A text between brackets may be put behind another. -/
theorem Writes.append_between (h : Writes text ls) (h' : Writes text' ls') :
    Writes (text ++ before ++ text' ++ after) (ls ++ l :: (ls' ++ [r])) := by
  have hwrites := h.append (h'.between hl hr hbefore hafter) fun rest _ => by
    rw [String.append_assoc, String.toList_append, List.append_assoc]
    exact hbefore _
  rwa [← String.append_assoc, ← String.append_assoc] at hwrites

end Brackets

/-- Two texts may have a separator between them that starts apart and reads as one lexeme. -/
theorem Writes.separate {text text' separator : String} {l : Lexeme} {ls ls' : List Lexeme}
    (h : Writes text ls) (h' : Writes text' ls')
    (hspells : ∀ {rest ls}, Spells rest ls → Spells (separator.toList ++ rest) (l :: ls))
    (hapart : ∀ rest, startsApart (separator.toList ++ rest) = true) :
    Writes (text ++ separator ++ text') (ls ++ l :: ls') := by
  have hright : Writes (separator ++ text') (l :: ls') :=
    { spells hrest hspells' := by
        rw [String.toList_append, List.append_assoc]
        exact hspells (h'.spells hrest hspells')
      head := by
        have hhead := startsApart_head (hapart text'.toList)
        rwa [← String.toList_append] at hhead }
  rw [String.append_assoc]
  refine h.append hright fun rest _ => ?_
  rw [String.toList_append, List.append_assoc]
  exact hapart _

/-- A mark with a blank behind it is a separator. -/
theorem Spells.mark_blank {l : Lexeme} {text rest : List Char} {ls : List Lexeme}
    (h : Spells rest ls) (hl : l.symbol? = some text) : Spells (text ++ ' ' :: rest) (l :: ls) :=
  .cons (.symbol hl) (endsBefore_of_symbol? hl (by simp)) h.space

theorem Spells.char_blank {l : Lexeme} {c : Char} {rest : List Char} {ls : List Lexeme}
    (hl : l.symbol? = some [c]) (h : Spells rest ls) : Spells (c :: ' ' :: rest) (l :: ls) :=
  h.mark_blank hl

/-- A bracket that closes may be written before any text. -/
theorem spells_closeBrace {rest : List Char} {ls : List Lexeme} (h : Spells rest ls) :
    Spells ('\x7d' :: rest) (.closeBrace :: ls) :=
  @Spells.cons .closeBrace ['\x7d'] rest ls (.symbol rfl) rfl h

/-- A member is written behind a point, which no number before it takes up: a name does not
begin with a digit. -/
theorem writes_dot {name : String} (h : isName name.toList = true) :
    Writes ("." ++ name) [.dot, .word name] ∧
      ∀ rest, startsApart (("." ++ name).toList ++ rest) = true := by
  refine ⟨(writes_word h).cons (l := .dot) rfl (by simp), fun rest => ?_⟩
  rw [String.toList_append]
  rcases hname : name.toList with _ | ⟨c, cs⟩
  · rw [hname] at h
    exact nomatch h
  · rw [hname, isName_cons, Bool.and_eq_true] at h
    change (!c.isDigit) = true
    rw [isDigit_eq_false_of_isWordStart h.1]
    rfl

/-! ### Texts and phrases -/

/-- A text is **written for** a value of a category: the lexemes it writes can be chosen to be
a phrase that stands for the value. -/
def WrittenFor (c : Category) (text : String) (v : c.Value) : Prop :=
  ∃ ls, Writes text ls ∧ Derives c ls v

theorem WrittenFor.imp {c c' : Category} {text : String} {v : c.Value} {v' : c'.Value}
    (h : WrittenFor c text v) (himp : ∀ {ls}, Derives c ls v → Derives c' ls v') :
    WrittenFor c' text v' := by
  obtain ⟨ls, hwrites, hderives⟩ := h
  exact ⟨ls, hwrites, himp hderives⟩

namespace WrittenFor

/-! ### Literals, names and brackets -/

theorem identifier {name : String} (h : isName name.toList = true) (hname : name ∉ reserved) :
    WrittenFor .settled name (.identifier name) :=
  ⟨_, writes_word h, .primary (.identifier hname)⟩

theorem string (value : String) : WrittenFor .settled (quote value) (.string value) :=
  ⟨_, writes_quote value, .primary (.string value)⟩

theorem number {text : String} (h : Numeral text.toList) :
    WrittenFor .settled text (.number text) :=
  ⟨_, writes_number h, .primary (.number text)⟩

theorem bool (value : Bool) :
    WrittenFor .settled (if value then "true" else "false") (.bool value) := by
  cases value
  · exact ⟨_, writes_word rfl, .primary .falseWord⟩
  · exact ⟨_, writes_word rfl, .primary .trueWord⟩

theorem null : WrittenFor .settled "null" .null :=
  ⟨_, writes_word rfl, .primary .nullWord⟩

theorem parens {text : String} {e : Expr} (h : WrittenFor .sequence text e) :
    WrittenFor .settled ("(" ++ text ++ ")") e := by
  obtain ⟨ls, hwrites, hderives⟩ := h
  exact ⟨_, hwrites.between (l := .openParen) (r := .closeParen) rfl rfl (fun _ => rfl)
    fun _ => rfl, .primary (.parens hderives)⟩

theorem array {text : String} {es : List Expr} (h : WrittenFor (.list .conditional) text es) :
    WrittenFor .settled ("[" ++ text ++ "]") (.array es) := by
  obtain ⟨ls, hwrites, hderives⟩ := h
  exact ⟨_, hwrites.between (l := .openBracket) (r := .closeBracket) rfl rfl (fun _ => rfl)
    fun _ => rfl, .primary (.array hderives)⟩

theorem object {text : String} {ps : List Property} (h : WrittenFor (.list .property) text ps) :
    WrittenFor .settled ("\x7b " ++ text ++ " \x7d") (.object ps) := by
  obtain ⟨ls, hwrites, hderives⟩ := h
  -- the blanks inside the braces are part of the text, so the braces are no marks around it
  refine ⟨.openBrace :: (ls ++ [.closeBrace]), ⟨fun {rest ls'} _ hspells => ?_, by simp⟩,
    .primary (.object hderives)⟩
  have hclose : Spells (' ' :: '\x7d' :: rest) (.closeBrace :: ls') :=
    (spells_closeBrace hspells).space
  have hopen := (hwrites.spells rfl hclose).mark_blank (l := .openBrace) rfl
  simpa using hopen

theorem emptyObject : WrittenFor .settled "\x7b\x7d" (.object []) := by
  refine ⟨[.openBrace, .closeBrace], ⟨fun _ hspells => ?_, by simp⟩, .primary ?_⟩
  · exact @Spells.cons .openBrace ['\x7b'] _ _ (.symbol rfl) rfl (spells_closeBrace hspells)
  · exact .object (.empty .property)

/-! ### Accesses and constructions -/

variable {text : String} {e : Expr}

theorem member (h : WrittenFor .settled text e) {name : String}
    (hname : isName name.toList = true) :
    WrittenFor .settled (text ++ "." ++ name) (.member e name) := by
  obtain ⟨ls, hwrites, hderives⟩ := h
  obtain ⟨hdot, hapart⟩ := writes_dot hname
  rw [String.append_assoc]
  exact ⟨_, hwrites.append hdot fun rest _ => hapart rest, hderives.member name⟩

theorem index (h : WrittenFor .settled text e) {text' : String} {i : Expr}
    (hi : WrittenFor .sequence text' i) :
    WrittenFor .settled (text ++ "[" ++ text' ++ "]") (.index e i) := by
  obtain ⟨ls, hwrites, hderives⟩ := h
  obtain ⟨ls', hwrites', hderives'⟩ := hi
  exact ⟨_, hwrites.append_between (l := .openBracket) (r := .closeBracket) rfl rfl
    (fun _ => rfl) (fun _ => rfl) hwrites', hderives.settled.index hderives'⟩

theorem call (h : WrittenFor .settled text e) {text' : String} {args : List Expr}
    (hargs : WrittenFor (.list .conditional) text' args) :
    WrittenFor .settled (text ++ "(" ++ text' ++ ")") (.call e args) := by
  obtain ⟨ls, hwrites, hderives⟩ := h
  obtain ⟨ls', hwrites', hderives'⟩ := hargs
  exact ⟨_, hwrites.append_between (l := .openParen) (r := .closeParen) rfl rfl
    (fun _ => rfl) (fun _ => rfl) hwrites', hderives.call hderives'⟩

/-- A construction is always written with its arguments in parentheses, so it is settled. -/
theorem construction {ls : List Lexeme} (hwrites : Writes text ls) (hcallee : Callee ls e)
    {text' : String} {args : List Expr} (hargs : WrittenFor (.list .conditional) text' args) :
    WrittenFor .settled ("new " ++ text ++ "(" ++ text' ++ ")") (.construction e args) := by
  obtain ⟨ls', hwrites', hderives'⟩ := hargs
  have hcall : Writes (text ++ "(" ++ text' ++ ")") (ls ++ .openParen :: (ls' ++ [.closeParen])) :=
    hwrites.append_between rfl rfl (fun _ => rfl) (fun _ => rfl) hwrites'
  have hnew : Writes ("new" ++ " " ++ (text ++ "(" ++ text' ++ ")")) _ := hcall.word_cons rfl
  simp only [← String.append_assoc] at hnew
  exact ⟨_, hnew, .primary (.constructionWith hcallee hderives')⟩

/-! ### Operators -/

theorem unary (h : WrittenFor .settled text e) (op : UnaryOp) :
    WrittenFor .operand (op.text ++ text) (.unary op e) := by
  obtain ⟨ls, hwrites, hderives⟩ := h
  refine ⟨op.lexeme :: ls, ?_, hderives.operand_of_settled.unary op⟩
  cases op with
  | not => exact hwrites.cons (l := .bang) rfl (by simp [UnaryOp.text])
  | minus => exact hwrites.cons (l := .operator .sub) rfl (by simp [UnaryOp.text])
  | plus => exact hwrites.cons (l := .operator .add) rfl (by simp [UnaryOp.text])
  -- the blank behind the word is a part of how the operator is written
  | typeOf => exact @Writes.word_cons text "typeof" ls hwrites rfl

theorem binary (h : WrittenFor .settled text e) {text' : String} {e' : Expr}
    (h' : WrittenFor .settled text' e') (op : BinaryOp) :
    WrittenFor .conditional (text ++ " " ++ op.text ++ " " ++ text') (.binary op e e') := by
  obtain ⟨ls, hwrites, hderives⟩ := h
  obtain ⟨ls', hwrites', hderives'⟩ := h'
  have hwritten :
      Writes (text ++ (" " ++ op.text ++ " ") ++ text') (ls ++ .operator op :: ls') := by
    refine hwrites.separate hwrites' (fun {rest ls} hspells => ?_) fun rest => ?_
    · have hmark := hspells.mark_blank (l := .operator op) rfl
      have hblank : Spells (' ' :: (op.text.toList ++ ' ' :: rest)) _ := hmark.space
      simpa using hblank
    · rw [String.toList_append, String.toList_append, List.append_assoc, List.append_assoc]
      rfl
  refine ⟨ls ++ .operator op :: ls', ?_, ?_⟩
  · simpa only [String.append_assoc] using hwritten
  · exact hderives.binary_of_settled hderives' op

theorem conditional (h : WrittenFor .settled text e) {text₁ text₂ : String} {e₁ e₂ : Expr}
    (h₁ : WrittenFor .settled text₁ e₁) (h₂ : WrittenFor .settled text₂ e₂) :
    WrittenFor .conditional (text ++ " ? " ++ text₁ ++ " : " ++ text₂)
      (.conditional e e₁ e₂) := by
  obtain ⟨ls, hwrites, hderives⟩ := h
  obtain ⟨ls₁, hwrites₁, hderives₁⟩ := h₁
  obtain ⟨ls₂, hwrites₂, hderives₂⟩ := h₂
  have hcolon : Writes (text₁ ++ " : " ++ text₂) (ls₁ ++ .colon :: ls₂) :=
    hwrites₁.separate hwrites₂ (fun h => (Spells.char_blank rfl h).space)
      fun _ => rfl
  have hquestion : Writes (text ++ " ? " ++ (text₁ ++ " : " ++ text₂))
      (ls ++ .question :: (ls₁ ++ .colon :: ls₂)) :=
    hwrites.separate hcolon (fun h => (Spells.char_blank rfl h).space)
      fun _ => rfl
  refine ⟨_, by simpa only [String.append_assoc] using hquestion, ?_⟩
  exact .conditional (hderives.operand_of_settled.chain_of_operand 6)
    hderives₁.conditional_of_settled hderives₂.conditional_of_settled

/-! ### Lists and properties -/

section Lists

variable {item : Category}

theorem empty : WrittenFor (.list item) "" [] :=
  ⟨[], writes_empty, .empty item⟩

theorem singleton {v : item.Value} (h : WrittenFor item text v) :
    WrittenFor (.list item) text [v] :=
  h.imp Derives.singleton

/-- Lists are written one behind the other with a comma between them. -/
theorem append {text' : String} {vs vs' : List item.Value} (h : WrittenFor (.list item) text vs)
    (h' : WrittenFor (.list item) text' vs') (hne : vs ≠ []) (hne' : vs' ≠ []) :
    WrittenFor (.list item) (text ++ ", " ++ text') (vs ++ vs') := by
  obtain ⟨ls, hwrites, hderives⟩ := h
  obtain ⟨ls', hwrites', hderives'⟩ := h'
  exact ⟨_, hwrites.separate hwrites' (fun h => Spells.char_blank rfl h)
    fun _ => rfl, hderives.list_append hderives' hne hne'⟩

end Lists

theorem static {key : StaticKey} (hkey : Writes key.print [key.lexeme])
    (h : WrittenFor .conditional text e) :
    WrittenFor .property (key.print ++ ": " ++ text) (.static key e) := by
  obtain ⟨ls, hwrites, hderives⟩ := h
  exact ⟨_, hkey.separate hwrites (fun h => Spells.char_blank rfl h)
    fun _ => rfl, hderives.static key⟩

theorem computed (h : WrittenFor .sequence text e) {text' : String} {e' : Expr}
    (h' : WrittenFor .conditional text' e') :
    WrittenFor .property ("[" ++ text ++ "]: " ++ text') (.computed e e') := by
  obtain ⟨ls, hwrites, hderives⟩ := h
  obtain ⟨ls', hwrites', hderives'⟩ := h'
  have hkey : Writes ("[" ++ text ++ "]") (.openBracket :: (ls ++ [.closeBracket])) :=
    hwrites.between rfl rfl (fun _ => rfl) fun _ => rfl
  have hproperty : Writes ("[" ++ text ++ "]" ++ ": " ++ text') _ :=
    hkey.separate hwrites' (fun h => Spells.char_blank (l := .colon) rfl h)
      fun _ => rfl
  have htext : "[" ++ text ++ "]: " ++ text' = "[" ++ text ++ "]" ++ ": " ++ text' := by
    rw [@String.append_assoc ("[" ++ text) "]" ": "]
    rfl
  refine ⟨_, htext ▸ hproperty, ?_⟩
  rw [List.cons_append, List.append_assoc]
  exact hderives.computed hderives'

end WrittenFor

end Expr

end Phrasebook
