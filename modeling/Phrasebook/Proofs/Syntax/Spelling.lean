import Mathlib.Data.List.TakeWhile
import Phrasebook.Expr.Lexeme

/-!
# How lexemes are spelled

A scanner only ever says what it cut off. Here it is said, without any scanning, what a
text has to look like to be cut up: which texts spell a lexeme
(`Phrasebook.Expr.Lexeme.Spelled`), and which texts spell a row of lexemes, with blanks
before, between and behind them (`Phrasebook.Expr.Spells`).

Between two lexemes no blank is needed, so a row could be taken apart in several ways: the
word `typeofx` begins with the word `typeof`, and `!==` begins with `!`. What decides is that
every lexeme is the **longest** that begins where it begins
(`Phrasebook.Expr.Longest`). That makes the row unique, and scanning finds it
(`Phrasebook.Expr.spells_iff_scan`). A text that spells no row is scanned as well, but to
stray lexemes, which no expression is written with.
-/

namespace Phrasebook

namespace Expr

/-! ### Names, numbers and strings -/

/-- The characters that are white space in Unicode. -/
def whiteSpace : List Char :=
  ['\t', '\n', '\u000b', '\u000c', '\r', ' ', '\u0085', '\u00a0', '\u1680', '\u2000', '\u2001',
   '\u2002', '\u2003', '\u2004', '\u2005', '\u2006', '\u2007', '\u2008', '\u2009', '\u200a',
   '\u2028', '\u2029', '\u202f', '\u205f', '\u3000']

/-- Whether a text is a name: ASCII letters, digits, `_` and `$`, with no digit to begin with. -/
def isName : List Char → Bool
  | [] => false
  | c :: cs => (c.isAlpha || c == '_' || c == '$') &&
    cs.all fun c => c.isAlphanum || c == '_' || c == '$'

/-- Whether a text is made of digits, and of one at least. -/
def isDigits (cs : List Char) : Bool :=
  !cs.isEmpty && cs.all Char.isDigit

/-- **How a number is written**: digits, and perhaps a point and more digits. -/
inductive Numeral : List Char → Prop
  | whole {digits : List Char} (h : isDigits digits = true) : Numeral digits
  | fraction {digits decimals : List Char} (h : isDigits digits = true)
      (hdecimals : isDigits decimals = true) : Numeral (digits ++ '.' :: decimals)

/-- What is written behind a backslash for a character: a letter for a line feed, a tab or a
carriage return, and any other character for itself. -/
inductive EscapedBy : Char → Char → Prop
  | lineFeed : EscapedBy '\n' 'n'
  | tab : EscapedBy '\t' 't'
  | carriageReturn : EscapedBy '\r' 'r'
  | itself {c : Char} (hn : c ≠ 'n') (ht : c ≠ 't') (hr : c ≠ 'r') : EscapedBy c c

/-- **How a value is written between quotes**: no character of the text is a quote or a
backslash, except that a backslash stands before a character it changes or protects. -/
inductive Quoted (quote : Char) : List Char → List Char → Prop
  | nil : Quoted quote [] []
  | plain {c : Char} {value text : List Char} (hquote : c ≠ quote) (hback : c ≠ '\\')
      (h : Quoted quote value text) : Quoted quote (c :: value) (c :: text)
  | escaped {c d : Char} {value text : List Char} (hc : EscapedBy c d)
      (h : Quoted quote value text) : Quoted quote (c :: value) ('\\' :: d :: text)

namespace Lexeme

/-- The text of an operator or a mark of punctuation. -/
def symbol? : Lexeme → Option (List Char)
  | operator op => some op.text.toList
  | bang => some ['!']
  | question => some ['?']
  | colon => some [':']
  | comma => some [',']
  | dot => some ['.']
  | openParen => some ['(']
  | closeParen => some [')']
  | openBracket => some ['[']
  | closeBracket => some [']']
  | openBrace => some ['\x7b']
  | closeBrace => some ['\x7d']
  | word _ | number _ | quoted _ | stray _ => none

/-- **The texts that spell a lexeme.** None spells a stray character. -/
inductive Spelled : Lexeme → List Char → Prop
  | word {text : List Char} (h : isName text = true) : Spelled (.word (String.ofList text)) text
  | number {text : List Char} (h : Numeral text) : Spelled (.number (String.ofList text)) text
  | quoted {quote : Char} {value text : List Char} (hquote : quote = '"' ∨ quote = '\x27')
      (h : Quoted quote value text) :
    Spelled (.quoted (String.ofList value)) (quote :: (text ++ [quote]))
  | symbol {l : Lexeme} {text : List Char} (h : l.symbol? = some text) : Spelled l text

/-- Whether a lexeme is a character that begins no other. -/
def isStray : Lexeme → Bool
  | stray _ => true
  | _ => false

/-- Whether a lexeme is surely over before a text: the text cannot go on with it. -/
def endsBefore : Lexeme → List Char → Bool
  | word _, c :: _ => !isWordChar c
  | number _, '.' :: c :: _ => !c.isDigit
  | number _, c :: _ => !c.isDigit
  | operator _, c :: _ => c ≠ '='
  | bang, c :: _ => c ≠ '='
  | _, _ => true

end Lexeme

/-! ### Kinds of characters -/

/-- The blanks are the white space. -/
theorem mem_whiteSpace_iff {c : Char} : c ∈ whiteSpace ↔ isBlank c = true := by
  have hblank : whiteSpace.all isBlank = true := by decide
  constructor
  · exact List.all_eq_true.mp hblank c
  · intro h
    simp only [isBlank, blankRanges, List.any_cons, List.any_nil, Bool.or_false, Bool.or_eq_true,
      Bool.and_eq_true, decide_eq_true_eq] at h
    have hcode : c.toNat ∈ whiteSpace.map Char.toNat := by
      simp only [whiteSpace, List.map_cons, List.map_nil, List.mem_cons, List.not_mem_nil,
        Char.reduceToNat]
      omega
    obtain ⟨d, hd, hcode⟩ := List.mem_map.mp hcode
    rwa [← Char.toNat_inj.mp hcode]

theorem isName_cons (c : Char) (cs : List Char) :
    isName (c :: cs) = (isWordStart c && cs.all isWordChar) := rfl

/-- A character behind a backslash is read as what it is written for. -/
theorem escapedBy_iff {c d : Char} : EscapedBy c d ↔ unescape d = c := by
  constructor
  · intro h
    cases h with
    | itself hn ht hr => exact unescape.eq_4 c hn ht hr
    | _ => rfl
  · rintro rfl
    rw [unescape.eq_def]
    split
    · exact .lineFeed
    · exact .tab
    · exact .carriageReturn
    · rename_i hn ht hr
      exact .itself hn ht hr

theorem isWordChar_of_isWordStart {c : Char} (h : isWordStart c = true) : isWordChar c = true := by
  simp only [isWordStart, isWordChar, Char.isAlphanum, Bool.or_eq_true] at h ⊢
  exact h.imp_left (Or.imp_left Or.inl)

theorem isWordChar_of_isDigit {c : Char} (h : c.isDigit = true) : isWordChar c = true := by
  simp [isWordChar, Char.isAlphanum, h]

theorem isAlpha_iff {c : Char} : c.isAlpha = true ↔
    ('A'.val ≤ c.val ∧ c.val ≤ 'Z'.val) ∨ ('a'.val ≤ c.val ∧ c.val ≤ 'z'.val) := by
  change (decide ('A'.val ≤ c.val ∧ c.val ≤ 'Z'.val) ||
    (decide ('a'.val ≤ c.val) && decide (c.val ≤ 'z'.val))) = true ↔ _
  simp only [Bool.or_eq_true, Bool.and_eq_true, decide_eq_true_eq]

theorem isDigit_eq_false_of_isWordStart {c : Char} (h : isWordStart c = true) :
    c.isDigit = false := by
  simp only [isWordStart, isAlpha_iff, Bool.or_eq_true, beq_iff_eq] at h
  rcases h with (h | rfl) | rfl
  · simp [Char.isDigit, UInt32.le_iff_toNat_le] at h ⊢
    omega
  · rfl
  · rfl

theorem isBlank_eq_false_of_isWordChar {c : Char} (h : isWordChar c = true) :
    isBlank c = false := by
  simp only [isWordChar, Char.isAlphanum, isAlpha_iff, Char.isDigit, Bool.or_eq_true,
    Bool.and_eq_true, decide_eq_true_eq, beq_iff_eq] at h
  rcases h with (h | rfl) | rfl
  · simp [isBlank, blankRanges, UInt32.le_iff_toNat_le] at h ⊢
    omega
  · decide
  · decide

/-! ### Words and numbers -/

theorem takeWhile_append_of_all {p : Char → Bool} {text : List Char} (h : text.all p = true)
    (rest : List Char) : (text ++ rest).takeWhile p = text ++ rest.takeWhile p :=
  List.takeWhile_append_of_pos fun c hc => List.all_eq_true.mp h c hc

theorem isDigits_cons {c : Char} {cs : List Char} :
    isDigits (c :: cs) = true ↔ c.isDigit = true ∧ cs.all Char.isDigit = true := by
  rw [isDigits, List.all_cons, List.isEmpty_cons, Bool.not_false, Bool.true_and, Bool.and_eq_true]

/-- A number begins with a digit. -/
theorem Numeral.isDigit {c : Char} {cs : List Char} (h : Numeral (c :: cs)) : c.isDigit = true := by
  generalize hcs : c :: cs = text at h
  cases h with
  | whole h =>
    rw [← hcs] at h
    exact (isDigits_cons.mp h).1
  | @fraction digits decimals h hdecimals =>
    rcases digits with _ | ⟨d, digits⟩
    · exact nomatch h
    · rw [(List.cons.inj hcs).1]
      exact (isDigits_cons.mp h).1

/-- What is cut off as a fraction is nothing, or a point and digits. -/
theorem fraction_cases (cs : List Char) : fraction cs = [] ∨
    ∃ decimals, isDigits decimals = true ∧ fraction cs = '.' :: decimals := by
  rw [fraction.eq_def]
  split
  · rename_i cs
    split
    · exact Or.inl rfl
    · rename_i digits hne
      refine Or.inr ⟨_, ?_, rfl⟩
      rw [isDigits, List.all_takeWhile, Bool.and_true, Bool.not_eq_true', List.isEmpty_eq_false_iff]
      exact fun h => hne h
  · exact Or.inl rfl

theorem fraction_point {decimals : List Char} (h : isDigits decimals = true) (rest : List Char) :
    fraction ('.' :: (decimals ++ rest)) = '.' :: (decimals ++ rest.takeWhile Char.isDigit) := by
  rcases decimals with _ | ⟨c, decimals⟩
  · exact nomatch h
  · have hdecimals : (c :: decimals).all Char.isDigit = true :=
      List.all_cons.trans (Bool.and_eq_true_iff.mpr (isDigits_cons.mp h))
    rw [fraction, takeWhile_append_of_all hdecimals]
    rfl

/-- A fraction is a beginning of the text it is cut off. -/
theorem fraction_prefix (cs : List Char) : fraction cs <+: cs := by
  rw [fraction.eq_def]
  split
  · rename_i cs
    split
    · exact List.nil_prefix
    · exact List.cons_prefix_cons.mpr ⟨rfl, List.takeWhile_prefix Char.isDigit⟩
  · exact List.nil_prefix

/-- What a number takes of digits and a text that does not go on with them. -/
theorem numberAfter_append (c : Char) {digits rest : List Char}
    (h : digits.all Char.isDigit = true) (hrest : rest.takeWhile Char.isDigit = []) :
    numberAfter c (digits ++ rest) =
      (.number (String.ofList (c :: (digits ++ fraction rest))),
        (digits ++ fraction rest).length) := by
  rw [numberAfter, takeWhile_append_of_all h, hrest, List.append_nil, List.drop_left]

/-! ### Cutting off what is spelled -/

/-- A cut **takes in** a lexeme that is spelled with `length` characters behind its first:
it takes that many at least, and just these if the lexeme ends there. -/
structure TakesIn (l : Lexeme) (length : Nat) (rest : List Char) (cut : Lexeme × Nat) : Prop where
  notStray : cut.1.isStray = false
  le : length ≤ cut.2
  eq : l.endsBefore rest = true → cut = (l, length)

theorem TakesIn.of_eq {l : Lexeme} {length : Nat} {rest : List Char} {cut : Lexeme × Nat}
    (hl : l.isStray = false) (h : cut = (l, length)) : TakesIn l length rest cut := by
  rw [h]
  exact ⟨hl, Nat.le_refl _, fun _ => rfl⟩

theorem wordAfter_takesIn (c : Char) {text : List Char} (h : text.all isWordChar = true)
    (rest : List Char) :
    TakesIn (.word (String.ofList (c :: text))) text.length rest (wordAfter c (text ++ rest)) := by
  rw [wordAfter, takeWhile_append_of_all h]
  refine ⟨rfl, ?_, fun hends => ?_⟩
  · rw [List.length_append]
    exact Nat.le_add_right _ _
  · have hrest : rest.takeWhile isWordChar = [] := by
      rcases rest with _ | ⟨d, rest⟩
      · rfl
      · rw [Lexeme.endsBefore, Bool.not_eq_true'] at hends
        exact List.takeWhile_cons_of_neg (Bool.eq_false_iff.mp hends)
    rw [hrest, List.append_nil]

/-- A number is over where neither digits nor a fraction follow. -/
theorem takeWhile_isDigit_of_endsBefore {text : String} {rest : List Char}
    (h : (Lexeme.number text).endsBefore rest = true) :
    rest.takeWhile Char.isDigit = [] ∧ fraction rest = [] := by
  rcases rest with _ | ⟨c, rest⟩
  · exact ⟨rfl, rfl⟩
  · by_cases hc : c = '.'
    · subst hc
      refine ⟨rfl, ?_⟩
      rcases rest with _ | ⟨d, rest⟩
      · rfl
      · rw [Lexeme.endsBefore, Bool.not_eq_true'] at h
        rw [fraction, List.takeWhile_cons_of_neg (Bool.eq_false_iff.mp h)]
    · have hdigit : c.isDigit = false := by
        simpa [Lexeme.endsBefore, hc] using h
      refine ⟨List.takeWhile_cons_of_neg (Bool.eq_false_iff.mp hdigit), ?_⟩
      exact fraction.eq_2 _ fun cs h => hc (List.cons.inj h).1

theorem numberAfter_takesIn {c : Char} {text : List Char} (h : Numeral (c :: text))
    (rest : List Char) :
    TakesIn (.number (String.ofList (c :: text))) text.length rest
      (numberAfter c (text ++ rest)) := by
  generalize hcs : c :: text = cs at h
  cases h with
  | whole h =>
    subst hcs
    obtain ⟨-, htext⟩ := isDigits_cons.mp h
    -- the digits at the beginning of the rest belong to the number as well
    have hall : (text ++ rest.takeWhile Char.isDigit).all Char.isDigit = true := by
      rw [List.all_append, htext, List.all_takeWhile, Bool.and_self]
    have hstop : (rest.dropWhile Char.isDigit).takeWhile Char.isDigit = [] := by
      rw [List.takeWhile_eq_nil_iff]
      exact fun hl => List.dropWhile_get_zero_not _ _ hl
    have hcut := numberAfter_append c hall hstop
    rw [List.append_assoc, List.takeWhile_append_dropWhile] at hcut
    rw [hcut]
    refine ⟨rfl, by simp only [List.length_append]; omega, fun hends => ?_⟩
    obtain ⟨hdigits, hfraction⟩ := takeWhile_isDigit_of_endsBefore hends
    have hdrop : rest.dropWhile Char.isDigit = rest := by
      have hsplit := List.takeWhile_append_dropWhile (p := Char.isDigit) (l := rest)
      rwa [hdigits, List.nil_append] at hsplit
    rw [hdigits, hdrop, hfraction, List.append_nil, List.append_nil]
  | @fraction digits decimals h hdecimals =>
    rcases digits with _ | ⟨d, digits⟩
    · exact nomatch h
    rw [List.cons_append] at hcs ⊢
    obtain ⟨rfl, rfl⟩ := List.cons.inj hcs
    obtain ⟨-, hdigits⟩ := isDigits_cons.mp h
    have hcut := @numberAfter_append c _ ('.' :: (decimals ++ rest)) hdigits rfl
    rw [fraction_point hdecimals] at hcut
    rw [List.append_assoc, List.cons_append, hcut]
    refine ⟨rfl, by simp only [List.length_append, List.length_cons]; omega, fun hends => ?_⟩
    rw [(takeWhile_isDigit_of_endsBefore hends).1, List.append_nil]

/-- The quote that closes a string is found where its value ends. -/
theorem quotedUpTo_append {quote : Char} (hquote : quote ≠ '\\') {value text : List Char}
    (h : Quoted quote value text) (rest : List Char) :
    quotedUpTo quote (text ++ quote :: rest) = some (value, text.length + 1) := by
  induction h with
  | nil =>
    rw [List.nil_append, quotedUpTo.eq_3 _ _ _ fun _ _ h => absurd h hquote, if_pos rfl]
    rfl
  | plain hc hback _ ih =>
    rw [List.cons_append, quotedUpTo.eq_3 _ _ _ fun _ _ h => absurd h hback, if_neg hc, ih]
    rfl
  | escaped hc _ ih =>
    rw [List.cons_append, List.cons_append, quotedUpTo, ih, ← escapedBy_iff.mp hc]
    rfl

theorem quotedAfter_takesIn {quote : Char} (hquote : quote ≠ '\\') {value text : List Char}
    (h : Quoted quote value text) (rest : List Char) :
    TakesIn (.quoted (String.ofList value)) (text ++ [quote]).length rest
      (quotedAfter quote (text ++ [quote] ++ rest)) := by
  have hcut : quotedAfter quote (text ++ [quote] ++ rest) =
      (.quoted (String.ofList value), (text ++ [quote]).length) := by
    rw [quotedAfter, List.append_assoc, List.singleton_append, quotedUpTo_append hquote h rest,
      List.length_append]
    rfl
  exact .of_eq rfl hcut

/-- An operator or a mark takes its own text; some go on with an equals sign. -/
theorem symbolAfter_takesIn {l : Lexeme} {c : Char} {text : List Char}
    (h : l.symbol? = some (c :: text)) (rest : List Char) :
    TakesIn l text.length rest (symbolAfter c (text ++ rest)) := by
  cases l with
  | operator op =>
    cases op <;> simp [Lexeme.symbol?, BinaryOp.text] at h <;> obtain ⟨rfl, rfl⟩ := h
    case or | and | strictEq | strictNotEq | le | ge | add | sub | mul | div | rem =>
      exact .of_eq rfl rfl
    -- these go on with an equals sign, and then the cut is that of a longer operator
    case lt | gt | eq | notEq =>
      rcases rest with _ | ⟨d, rest⟩
      · exact .of_eq rfl rfl
      · by_cases hd : d = '='
        · subst hd
          exact ⟨rfl, Nat.le_succ _, fun hends => nomatch hends⟩
        · exact .of_eq rfl (by simp [symbolAfter, hd])
  | bang =>
    obtain ⟨rfl, rfl⟩ := List.cons.inj (Option.some.inj h)
    rcases rest with _ | ⟨d, rest⟩
    · exact .of_eq rfl rfl
    · by_cases hd : d = '='
      · subst hd
        refine ⟨?_, Nat.zero_le _, fun hends => nomatch hends⟩
        rw [List.nil_append, symbolAfter.eq_def]
        split <;> first | rfl | simp_all
      · exact .of_eq rfl (by simp [symbolAfter, hd])
  | word name => exact nomatch h
  | number text => exact nomatch h
  | quoted value => exact nomatch h
  | stray c => exact nomatch h
  | _ =>
    obtain ⟨rfl, rfl⟩ := List.cons.inj (Option.some.inj h)
    exact .of_eq rfl rfl

/-- The first character of an operator or a mark begins neither a word, a number nor a
string, and is no blank. -/
theorem symbol?_head {l : Lexeme} {c : Char} {text : List Char}
    (h : l.symbol? = some (c :: text)) :
    isWordStart c = false ∧ c.isDigit = false ∧ c ≠ '"' ∧ c ≠ '\x27' ∧ isBlank c = false := by
  cases l with
  | operator op =>
    cases op <;> simp [Lexeme.symbol?, BinaryOp.text] at h <;> obtain ⟨rfl, rfl⟩ := h <;> decide
  | word name => exact nomatch h
  | number text => exact nomatch h
  | quoted value => exact nomatch h
  | stray c => exact nomatch h
  | _ =>
    obtain ⟨rfl, rfl⟩ := List.cons.inj (Option.some.inj h)
    decide

/-- **What is cut off where a lexeme begins takes in that lexeme.** -/
theorem Lexeme.Spelled.takesIn {l : Lexeme} {c : Char} {text : List Char}
    (h : l.Spelled (c :: text)) (rest : List Char) :
    TakesIn l text.length rest (lexemeAfter c (text ++ rest)) ∧ isBlank c = false := by
  generalize hcs : c :: text = cs at h
  cases h with
  | word h =>
    subst hcs
    rw [isName_cons, Bool.and_eq_true] at h
    rw [lexemeAfter, if_pos h.1]
    exact ⟨wordAfter_takesIn c h.2 rest,
      isBlank_eq_false_of_isWordChar (isWordChar_of_isWordStart h.1)⟩
  | number h =>
    subst hcs
    have hc := h.isDigit
    rw [lexemeAfter, if_neg fun hstart => ?_, if_pos hc]
    · exact ⟨numberAfter_takesIn h rest,
        isBlank_eq_false_of_isWordChar (isWordChar_of_isDigit hc)⟩
    · rw [isDigit_eq_false_of_isWordStart hstart] at hc
      exact nomatch hc
  | @quoted quote value body hquote h =>
    obtain ⟨rfl, rfl⟩ := List.cons.inj hcs
    have hne : c ≠ '\\' := by rcases hquote with rfl | rfl <;> decide
    have hcut : lexemeAfter c (body ++ [c] ++ rest) = quotedAfter c (body ++ [c] ++ rest) := by
      rcases hquote with rfl | rfl <;> rfl
    rw [hcut]
    exact ⟨quotedAfter_takesIn hne h rest, by rcases hquote with rfl | rfl <;> decide⟩
  | symbol h =>
    rw [← hcs] at h
    obtain ⟨hstart, hdigit, hquote, hquote', hblank⟩ := symbol?_head h
    have hcut : lexemeAfter c (text ++ rest) = symbolAfter c (text ++ rest) := by
      simp [lexemeAfter, hstart, hdigit, hquote, hquote']
    rw [hcut]
    exact ⟨symbolAfter_takesIn h rest, hblank⟩

/-! ### What is cut off is spelled -/

/-- A cut at the character `c` **spells** its lexeme: it takes a beginning of the text behind
that character, and with it the lexeme is spelled. -/
def CutSpells (c : Char) (cs : List Char) (cut : Lexeme × Nat) : Prop :=
  ∃ text rest, cs = text ++ rest ∧ text.length = cut.2 ∧ cut.1.Spelled (c :: text)

theorem wordAfter_spells {c : Char} (hc : isWordStart c = true) (cs : List Char) :
    CutSpells c cs (wordAfter c cs) := by
  refine ⟨cs.takeWhile isWordChar, cs.dropWhile isWordChar,
    List.takeWhile_append_dropWhile.symm, rfl, .word ?_⟩
  rw [isName_cons, hc, List.all_takeWhile, Bool.and_self]

theorem drop_length_takeWhile (p : Char → Bool) (cs : List Char) :
    cs.drop (cs.takeWhile p).length = cs.dropWhile p := by
  calc cs.drop (cs.takeWhile p).length
      = (cs.takeWhile p ++ cs.dropWhile p).drop (cs.takeWhile p).length := by
        rw [List.takeWhile_append_dropWhile]
    _ = cs.dropWhile p := List.drop_left

theorem numberAfter_spells {c : Char} (hc : c.isDigit = true) (cs : List Char) :
    CutSpells c cs (numberAfter c cs) := by
  obtain ⟨rest, hrest⟩ := fraction_prefix (cs.dropWhile Char.isDigit)
  have hdigits : isDigits (c :: cs.takeWhile Char.isDigit) = true :=
    isDigits_cons.mpr ⟨hc, List.all_takeWhile⟩
  have hnumeral : Numeral (c :: (cs.takeWhile Char.isDigit ++
      fraction (cs.dropWhile Char.isDigit))) := by
    rcases fraction_cases (cs.dropWhile Char.isDigit) with hnone | ⟨decimals, hdecimals, hsome⟩
    · rw [hnone, List.append_nil]
      exact .whole hdigits
    · rw [hsome]
      exact .fraction hdigits hdecimals
  rw [numberAfter, drop_length_takeWhile]
  refine ⟨_, rest, ?_, rfl, .number hnumeral⟩
  rw [List.append_assoc, hrest, List.takeWhile_append_dropWhile]

/-- What is found before the quote that closes a string is the way its value is written. -/
theorem quoted_of_quotedUpTo {quote : Char} {cs value : List Char} {n : Nat}
    (h : quotedUpTo quote cs = some (value, n)) :
    ∃ text rest, cs = text ++ quote :: rest ∧ n = text.length + 1 ∧ Quoted quote value text := by
  fun_induction quotedUpTo quote cs generalizing value n with
  | case1 => exact nomatch h
  | case2 c cs ih =>
    obtain ⟨⟨value', m⟩, hup, heq⟩ := Option.map_eq_some_iff.mp h
    obtain ⟨rfl, rfl⟩ := Prod.mk.inj heq
    obtain ⟨text, rest, rfl, rfl, hquoted⟩ := ih hup
    exact ⟨'\\' :: c :: text, rest, rfl, rfl, hquoted.escaped (escapedBy_iff.mpr rfl)⟩
  | case3 cs hback =>
    obtain ⟨rfl, rfl⟩ := Prod.mk.inj (Option.some.inj h)
    exact ⟨[], cs, rfl, rfl, .nil⟩
  | case4 c cs hback hquote ih =>
    obtain ⟨⟨value', m⟩, hup, heq⟩ := Option.map_eq_some_iff.mp h
    obtain ⟨rfl, rfl⟩ := Prod.mk.inj heq
    obtain ⟨text, rest, rfl, rfl, hquoted⟩ := ih hup
    refine ⟨c :: text, rest, rfl, rfl, hquoted.plain hquote fun hc => ?_⟩
    -- a backslash would protect the character behind it, and there is one
    obtain ⟨d, ds, hds⟩ := List.exists_cons_of_ne_nil (List.append_ne_nil_of_right_ne_nil text
      (List.cons_ne_nil quote rest))
    exact hback d ds hc hds

theorem quotedAfter_spells {quote : Char} (hquote : quote = '"' ∨ quote = '\x27')
    {cs : List Char} (h : (quotedAfter quote cs).1.isStray = false) :
    CutSpells quote cs (quotedAfter quote cs) := by
  rw [quotedAfter] at h ⊢
  split at h
  · rename_i value n hup
    obtain ⟨text, rest, rfl, rfl, hquoted⟩ := quoted_of_quotedUpTo hup
    exact ⟨text ++ [quote], rest, by simp, by simp, .quoted hquote hquoted⟩
  · exact nomatch h

theorem symbolAfter_spells {c : Char} {cs : List Char}
    (h : (symbolAfter c cs).1.isStray = false) : CutSpells c cs (symbolAfter c cs) := by
  rw [symbolAfter.eq_def] at h ⊢
  split at h
  case h_27 => exact nomatch h
  all_goals first
    | exact ⟨[], cs, rfl, rfl, .symbol rfl⟩
    | exact ⟨[_], _, rfl, rfl, .symbol rfl⟩
    | exact ⟨[_, _], _, rfl, rfl, .symbol rfl⟩

/-- **What is cut off is spelled**, unless it is a stray character. -/
theorem lexemeAfter_spells {c : Char} {cs : List Char}
    (h : (lexemeAfter c cs).1.isStray = false) : CutSpells c cs (lexemeAfter c cs) := by
  rw [lexemeAfter] at h ⊢
  split at h
  · rename_i hstart
    rw [if_pos hstart]
    exact wordAfter_spells hstart cs
  · rename_i hstart
    rw [if_neg hstart]
    split at h
    · rename_i hdigit
      rw [if_pos hdigit]
      exact numberAfter_spells hdigit cs
    · rename_i hdigit
      rw [if_neg hdigit]
      split at h
      · rename_i hquote
        rw [if_pos hquote]
        exact quotedAfter_spells (by simpa using hquote) h
      · rename_i hquote
        rw [if_neg hquote]
        exact symbolAfter_spells h

/-! ### Rows of lexemes -/

/-- A lexeme spelled `text` is **the longest** before `rest`: no lexeme is spelled with it
and some of what follows. -/
def Longest (text rest : List Char) : Prop :=
  ∀ (l : Lexeme) (more : List Char), more <+: rest → l.Spelled (text ++ more) → more = []

/-- **A text spells a row of lexemes**: there are blanks and lexemes in it and nothing else,
and each of the lexemes is the longest that begins there. -/
inductive Spells : List Char → List Lexeme → Prop
  | nil : Spells [] []
  | blank {c : Char} {cs : List Char} {ls : List Lexeme} (hc : c ∈ whiteSpace)
      (h : Spells cs ls) : Spells (c :: cs) ls
  | lexeme {l : Lexeme} {text rest : List Char} {ls : List Lexeme} (hl : l.Spelled text)
      (hlong : Longest text rest) (h : Spells rest ls) : Spells (text ++ rest) (l :: ls)

theorem Spells.space {cs : List Char} {ls : List Lexeme} (h : Spells cs ls) :
    Spells (' ' :: cs) ls :=
  .blank (by decide) h

/-- Every lexeme has a first character. -/
theorem Lexeme.Spelled.exists_cons {l : Lexeme} {text : List Char} (h : l.Spelled text) :
    ∃ c cs, text = c :: cs := by
  cases h with
  | word h =>
    rcases text with _ | ⟨c, cs⟩
    · exact nomatch h
    · exact ⟨c, cs, rfl⟩
  | number h =>
    cases h with
    | whole h =>
      rcases text with _ | ⟨c, cs⟩
      · exact nomatch h
      · exact ⟨c, cs, rfl⟩
    | @fraction digits decimals h hdecimals =>
      rcases digits with _ | ⟨c, cs⟩
      · exact nomatch h
      · exact ⟨c, _, rfl⟩
  | quoted hquote h => exact ⟨_, _, rfl⟩
  | symbol h =>
    cases l with
    | operator op => cases op <;> cases h <;> exact ⟨_, _, rfl⟩
    | word name => exact nomatch h
    | number text => exact nomatch h
    | quoted value => exact nomatch h
    | stray c => exact nomatch h
    | _ =>
      cases h
      exact ⟨_, _, rfl⟩

/-- No stray character is spelled. -/
theorem Lexeme.Spelled.not_isStray {l : Lexeme} {text : List Char} (h : l.Spelled text) :
    l.isStray = false := by
  cases h with
  | symbol h =>
    cases l with
    | stray c => exact nomatch h
    | _ => rfl
  | _ => rfl

/-- A text spells one lexeme at most. -/
theorem Lexeme.Spelled.unique {l l' : Lexeme} {text : List Char} (h : l.Spelled text)
    (h' : l'.Spelled text) : l = l' := by
  obtain ⟨c, cs, rfl⟩ := h.exists_cons
  have hnil : ∀ k : Lexeme, k.endsBefore [] = true := fun k => by cases k <;> rfl
  have hcut := (h.takesIn []).1.eq (hnil l)
  rw [(h'.takesIn []).1.eq (hnil l')] at hcut
  exact (Prod.mk.inj hcut).1.symm

/-- What is cut off where a lexeme begins is the lexeme, if that is the longest. -/
theorem Longest.lexemeAfter_eq {l : Lexeme} {c : Char} {text rest : List Char}
    (hlong : Longest (c :: text) rest) (h : l.Spelled (c :: text)) :
    lexemeAfter c (text ++ rest) = (l, text.length) := by
  have htakes := (h.takesIn rest).1
  obtain ⟨text', rest', hsplit, hlength, hspelled⟩ := lexemeAfter_spells htakes.notStray
  have hle : text.length ≤ text'.length := hlength ▸ htakes.le
  obtain ⟨more, rfl⟩ : text <+: text' := List.prefix_of_prefix_length_le
    (List.prefix_append text rest) (hsplit ▸ List.prefix_append text' rest') hle
  rw [List.append_assoc, List.append_cancel_left_eq] at hsplit
  -- what is cut off beyond the lexeme would make a longer one
  obtain rfl := hlong _ more ⟨rest', hsplit.symm⟩ hspelled
  rw [List.append_nil] at hlength hspelled
  exact Prod.ext (hspelled.unique h) hlength.symm

/-- No lexeme is longer than what is cut off where it begins. -/
theorem longest_of_lexemeAfter {c : Char} {text rest : List Char}
    (h : (lexemeAfter c (text ++ rest)).2 = text.length) : Longest (c :: text) rest := by
  rintro k more ⟨rest', rfl⟩ hk
  rw [List.cons_append] at hk
  have hle := (hk.takesIn rest').1.le
  rw [List.append_assoc, h, List.length_append] at hle
  exact List.eq_nil_of_length_eq_zero (by omega)

/-- A lexeme is the longest where it is surely over. -/
theorem Lexeme.Spelled.longest {l : Lexeme} {text rest : List Char} (h : l.Spelled text)
    (hends : l.endsBefore rest = true) : Longest text rest := by
  obtain ⟨c, cs, rfl⟩ := h.exists_cons
  refine longest_of_lexemeAfter ?_
  rw [(h.takesIn rest).1.eq hends]

/-- A lexeme goes before a text that does not go on with it. -/
theorem Spells.cons {l : Lexeme} {text rest : List Char} {ls : List Lexeme} (hl : l.Spelled text)
    (hends : l.endsBefore rest = true) (h : Spells rest ls) : Spells (text ++ rest) (l :: ls) :=
  .lexeme hl (hl.longest hends) h

/-! ### Scanning -/

theorem scanFrom_eq (skip : Nat) (cs : List Char) : scanFrom skip cs = scan (cs.drop skip) := by
  induction cs generalizing skip with
  | nil => rw [List.drop_nil]; rfl
  | cons c cs ih =>
    cases skip with
    | zero => rfl
    | succ skip => rw [scanFrom, ih, List.drop_succ_cons]

theorem scan_blank {c : Char} (hc : isBlank c = true) (cs : List Char) :
    scan (c :: cs) = scan cs := by
  rw [scan, scanFrom, if_pos hc]
  rfl

theorem scan_cons {c : Char} (hc : isBlank c = false) (cs : List Char) :
    scan (c :: cs) =
      ((lexemeAfter c cs).1, c :: cs) :: scan (cs.drop (lexemeAfter c cs).2) := by
  rw [scan, scanFrom, hc, ← scanFrom_eq]
  rfl

/-- A text that spells a row of lexemes is scanned to it. -/
theorem Spells.map_scan {cs : List Char} {ls : List Lexeme} (h : Spells cs ls) :
    (scan cs).map Prod.fst = ls := by
  induction h with
  | nil => rfl
  | blank hc _ ih => rw [scan_blank (mem_whiteSpace_iff.mp hc), ih]
  | @lexeme l text rest ls hl hlong _ ih =>
    obtain ⟨c, cs, rfl⟩ := hl.exists_cons
    rw [List.cons_append, scan_cons (hl.takesIn rest).2, hlong.lexemeAfter_eq hl, List.map_cons,
      List.drop_left, ih]

/-- A text that is scanned without stray lexemes spells what it is scanned to. -/
theorem spells_scan (cs : List Char) (h : ∀ l ∈ (scan cs).map Prod.fst, l.isStray = false) :
    Spells cs ((scan cs).map Prod.fst) := by
  -- each lexeme takes away some of the text
  induction hn : cs.length using Nat.strong_induction_on generalizing cs with
  | _ n ih =>
    rcases cs with _ | ⟨c, cs⟩
    · exact .nil
    rw [List.length_cons] at hn
    by_cases hc : isBlank c = true
    · rw [scan_blank hc] at h ⊢
      exact .blank (mem_whiteSpace_iff.mpr hc) (ih _ (by omega) cs h rfl)
    · rw [scan_cons (Bool.eq_false_iff.mpr hc), List.map_cons] at h ⊢
      obtain ⟨text, rest, rfl, hlength, hspelled⟩ := lexemeAfter_spells (h _ List.mem_cons_self)
      rw [← hlength, List.drop_left] at h ⊢
      rw [List.length_append] at hn
      have hrest := ih _ (by omega) rest (fun l hl => h l (List.mem_cons_of_mem _ hl)) rfl
      exact .lexeme hspelled (longest_of_lexemeAfter hlength.symm) hrest

/-- **Scanning finds the row a text spells**, and a text spells no other. -/
theorem spells_iff_scan {cs : List Char} {ls : List Lexeme} :
    Spells cs ls ↔ (scan cs).map Prod.fst = ls ∧ ∀ l ∈ ls, l.isStray = false := by
  constructor
  · intro h
    refine ⟨h.map_scan, ?_⟩
    induction h with
    | nil => exact fun l hl => nomatch hl
    | blank _ _ ih => exact ih
    | lexeme hl _ _ ih => exact List.forall_mem_cons.mpr ⟨hl.not_isStray, ih⟩
  · rintro ⟨rfl, h⟩
    exact spells_scan cs h

end Expr

end Phrasebook
