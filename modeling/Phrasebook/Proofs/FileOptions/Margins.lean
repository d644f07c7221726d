import Phrasebook.FileOptions.Docblock
import Phrasebook.Proofs.FileOptions.Notation

/-!
# Options in the margin of a comment

The object behind the tag may be broken into lines wherever blanks may stand, each line then
with a margin of blanks and an asterisk (`Phrasebook.FileOptions.Broken`). Margins are taken off
without a look at what is JSON and what is not, down to the end of the file, and lines end in one
of two ways. Still nothing of the object is lost: a token holds no control characters, so it
stands on one line, and it begins neither with a blank nor with an asterisk, so the margin before
it is over (`Phrasebook.FileOptions.Solid`). What is left of a broken gap is a gap of blanks
(`Phrasebook.FileOptions.Broken.comesTo`), and the tokens are laid out as before
(`Phrasebook.FileOptions.Laid.behindMargin_eq`).

Hence the options that are written in a docblock are the options of the file
(`Phrasebook.FileOptions.ofSource_writtenAs`), whatever stands before the tag and behind the
object.
-/

namespace Phrasebook

namespace FileOptions

/-! ### Lines without their margins -/

/-- A text with its lines uncommented. -/
def uncommented (text : List Char) : List Char :=
  joinLines ((splitLines text).map uncomment)

/-- A text that begins behind the margin of a line, with the lines that follow uncommented. -/
def behindMargin (text : List Char) : List Char :=
  match splitLines text with
  | [] => []
  | line :: lines => joinLines (line :: lines.map uncomment)

theorem joinLines_cons (c : Char) (line : List Char) (lines : List (List Char)) :
    joinLines ((c :: line) :: lines) = c :: joinLines (line :: lines) := by
  cases lines <;> rfl

/-- A character that is no line feed belongs to the first line, unless it is a carriage return
and ends a line together with a line feed. -/
theorem splitLines_cons_cases {c : Char} (text : List Char) (hline : c ≠ '\n') :
    (splitLines (c :: text) = match splitLines text with
      | [] => [[c]]
      | line :: lines => (c :: line) :: lines) ∨
      c = '\r' ∧ splitLines (c :: text) = splitLines text := by
  by_cases hreturn : ∃ rest, c = '\r' ∧ text = '\n' :: rest
  · obtain ⟨rest, rfl, rfl⟩ := hreturn
    exact Or.inr ⟨rfl, rfl⟩
  · exact Or.inl (splitLines.eq_4 c text hline fun rest hc ht => hreturn ⟨rest, hc, ht⟩)

theorem splitLines_ne_nil {text : List Char} (h : text ≠ []) : splitLines text ≠ [] := by
  rw [splitLines.eq_def]
  split
  · exact absurd rfl h
  · exact List.cons_ne_nil _ _
  · exact List.cons_ne_nil _ _
  · split <;> exact List.cons_ne_nil _ _

section Steps

variable {c : Char} {text : List Char}

/-- A character behind the margin stays, or it is part of the end of its line. -/
theorem behindMargin_cons_cases (text : List Char) (hline : c ≠ '\n') :
    behindMargin (c :: text) = c :: behindMargin text ∨
      c = '\r' ∧ behindMargin (c :: text) = behindMargin text := by
  rcases splitLines_cons_cases text hline with hsplit | ⟨hreturn, hsplit⟩
  · refine Or.inl ?_
    rw [behindMargin, behindMargin, hsplit]
    rcases splitLines text with _ | ⟨line, lines⟩
    · rfl
    · exact joinLines_cons c line _
  · exact Or.inr ⟨hreturn, by rw [behindMargin, behindMargin, hsplit]⟩

/-- Behind the end of a line begins a margin. -/
theorem behindMargin_newline (htext : text ≠ []) :
    behindMargin ('\n' :: text) = '\n' :: uncommented text := by
  rw [behindMargin, splitLines, uncommented]
  rcases h : splitLines text with _ | ⟨line, lines⟩
  · exact absurd h (splitLines_ne_nil htext)
  · rfl

/-- Behind a line that is all margin begins another. -/
theorem uncommented_newline (htext : text ≠ []) :
    uncommented ('\n' :: text) = '\n' :: uncommented text :=
  behindMargin_newline htext

/-- A blank in the margin is taken off. -/
theorem uncommented_blank (hblank : isBlank c = true) (hline : c ≠ '\n') :
    uncommented (c :: text) = uncommented text := by
  have htrim : ∀ line, uncomment (c :: line) = uncomment line := by
    intro line
    rw [uncomment, uncomment, trimBlank, List.dropWhile_cons_of_pos hblank, ← trimBlank]
  rw [uncommented, uncommented]
  rcases splitLines_cons_cases text hline with hsplit | ⟨-, hsplit⟩
  · rw [hsplit]
    rcases splitLines text with _ | ⟨line, lines⟩
    · exact congrArg (fun l => joinLines [l]) (htrim [])
    · exact congrArg (fun l => joinLines (l :: lines.map uncomment)) (htrim line)
  · rw [hsplit]

/-- The margin is over at an asterisk. -/
theorem uncommented_asterisk (text : List Char) : uncommented ('*' :: text) = behindMargin text := by
  obtain hsplit | ⟨hreturn, -⟩ := splitLines_cons_cases (c := '*') text (by decide)
  · rw [uncommented, behindMargin, hsplit]
    rcases splitLines text with _ | ⟨line, lines⟩ <;> rfl
  · exact absurd hreturn (by decide)

/-- The margin is over at what is neither a blank nor an asterisk. -/
theorem uncommented_solid (hblank : isBlank c = false) (hasterisk : c ≠ '*') :
    uncommented (c :: text) = behindMargin (c :: text) := by
  have hkeep : ∀ line, uncomment (c :: line) = c :: line := by
    intro line
    have htrim : trimBlank (c :: line) = c :: line :=
      List.dropWhile_cons_of_neg (Bool.eq_false_iff.mp hblank)
    rw [uncomment, htrim]
    split
    · exact absurd (List.cons.inj ‹_›).1 hasterisk
    · rfl
  have hline : c ≠ '\n' := fun h => by simp [h, isBlank, blankRanges] at hblank
  have hreturn : c ≠ '\r' := fun h => by simp [h, isBlank, blankRanges] at hblank
  obtain hsplit | ⟨h, -⟩ := splitLines_cons_cases text hline
  · rw [uncommented, behindMargin, hsplit]
    rcases splitLines text with _ | ⟨line, lines⟩
    · exact congrArg (fun l => joinLines [l]) (hkeep [])
    · exact congrArg (fun l => joinLines (l :: lines.map uncomment)) (hkeep line)
  · exact absurd h hreturn

/-- A text without control characters is left as it is behind the margin. -/
theorem behindMargin_append {token : List Char} (h : ∀ c ∈ token, 0x20 ≤ c.toNat)
    (text : List Char) : behindMargin (token ++ text) = token ++ behindMargin text := by
  induction token with
  | nil => rfl
  | cons c token ih =>
    obtain ⟨hc, h⟩ := List.forall_mem_cons.mp h
    have hline : c ≠ '\n' := by
      rintro rfl
      exact absurd hc (by decide)
    obtain hkeep | ⟨rfl, -⟩ := behindMargin_cons_cases (token ++ text) hline
    · rw [List.cons_append, hkeep, ih h, List.cons_append]
    · exact absurd hc (by decide)

end Steps

/-! ### Broken gaps -/

/-- **A gap broken into lines**: blanks and, as often as one likes, the end of a line and the
margin of the next. -/
inductive Broken (blank : Char → Bool) : List Char → Prop
  | nil : Broken blank []
  | cons {c : Char} {g : List Char} (hc : blank c = true) (h : Broken blank g) :
    Broken blank (c :: g)
  | line {margin g : List Char} (hmargin : Gap isBlank margin) (h : Broken blank g) :
    Broken blank ('\n' :: (margin ++ '*' :: g))

/-- A text comes down to `rest` once margins are taken off: at the beginning of a line and behind
a margin alike, blanks are left before it. -/
structure ComesTo (blank : Char → Bool) (text rest : List Char) : Prop where
  behind : ∃ g, Gap blank g ∧ behindMargin text = g ++ behindMargin rest
  margin : ∃ g, Gap blank g ∧ uncommented text = g ++ behindMargin rest

section Gaps

variable {blank : Char → Bool} {text rest : List Char}

theorem ComesTo.ofSolid {c : Char} (hc : isBlank c = false) (hasterisk : c ≠ '*') :
    ComesTo blank (c :: text) (c :: text) where
  behind := ⟨[], .nil, rfl⟩
  margin := ⟨[], .nil, uncommented_solid hc hasterisk⟩

/-- One more blank is left, or taken off. -/
theorem ComesTo.cons (h : ComesTo blank text rest) (htext : text ≠ []) {c : Char}
    (hc : blank c = true) (hblank : isBlank c = true) : ComesTo blank (c :: text) rest := by
  obtain ⟨⟨g, hg, hbehind⟩, g', hg', hmargin⟩ := h
  by_cases hline : c = '\n'
  · subst hline
    constructor
    · exact ⟨_, hg'.cons hc, by rw [behindMargin_newline htext, hmargin, List.cons_append]⟩
    · exact ⟨_, hg'.cons hc, by rw [uncommented_newline htext, hmargin, List.cons_append]⟩
  · constructor
    · rcases behindMargin_cons_cases text hline with hkeep | ⟨-, hdrop⟩
      · exact ⟨_, hg.cons hc, by rw [hkeep, hbehind, List.cons_append]⟩
      · exact ⟨g, hg, hdrop.trans hbehind⟩
    · exact ⟨g', hg', (uncommented_blank hblank hline).trans hmargin⟩

/-- Of a margin, nothing is left but the ends of lines. -/
theorem uncommented_margin (hline : blank '\n' = true) {margin : List Char}
    (hmargin : Gap isBlank margin) (htext : text ≠ []) :
    ∃ g, Gap blank g ∧ uncommented (margin ++ text) = g ++ uncommented text := by
  induction margin with
  | nil => exact ⟨[], .nil, rfl⟩
  | cons c margin ih =>
    obtain ⟨hc, hmargin⟩ := List.forall_mem_cons.mp hmargin
    obtain ⟨g, hg, hleft⟩ := ih hmargin
    by_cases hc' : c = '\n'
    · subst hc'
      refine ⟨'\n' :: g, hg.cons hline, ?_⟩
      rw [List.cons_append, uncommented_newline (List.append_ne_nil_of_right_ne_nil _ htext), hleft,
        List.cons_append]
    · exact ⟨g, hg, (uncommented_blank hc hc').trans hleft⟩

/-- One more line is left as the end of the one before it. -/
theorem ComesTo.line (h : ComesTo blank text rest) (hline : blank '\n' = true)
    {margin : List Char} (hmargin : Gap isBlank margin) :
    ComesTo blank ('\n' :: (margin ++ '*' :: text)) rest := by
  obtain ⟨g, hg, hbehind⟩ := h.behind
  have hne : margin ++ '*' :: text ≠ [] := List.append_ne_nil_of_right_ne_nil _ (List.cons_ne_nil _ _)
  obtain ⟨g', hg', hleft⟩ := uncommented_margin hline hmargin (List.cons_ne_nil '*' text)
  have hgap : Gap blank ('\n' :: (g' ++ g)) :=
    .cons hline (List.forall_mem_append.mpr ⟨hg', hg⟩)
  have hrest : uncommented (margin ++ '*' :: text) = (g' ++ g) ++ behindMargin rest := by
    rw [hleft, uncommented_asterisk, hbehind, List.append_assoc]
  constructor
  · exact ⟨_, hgap, by rw [behindMargin_newline hne, hrest, List.cons_append]⟩
  · exact ⟨_, hgap, by rw [uncommented_newline hne, hrest, List.cons_append]⟩

/-- **A broken gap comes down to blanks** before what ends it. -/
theorem Broken.comesTo (hblank : ∀ c, blank c = true → isBlank c = true)
    (hline : blank '\n' = true) {g : List Char} (h : Broken blank g) {c : Char}
    (hc : isBlank c = false) (hasterisk : c ≠ '*') (text : List Char) :
    ComesTo blank (g ++ c :: text) (c :: text) := by
  induction h with
  | nil => exact .ofSolid hc hasterisk
  | cons hd h ih =>
    exact ih.cons (List.append_ne_nil_of_right_ne_nil _ (List.cons_ne_nil _ _)) hd (hblank _ hd)
  | line hmargin h ih =>
    have hmore := ih.line hline hmargin
    simpa only [List.cons_append, List.append_assoc] using hmore

end Gaps

/-! ### The object -/

/-- What a token is made of, so that lines and margins do not concern it. -/
structure Solid (token : List Char) : Prop where
  head : ∃ c cs, token = c :: cs ∧ isBlank c = false ∧ c ≠ '*'
  le_toNat : ∀ c ∈ token, 0x20 ≤ c.toNat

theorem isBlank_of_isJsonBlank (c : Char) (h : isJsonBlank c = true) : isBlank c = true := by
  simp only [isJsonBlank, Bool.or_eq_true, decide_eq_true_eq] at h
  rcases h with ((rfl | rfl) | rfl) | rfl <;> decide

/-- **Tokens broken into lines are left laid out**, with blanks between them. -/
theorem Laid.behindMargin_eq {tokens : List (List Char)} {text : List Char}
    (h : Laid (Broken isJsonBlank) tokens text) : (∀ token ∈ tokens, Solid token) → ∀ rest,
      ∃ text', Laid (Gap isJsonBlank) tokens text' ∧
        behindMargin (text ++ rest) = text' ++ behindMargin rest := by
  induction h with
  | nil => exact fun _ rest => ⟨[], .nil, rfl⟩
  | @cons g token text tokens hgap h ih =>
    intro hsolid rest
    obtain ⟨htoken, hsolid⟩ := List.forall_mem_cons.mp hsolid
    obtain ⟨text', hlaid, hleft⟩ := ih hsolid rest
    obtain ⟨c, cs, hcs, hc, hasterisk⟩ := htoken.head
    obtain ⟨g', hg', hbehind⟩ := (hgap.comesTo isBlank_of_isJsonBlank rfl hc hasterisk
      (cs ++ (text ++ rest))).behind
    have htokens : c :: (cs ++ (text ++ rest)) = token ++ (text ++ rest) := by
      rw [hcs, List.cons_append]
    rw [htokens, behindMargin_append htoken.le_toNat, hleft] at hbehind
    refine ⟨g' ++ (token ++ text'), .cons hg' hlaid, ?_⟩
    simp only [List.append_assoc]
    exact hbehind

theorem Quoted.solid {value : String} {token : List Char} (h : Quoted value token) :
    Solid token := by
  obtain ⟨text, htext, rfl⟩ := h
  refine ⟨⟨_, _, rfl, by decide, by decide⟩, List.forall_mem_cons.mpr ⟨by decide, ?_⟩⟩
  exact List.forall_mem_append.mpr
    ⟨htext.le_toNat, List.forall_mem_singleton.mpr (by decide)⟩

theorem ValueToken.solid {value : Option String} {token : List Char}
    (h : ValueToken value token) : Solid token := by
  cases h with
  | null => exact ⟨⟨_, _, rfl, by decide, by decide⟩, by simp⟩
  | string h => exact h.solid

/-- A mark of punctuation is a token of one character. -/
theorem solid_mark {c : Char} (hblank : isBlank c = false) (hasterisk : c ≠ '*')
    (hcontrol : 0x20 ≤ c.toNat) : Solid [c] :=
  ⟨⟨c, [], rfl, hblank, hasterisk⟩, List.forall_mem_singleton.mpr hcontrol⟩

theorem EntryTokens.solid {entries : List (String × Option String)} {tokens : List (List Char)}
    (h : EntryTokens entries tokens) : ∀ token ∈ tokens, Solid token := by
  have hcolon : Solid [':'] := solid_mark (by decide) (by decide) (by decide)
  have hcomma : Solid [','] := solid_mark (by decide) (by decide) (by decide)
  have hbrace : Solid ['}'] := solid_mark (by decide) (by decide) (by decide)
  induction h with
  | last hkey hvalue =>
    simp only [List.forall_mem_cons]
    exact ⟨hkey.solid, hcolon, hvalue.solid, hbrace, fun _ h => nomatch h⟩
  | more hkey hvalue h ih =>
    simp only [List.forall_mem_cons]
    exact ⟨hkey.solid, hcolon, hvalue.solid, hcomma, ih⟩

/-- Every token of an object is solid. -/
theorem ObjectTokens.solid {entries : List (String × Option String)} {tokens : List (List Char)}
    (h : ObjectTokens entries tokens) : ∀ token ∈ tokens, Solid token := by
  cases h with
  | empty =>
    exact List.forall_mem_singleton.mpr (solid_mark (by decide) (by decide) (by decide))
  | entries h => exact h.solid

/-- **How options are written in a comment**: as an object that gives them, broken into lines
between any of its tokens. -/
def WrittenAs (o : FileOptions) (object : List Char) : Prop :=
  ∃ entries tokens text, Gives entries o ∧ ObjectTokens entries tokens ∧
    Laid (Broken isJsonBlank) tokens text ∧ object = '{' :: text

theorem Laid.flatten {gap : List Char → Prop} (h : gap []) (tokens : List (List Char)) :
    Laid gap tokens tokens.flatten := by
  induction tokens with
  | nil => exact .nil
  | cons token tokens ih => exact .cons h ih

/-- **All options can be written in a comment.** -/
theorem exists_writtenAs (o : FileOptions) : ∃ object, o.WrittenAs object := by
  obtain ⟨entries, tokens, hgives, htokens⟩ := exists_objectTokens o
  exact ⟨_, entries, tokens, _, hgives, htokens, .flatten .nil tokens, rfl⟩

/-! ### Docblocks -/

/-- No tag begins in a text without one and ends in the tag that follows: only its first
character is an at sign. -/
theorem not_prefix_append {c : Char} {before : List Char} (h : ¬docblockTag <:+: c :: before)
    (text : List Char) : ¬docblockTag <+: c :: (before ++ (docblockTag ++ text)) := by
  intro htag
  rcases before with _ | ⟨d, _ | ⟨e, _ | ⟨f, before⟩⟩⟩
  · simp [docblockTag] at htag
  · simp [docblockTag] at htag
  · simp [docblockTag] at htag
  · refine h (List.IsPrefix.isInfix ?_)
    simpa [docblockTag] using htag

/-- The first tag is the one behind a text without any. -/
theorem afterTag?_append {before : List Char} (h : ¬docblockTag <:+: before) (text : List Char) :
    afterTag? (before ++ (docblockTag ++ text)) = some text := by
  induction before with
  | nil => rfl
  | cons c before ih =>
    have hbefore : ¬docblockTag <:+: before := fun hin => h (List.infix_cons hin)
    have htag := mt List.isPrefixOf_iff_prefix.mp (not_prefix_append h text)
    rw [List.cons_append, afterTag?, if_neg htag, ih hbefore]

/-- **The options that are written in a docblock are the options of the file**: behind a text
without the tag, the tag and perhaps blanks, whatever follows. -/
theorem ofSource_writtenAs {o : FileOptions} {before lead object : String}
    (hbefore : ¬"@fbt".toList <:+: before.toList) (hlead : Broken isBlank lead.toList)
    (hobject : o.WrittenAs object.toList) (after : String) :
    ofSource (before ++ "@fbt" ++ lead ++ object ++ after) = .ok (some o) := by
  obtain ⟨entries, tokens, text, hgives, htokens, hlaid, hobject⟩ := hobject
  obtain ⟨text', hlaid, hleft⟩ := hlaid.behindMargin_eq htokens.solid after.toList
  have hopen : ∀ c ∈ ['{'], 0x20 ≤ c.toNat := List.forall_mem_singleton.mpr (by decide)
  have hbrace : behindMargin ('{' :: (text ++ after.toList)) =
      '{' :: (text' ++ behindMargin after.toList) :=
    (behindMargin_append hopen (text ++ after.toList)).trans (congrArg _ hleft)
  have hsolid : isBlank '{' = false ∧ '{' ≠ '*' := by decide
  obtain ⟨g, hg, hmargin⟩ := (hlead.comesTo (fun _ h => h) rfl hsolid.1 hsolid.2
    (text ++ after.toList)).margin
  have hsource : (before ++ "@fbt" ++ lead ++ object ++ after).toList =
      before.toList ++ (docblockTag ++ (lead.toList ++ '{' :: (text ++ after.toList))) := by
    simp only [String.toList_append, hobject, List.append_assoc, List.cons_append]
    rfl
  have htrim : trimBlank (joinLines ((splitLines (lead.toList ++ '{' :: (text ++
      after.toList))).map uncomment)) = '{' :: (text' ++ behindMargin after.toList) := by
    rw [← uncommented, hmargin, hbrace, trimBlank, List.dropWhile_append_of_pos hg,
      List.dropWhile_cons_of_neg (by decide)]
  have hread := htokens.readObject_eq hgives hlaid (behindMargin after.toList)
  rw [ofSource, hsource, afterTag?_append hbefore]
  dsimp only
  rw [htrim]
  exact congrArg (Except.map some) hread

/-- A file whose author has a name of two characters, one of them outside of the first plane. -/
def authorShown : FileOptions where
  author := some "é😀"

/-- Its object on four lines, which end in both ways. -/
def authorShownObject : String :=
  "\x7b\r\n\t* \"\\u0061uthor\" :\n *\"é\\uD83d\\uDE00\",\n\"project\": null \x7d"

theorem writtenAs_authorShownObject : authorShown.WrittenAs authorShownObject.toList := by
  have hauthor : Quoted "author" "\"\\u0061uthor\"".toList :=
    ⟨_, .escaped (.unit (by decide) (hexUnit_hexFour (by decide)))
      (spells_flatMap_escape "uthor".toList), rfl⟩
  have hname : Quoted "é😀" "\"é\\uD83d\\uDE00\"".toList := by
    have hhigh : HexUnit 0xD83D ['D', '8', '3', 'd'] :=
      .cons (.inr rfl) (.cons (.inl rfl) (.cons (.inl rfl) (.cons (.inl rfl) .nil)))
    have hlow : HexUnit 0xDE00 ['D', 'E', '0', '0'] :=
      .cons (.inr rfl) (.cons (.inr rfl) (.cons (.inl rfl) (.cons (.inl rfl) .nil)))
    exact ⟨_, .plain (by decide) (by decide) (by decide)
      (.escaped (.halves (by decide) hhigh hlow) .nil), rfl⟩
  have hproject : Quoted "project" "\"project\"".toList :=
    ⟨_, spells_flatMap_escape "project".toList, rfl⟩
  have hgives : Gives [("author", some "é😀"), ("project", none)] authorShown :=
    { known := by simp
      once := by simp
      project := by simp [authorShown]
      author := by simp [authorShown, eq_comm] }
  have htab : Gap isBlank ['\t'] := .cons (by decide) .nil
  have hspace : Gap isBlank [' '] := .cons (by decide) .nil
  have hfirst : Broken isJsonBlank ('\r' :: '\n' :: (['\t'] ++ '*' :: [' '])) :=
    .cons rfl (.line htab (.cons rfl .nil))
  have hsecond : Broken isJsonBlank ('\n' :: ([' '] ++ '*' :: [])) := .line hspace .nil
  have hblank : ∀ c, isJsonBlank c = true → Broken isJsonBlank [c] := fun c hc => .cons hc .nil
  refine ⟨_, _, _, hgives, .entries (.more hauthor (.string hname) (.last hproject .null)),
    .cons hfirst (.cons (hblank ' ' rfl) (.cons hsecond (.cons .nil (.cons (hblank '\n' rfl)
      (.cons .nil (.cons (hblank ' ' rfl) (.cons (hblank ' ' rfl) .nil))))))), ?_⟩
  decide +kernel

/-- Behind the tag may follow anything, another tag included, and blanks of any kind stand between
the tag and the object. -/
theorem ofSource_writtenAs_authorShown :
    ¬"@fbt".toList <:+: "/** @fb\n * ".toList ∧ Broken isBlank "\u00a0\n  * ".toList ∧
      authorShown.WrittenAs authorShownObject.toList ∧
      ofSource ("/** @fb\n * " ++ "@fbt" ++ "\u00a0\n  * " ++ authorShownObject ++
        " and @fbt \x7b\n */") = .ok (some authorShown) := by
  have hbefore : ¬"@fbt".toList <:+: "/** @fb\n * ".toList := by decide +kernel
  have hlines : "\u00a0\n  * ".toList = '\u00a0' :: '\n' :: ([' ', ' '] ++ '*' :: [' ']) := by
    decide +kernel
  have hmargin : Gap isBlank [' ', ' '] := .cons (by decide) (.cons (by decide) .nil)
  have hlead : Broken isBlank "\u00a0\n  * ".toList := by
    rw [hlines]
    exact .cons (by decide) (.line hmargin (.cons (by decide) .nil))
  exact ⟨hbefore, hlead, writtenAs_authorShownObject,
    ofSource_writtenAs hbefore hlead writtenAs_authorShownObject " and @fbt \x7b\n */"⟩

end FileOptions

end Phrasebook
