import Phrasebook.Proofs.Syntax.ErrorPlaces
import Phrasebook.Proofs.Syntax.Exhaustion

/-!
# Reading goes forward

Whatever the text, its reading comes to an end, because it goes forward in the text
(`Phrasebook.Expr.reading_goes_forward`). What the readers take is lexemes, and no lexeme is without
a character: the texts that begin at the lexemes of a source are endings of it, each shorter than
the one before (`Phrasebook.Expr.scanFrom_shortens`). So what `Phrasebook.Expr.Calls` says of
lexemes holds of the text. Between two places of the source some of it is **taken**
(`Phrasebook.Expr.Takes`) if the text left at the second is a shorter ending of the text left at the
first.

A quoted string is cut off as one lexeme, by a loop on characters. A turn of this loop takes one
character, or a backslash and the character it stands before, and then goes on with what is left.

The answer of `Phrasebook.Expr.parse` is that of a reading which came to an end
(`Phrasebook.Expr.Answers`). It is the same with every fuel from a multiple of the source's length
on, for a fuel that large is never used up.
-/

namespace Phrasebook

namespace Expr

/-! ### The text left at a place -/

/-- The lexemes of a source. -/
def lexemes (source : String) : List Lexeme :=
  (scan source.toList).map Prod.fst

/-- The text of a source that is left where some of its last lexemes are. -/
def remaining (source : String) (ls : List Lexeme) : List Char :=
  textAt (scan source.toList) ls.length

/-- A text is left of another one once **some of it is taken**, at least one character. -/
def Shortens (text rest : List Char) : Prop :=
  ∃ taken, taken ≠ [] ∧ text = taken ++ rest

/-- Between two places of a source **some text is taken**: fewer of the same last lexemes are left,
and a shorter ending of the text. -/
def Takes (source : String) (ls rest : List Lexeme) : Prop :=
  rest <:+ ls ∧ Shortens (remaining source ls) (remaining source rest)

theorem shortens_cons {c : Char} {text rest : List Char} (h : rest <:+ text) :
    Shortens (c :: text) rest := by
  obtain ⟨taken, rfl⟩ := h
  exact ⟨c :: taken, List.cons_ne_nil c taken, rfl⟩

/-- **The text shortens from lexeme to lexeme.** -/
theorem scanFrom_shortens (skip : Nat) (cs : List Char) :
    (scanFrom skip cs).Pairwise fun p q => Shortens p.2 q.2 := by
  induction cs generalizing skip with
  | nil => exact .nil
  | cons c cs ih =>
    rw [scanFrom.eq_def]
    dsimp only
    split
    · exact ih _
    · split
      · exact ih 0
      · exact .cons (fun q hq => shortens_cons (scanFrom_text _ cs q hq).1) (ih _)

theorem scanFrom_length_le (skip : Nat) (cs : List Char) :
    (scanFrom skip cs).length ≤ cs.length := by
  induction cs generalizing skip with
  | nil => exact Nat.le_refl 0
  | cons c cs ih =>
    rw [scanFrom.eq_def]
    dsimp only
    split
    · exact Nat.le_succ_of_le (ih _)
    · split
      · exact Nat.le_succ_of_le (ih 0)
      · exact Nat.succ_le_succ (ih _)

theorem textAt_succ {texts : List (Lexeme × List Char)} {n : Nat} (h : n < texts.length) :
    textAt texts (n + 1) = (texts[texts.length - (n + 1)]).2 := by
  rw [textAt, List.drop_eq_getElem_cons (by omega)]

/-- Fewer lexemes are left with less of the text. -/
theorem textAt_shortens {cs : List Char} {m n : Nat} (hlt : m < n) (hn : n ≤ (scan cs).length) :
    Shortens (textAt (scan cs) n) (textAt (scan cs) m) := by
  obtain ⟨n, rfl⟩ : ∃ k, n = k + 1 := ⟨n - 1, by omega⟩
  rw [textAt_succ (by omega)]
  cases m with
  | zero =>
    -- no lexeme is left, but the text of one is not empty
    have hnil := (textAt_eq_nil_iff (scanFrom_text_ne_nil 0 cs) (Nat.zero_le _)).mpr rfl
    rw [show textAt (scan cs) 0 = [] from hnil]
    exact ⟨_, scanFrom_text_ne_nil 0 cs _ (List.getElem_mem _), (List.append_nil _).symm⟩
  | succ m =>
    rw [textAt_succ (by omega)]
    exact List.pairwise_iff_getElem.mp (scanFrom_shortens 0 cs) _ _ _ _ (by omega)

/-- **Lexemes are taken from the text.** -/
theorem Behind.takes {source : String} {ls rest : List Lexeme} (h : Behind ls rest)
    (hls : ls <:+ lexemes source) : Takes source ls rest := by
  have hlength := hls.length_le
  rw [lexemes, List.length_map] at hlength
  exact ⟨h.1, textAt_shortens h.2 hlength⟩

/-- **Each turn of a loop takes some of the text.** -/
theorem turns_take {source : String} {r : Reader} {ls rest : List Lexeme}
    (h : Relation.ReflTransGen r.Turn ls rest) (hls : ls <:+ lexemes source) :
    Relation.ReflTransGen (fun ls ls' => r.Turn ls ls' ∧ Takes source ls ls') ls rest := by
  induction h using Relation.ReflTransGen.head_induction_on with
  | refl => exact .refl
  | head hturn _ ih =>
    have hbehind := Calls.behind_of_transGen (.single hturn)
    exact .head ⟨hturn, hbehind.takes hls⟩ (ih (hbehind.1.trans hls))

/-! ### Quoted strings -/

/-- **A turn of the loop on the characters of a string** comes to the end of the text, or to the
quote that closes the string, or it takes some of the text and goes on with the rest. -/
theorem quotedUpTo_turn (quote : Char) (cs : List Char) :
    quotedUpTo quote cs = none ∧ cs = [] ∨
    quotedUpTo quote cs = some ([], 1) ∧ cs.head? = some quote ∨
    ∃ c rest n, Shortens cs rest ∧ n + rest.length = cs.length ∧ quotedUpTo quote cs =
      (quotedUpTo quote rest).map fun (value, count) => (c :: value, count + n) := by
  rw [quotedUpTo.eq_def]
  split
  · exact .inl ⟨rfl, rfl⟩
  · rename_i c rest
    refine .inr (.inr ⟨unescape c, rest, 2, shortens_cons (List.suffix_cons c rest), ?_, rfl⟩)
    exact Nat.add_comm 2 rest.length
  · rename_i c rest _
    split_ifs with hc
    · exact .inr (.inl ⟨rfl, congrArg some hc⟩)
    · refine .inr (.inr ⟨c, rest, 1, shortens_cons (List.suffix_refl rest), ?_, rfl⟩)
      exact Nat.add_comm 1 rest.length

/-! ### The answer of a reading -/

/-- What is answered for a source when its reading comes to an end. A reading that runs out of fuel
has no answer. -/
inductive Answers (source : String) : Outcome Expr → Except ParseError Expr → Prop
  | whole {e} : Answers source (.done e []) (.ok e)
  | goesOn {e rest c after} (h : remaining source rest = c :: after) :
    Answers source (.done e rest) (.error (.unexpected c (locate source.toList (c :: after))))
  | gaveUp {stop} : Answers source (.failed stop)
      (.error (giveUp source.toList (stop.text (scan source.toList))))

theorem fuelFor_le (source : String) : fuelFor (lexemes source) ≤ 16 * (source.length + 1) := by
  have hlength := scanFrom_length_le 0 source.toList
  rw [String.length_toList] at hlength
  rw [fuelFor, lexemes, List.length_map, scan]
  omega

/-- **The fuel is never used up.** -/
theorem sequenceOf_fuelFor_ne_unfinished (ls : List Lexeme) :
    sequenceOf (fuelFor ls) ls ≠ .unfinished := by
  have hcost : cost (.sequence, ls) < fuelFor ls := by
    simp only [cost, Reader.rank, fuelFor]
    omega
  exact fun h => run_ne_unfinished hcost (Outcome.void_unfinished h)

/-- Fuel beyond what is enough makes no difference. -/
theorem sequenceOf_eq_of_le {ls : List Lexeme} {fuel : Nat} (h : fuelFor ls ≤ fuel) :
    sequenceOf fuel ls = sequenceOf (fuelFor ls) ls := by
  have hkept : (sequenceOf (fuelFor ls) ls).KeptBy (sequenceOf fuel ls) := by
    induction fuel, h using Nat.le_induction with
    | base => exact .refl _
    | succ fuel _ ih => exact ih.trans ((keptAt fuel).sequence ls)
  exact hkept (sequenceOf_fuelFor_ne_unfinished ls)

theorem answers_parse (source : String) :
    Answers source (sequenceOf (fuelFor (lexemes source)) (lexemes source)) (parse source) := by
  have hfinished := sequenceOf_fuelFor_ne_unfinished (lexemes source)
  unfold parse
  dsimp only
  rw [← lexemes]
  cases hread : sequenceOf (fuelFor (lexemes source)) (lexemes source) with
  | done e rest =>
    dsimp only
    split
    · rename_i htext
      have hcount : rest.length ≤ (scan source.toList).length := by
        have hsuffix := (((shortensAt _).sequence _).suffix hread).length_le
        rwa [lexemes, List.length_map] at hsuffix
      have hrest := (textAt_eq_nil_iff (scanFrom_text_ne_nil 0 _) hcount).mp htext
      rw [List.eq_nil_of_length_eq_zero hrest]
      exact .whole
    · rename_i c after htext
      exact .goesOn htext
  | failed stop => exact .gaveUp
  | unfinished => exact absurd hread hfinished

/-! ### The whole reading -/

/-- **The reading of a source goes forward in it**, and so it comes to an end. -/
structure GoesForward (source : String) : Prop where
  /-- A reader that reads a value takes some of the text. Loops, and the lists they read between
  brackets, may have nothing to read; then they leave what they were given. -/
  takes : ∀ ⦃r : Reader⦄ ⦃fuel ls rest⦄, ls <:+ lexemes source → r.run fuel ls = .done () rest →
    Takes source ls rest ∨ r.mayTakeNothing = true ∧ rest = ls
  /-- A loop comes to what it leaves turn by turn, and each turn takes some of the text. -/
  turns : ∀ ⦃r : Reader⦄ ⦃fuel ls rest⦄, r.isLoop = true → ls <:+ lexemes source →
    r.run fuel ls = .done () rest →
    Relation.ReflTransGen (fun ls ls' => r.Turn ls ls' ∧ Takes source ls ls') ls rest
  /-- A turn of the loop on the characters of a string takes some of them, or ends the loop. -/
  strings : ∀ (quote : Char) (cs : List Char), quotedUpTo quote cs = none ∧ cs = [] ∨
    quotedUpTo quote cs = some ([], 1) ∧ cs.head? = some quote ∨
    ∃ c rest n, Shortens cs rest ∧ n + rest.length = cs.length ∧ quotedUpTo quote cs =
      (quotedUpTo quote rest).map fun (value, count) => (c :: value, count + n)
  /-- Between a call of a reader and one of the same reader nested in it, through whichever others,
  some of the text is taken. -/
  nested : ∀ ⦃r ls ls'⦄, ls <:+ lexemes source → Relation.TransGen Calls (r, ls) (r, ls') →
    Takes source ls ls'
  /-- There are no other calls: a reading runs out of fuel only if one of these does. -/
  called : ∀ ⦃r : Reader⦄ ⦃fuel ls⦄, r.run (fuel + 1) ls = .unfinished → CallRunsOut fuel r ls
  /-- Parsing answers what is read, with any fuel from a multiple of the source's length on. -/
  answers : ∀ ⦃fuel⦄, 16 * (source.length + 1) ≤ fuel →
    Answers source (sequenceOf fuel (lexemes source)) (parse source)

/-- **Reading always goes forward.** -/
theorem reading_goes_forward (source : String) : GoesForward source where
  takes r fuel ls rest hls h := by
    have hsuffix := r.run_suffix fuel ls h
    cases hr : r.mayTakeNothing with
    | false => exact .inl ((Reader.run_behind hr fuel ls h).takes hls)
    | true =>
      rcases hsuffix.length_le.lt_or_eq with hlt | heq
      · exact .inl (Behind.takes ⟨hsuffix, hlt⟩ hls)
      · exact .inr ⟨rfl, hsuffix.eq_of_length heq⟩
  turns r fuel ls rest hr hls h := turns_take (Reader.Reaches.turns ⟨fuel, h⟩ hr) hls
  strings := quotedUpTo_turn
  nested r ls ls' hls h := (Calls.behind_of_transGen h).takes hls
  called r fuel ls h := callRunsOut_of_run h
  answers fuel h := by
    rw [sequenceOf_eq_of_le ((fuelFor_le source).trans h)]
    exact answers_parse source

end Expr

end Phrasebook
