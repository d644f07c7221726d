import Phrasebook.Proofs.Syntax.Parsing

/-!
# Where a parse error stands

An expression that cannot be parsed is refused at a location, and what the location says of the text
is true (`Phrasebook.Expr.parse_error_points`): some beginning of the text, and nothing else, has
been consumed there, and its lines and the bytes of its last line are as many as the location says
(`Phrasebook.Location.IsBehind`). The reading itself has no text in its hands, only lexemes, each
with the text that begins at it, so all that is needed of it is that this text is an ending of the
source (`Phrasebook.Expr.Stop.text_suffix`).

If a text goes on where an expression is complete, more is said: what was consumed is an expression
by itself. The reading that found it looked one lexeme further, and the scanning before it as far as
it liked, so this is not the same reading. But a lexeme that is the longest in a text is the longest
in every beginning of the text that has it, hence the lexemes up to a place are spelled by the text
up to there (`Phrasebook.Expr.spells_before`), and they are derived, whatever follows.
-/

namespace Phrasebook

/-! ### Locations behind a text -/

namespace Location

/-- **A location is behind a text**: its line is one more than the line feeds in it, and its column
one more than the bytes of its last line. -/
structure IsBehind (l : Location) (consumed : String) : Prop where
  line : l.line = 1 + consumed.toList.count '\n'
  column : ∃ above last : String, consumed = above ++ last ∧
    (above = "" ∨ ∃ lines, above = lines ++ "\n") ∧ '\n' ∉ last.toList ∧
    l.column = 1 + last.utf8ByteSize

end Location

theorem byteLength_append (cs ds : List Char) :
    byteLength (cs ++ ds) = byteLength cs + byteLength ds := by
  induction cs with
  | nil => exact (Nat.zero_add _).symm
  | cons c cs ih => rw [List.cons_append, byteLength, byteLength, ih, Nat.add_assoc]

theorem byteLength_reverse (cs : List Char) : byteLength cs.reverse = byteLength cs := by
  induction cs with
  | nil => rfl
  | cons c cs ih =>
    rw [List.reverse_cons, byteLength_append, ih, byteLength, byteLength, byteLength]
    omega

theorem utf8ByteSize_ofList (cs : List Char) : (String.ofList cs).utf8ByteSize = byteLength cs := by
  induction cs with
  | nil => rfl
  | cons c cs ih =>
    rw [String.ofList_cons, String.utf8ByteSize_append, String.utf8ByteSize_singleton, ih,
      byteLength]

/-- The last line of a text is all that follows its last line feed. -/
theorem Location.after_isBehind (consumed : List Char) :
    (Location.after consumed).IsBehind (String.ofList consumed) where
  line := by rw [Location.after, String.toList_ofList, Nat.add_comm]
  column := by
    -- what follows the last line feed comes first when the text is read backwards
    have hsplit := List.takeWhile_append_dropWhile (p := (· ≠ '\n')) (l := consumed.reverse)
    have hhead := List.head?_dropWhile_not (· ≠ '\n') consumed.reverse
    refine ⟨String.ofList (consumed.reverse.dropWhile (· ≠ '\n')).reverse,
      String.ofList (consumed.reverse.takeWhile (· ≠ '\n')).reverse, ?_, ?_, ?_, ?_⟩
    · rw [← String.ofList_append, ← List.reverse_append, hsplit, List.reverse_reverse]
    · rcases habove : consumed.reverse.dropWhile (· ≠ '\n') with _ | ⟨c, lines⟩
      · exact .inl rfl
      · rw [habove] at hhead
        have hc : c = '\n' := by simpa using hhead
        refine .inr ⟨String.ofList lines.reverse, ?_⟩
        rw [hc, List.reverse_cons, String.ofList_append]
    · rw [String.toList_ofList, List.mem_reverse]
      exact fun h => by simpa using List.mem_takeWhile_imp h
    · rw [utf8ByteSize_ofList, byteLength_reverse]
      exact Nat.add_comm _ _

namespace Expr

/-! ### Lexemes and the texts they begin -/

/-- The text of a lexeme is an ending of what is scanned, and no blank comes first. -/
theorem scanFrom_text (skip : Nat) (cs : List Char) : ∀ p ∈ scanFrom skip cs,
    p.2 <:+ cs ∧ ∃ c after, p.2 = c :: after ∧ isBlank c = false := by
  induction cs generalizing skip with
  | nil => exact fun p hp => nomatch hp
  | cons c cs ih =>
    have hcons : ∀ skip, ∀ p ∈ scanFrom skip cs,
        p.2 <:+ c :: cs ∧ ∃ d after, p.2 = d :: after ∧ isBlank d = false := fun skip p hp =>
      (ih skip p hp).imp_left fun h => h.trans (List.suffix_cons c cs)
    intro p hp
    rw [scanFrom.eq_def] at hp
    dsimp only at hp
    split at hp
    · exact hcons _ p hp
    · split at hp
      · exact hcons _ p hp
      · rename_i hblank
        rcases List.mem_cons.mp hp with rfl | hp
        · exact ⟨List.suffix_refl _, c, cs, rfl, Bool.eq_false_iff.mpr hblank⟩
        · exact hcons _ p hp

theorem textAt_suffix (cs : List Char) (count : Nat) : textAt (scan cs) count <:+ cs := by
  rw [textAt]
  split
  · exact List.nil_suffix
  · rename_i l text after hdrop
    have hmem : (l, text) ∈ scan cs :=
      List.mem_of_mem_drop (hdrop ▸ List.mem_cons_self : (l, text) ∈ (scan cs).drop _)
    exact (scanFrom_text 0 cs _ hmem).1

/-- **What is left behind a stop is an ending of the text.** -/
theorem Stop.text_suffix (cs : List Char) (stop : Stop) : stop.text (scan cs) <:+ cs :=
  (List.drop_suffix _ _).trans (textAt_suffix cs _)

theorem locate_append (consumed rest : List Char) :
    locate (consumed ++ rest) rest = .after consumed := by
  rw [locate, List.length_append, Nat.add_sub_cancel, List.take_left]

/-- **The lexemes before a lexeme are spelled by the text before it.** -/
theorem spells_before {cs text : List Char} {before after : List (Lexeme × List Char)} {l : Lexeme}
    (h : scan cs = before ++ (l, text) :: after)
    (hstray : ∀ k ∈ before.map Prod.fst, k.isStray = false) :
    ∃ consumed, cs = consumed ++ text ∧ Spells consumed (before.map Prod.fst) := by
  -- each lexeme takes away some of the text
  induction hn : cs.length using Nat.strong_induction_on generalizing cs before with
  | _ n ih =>
    rcases cs with _ | ⟨c, cs⟩
    · cases before <;> exact nomatch h
    rw [List.length_cons] at hn
    by_cases hc : isBlank c = true
    · rw [scan_blank hc] at h
      obtain ⟨consumed, rfl, hspells⟩ := ih _ (by omega) h hstray rfl
      exact ⟨c :: consumed, rfl, .blank (mem_whiteSpace_iff.mpr hc) hspells⟩
    · rw [scan_cons (Bool.eq_false_iff.mpr hc)] at h
      rcases before with _ | ⟨k, before⟩
      · obtain ⟨heq, -⟩ := List.cons.inj h
        exact ⟨[], (Prod.mk.inj heq).2, .nil⟩
      obtain ⟨rfl, hafter⟩ := List.cons.inj h
      rw [List.map_cons, List.forall_mem_cons] at hstray
      obtain ⟨spelled, rest, rfl, hlength, hspelled⟩ := lexemeAfter_spells hstray.1
      rw [← hlength, List.drop_left] at hafter
      rw [List.length_append] at hn
      obtain ⟨consumed, rfl, hspells⟩ := ih _ (by omega) hafter hstray.2 rfl
      have hlong : Longest (c :: spelled) consumed := fun m more hmore =>
        longest_of_lexemeAfter hlength.symm m more (hmore.trans (List.prefix_append _ _))
      exact ⟨c :: spelled ++ consumed, by simp, .lexeme hspelled hlong hspells⟩

/-- **A complete expression that the text goes on behind** is read again without what follows. -/
theorem parse_before {cs : List Char} {used rest : List Lexeme} {e : Expr} {c : Char}
    {after : List Char} (hused : (scan cs).map Prod.fst = used ++ rest)
    (hderives : Derives .sequence used e) (htext : textAt (scan cs) rest.length = c :: after) :
    isBlank c = false ∧ ∃ consumed, cs = consumed ++ c :: after ∧
      parse (String.ofList consumed) = .ok e := by
  rw [textAt] at htext
  split at htext
  · contradiction
  rename_i l text behind hdrop
  subst htext
  have hsplit := List.take_append_drop ((scan cs).length - rest.length) (scan cs)
  rw [hdrop] at hsplit
  have hbefore : ((scan cs).take ((scan cs).length - rest.length)).map Prod.fst = used := by
    rw [List.map_take, hused, ← List.length_map, hused, List.length_append, Nat.add_sub_cancel,
      List.take_left]
  have hmem : (l, c :: after) ∈ scan cs := hsplit ▸ List.mem_append_right _ List.mem_cons_self
  obtain ⟨-, c', after', heq, hblank⟩ := scanFrom_text 0 cs _ hmem
  obtain ⟨rfl, rfl⟩ := List.cons.inj heq
  have hstray : ∀ k ∈ used, k.isStray = false := fun k hk => by
    cases k with
    | stray d => exact absurd hk (hderives.not_stray d)
    | _ => rfl
  obtain ⟨consumed, hcs, hspells⟩ := spells_before hsplit.symm (hbefore ▸ hstray)
  refine ⟨hblank, consumed, hcs, parse_of_spells ?_ hderives⟩
  rwa [String.toList_ofList, ← hbefore]

/-! ### Errors -/

/-- **A parse error is true** of a text of which `consumed` was read and `rest` is left: its
location is behind what was consumed; the text ends too soon only if nothing but blanks is left;
and a character is unexpected only if it comes next and is no blank, and what was consumed is an
expression by itself. -/
structure ParseError.IsTrueOf (e : ParseError) (consumed rest : String) : Prop where
  location : e.location.IsBehind consumed
  endOfInput : ∀ l, e = endOfInput l → ∀ c ∈ rest.toList, isBlank c = true
  unexpected : ∀ c l, e = unexpected c l →
    (∃ after, rest.toList = c :: after) ∧ isBlank c = false ∧ ∃ e', parse consumed = .ok e'

theorem giveUp_isTrueOf (consumed rest : List Char) :
    (giveUp (consumed ++ rest) rest).IsTrueOf (String.ofList consumed) (String.ofList rest) := by
  rw [giveUp, locate_append]
  split
  · rename_i hrest
    rw [List.isEmpty_iff] at hrest
    exact
      { location := Location.after_isBehind consumed
        endOfInput := fun _ _ c hc => by simp [hrest] at hc
        unexpected := fun _ _ h => nomatch h }
  · exact
      { location := Location.after_isBehind consumed
        endOfInput := fun _ h => nomatch h
        unexpected := fun _ _ h => nomatch h }

/-- Giving up before an ending of the text is an error that is true of the text. -/
theorem exists_isTrueOf_giveUp {source : String} {rest : List Char} (h : rest <:+ source.toList) :
    ∃ consumed rest', source = consumed ++ rest' ∧
      (giveUp source.toList rest).IsTrueOf consumed rest' := by
  obtain ⟨consumed, hsource⟩ := h
  refine ⟨String.ofList consumed, String.ofList rest, ?_, hsource ▸ giveUp_isTrueOf consumed rest⟩
  rw [← String.ofList_append, hsource, String.ofList_toList]

/-- **A parse error points into the text, and truthfully**: the text falls into what was consumed
and what is left, and the error is true of the two. -/
theorem parse_error_points {source : String} {e : ParseError} (h : parse source = .error e) :
    ∃ consumed rest, source = consumed ++ rest ∧ e.IsTrueOf consumed rest := by
  unfold parse at h
  dsimp only at h
  split at h
  · rename_i e' rest hread
    obtain ⟨used, hused, hderives⟩ := (soundAt _).sequence hread
    split at h
    · exact nomatch h
    · rename_i c after htext
      obtain rfl := Except.error.inj h
      obtain ⟨hblank, consumed, hsource, hparse⟩ := parse_before hused hderives htext
      refine ⟨String.ofList consumed, String.ofList (c :: after), ?_, ?_⟩
      · rw [← String.ofList_append, ← hsource, String.ofList_toList]
      · rw [hsource, locate_append]
        refine ⟨Location.after_isBehind consumed, fun _ h => (nomatch h), fun d l h => ?_⟩
        obtain ⟨rfl, -⟩ := ParseError.unexpected.inj h
        exact ⟨⟨after, String.toList_ofList⟩, hblank, e', hparse⟩
  · obtain rfl := Except.error.inj h
    exact exists_isTrueOf_giveUp (Stop.text_suffix _ _)
  · obtain rfl := Except.error.inj h
    exact exists_isTrueOf_giveUp (List.suffix_refl _)

/-- A closing parenthesis too many, on the second line, behind a character of two bytes. -/
theorem parse_error_points_strayParen :
    parse "f(\n\"é\") )" = .error (.unexpected ')' ⟨2, 7⟩) ∧
      ∃ consumed rest, "f(\n\"é\") )" = consumed ++ rest ∧
        (ParseError.unexpected ')' ⟨2, 7⟩).IsTrueOf consumed rest := by
  have h : parse "f(\n\"é\") )" = .error (.unexpected ')' ⟨2, 7⟩) := by decide +kernel
  exact ⟨h, parse_error_points h⟩

end Expr

end Phrasebook
