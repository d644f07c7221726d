import Phrasebook.Proofs.FileOptions.Margins

/-!
# Several tags in a file

A file may mention the tag before the comment that gives its options, and not every tag is followed
by an object. Here it is said which is (`Phrasebook.FileOptions.Introduces`): between the tag and
the opening brace stand blanks only, and on each line, that of the tag included, at most one
asterisk before everything else (`Phrasebook.FileOptions.Lead`). Taking the margins off a text and
looking for a brace comes to the same (`Phrasebook.FileOptions.trimBlank_uncommented_iff`). Both
halves of it are about two ways to be in a text, at the margin of a line and behind it: behind it an
asterisk is part of the text, and at a line feed one comes back to a margin.

Only the first tag of a file is looked at. So if a tag introduces an object, the first one that does
is heeded exactly if no other tag stands before it; if one does, the file is taken for one without
options (`Phrasebook.FileOptions.ofSource_first_object`).
-/

namespace Phrasebook

namespace FileOptions

/-! ### Tags that introduce an object -/

/-- **What may stand between a tag and its object**: a gap broken into lines. The line of the tag
begins behind the tag, and so it may begin with an asterisk as well. -/
inductive Lead : List Char → Prop
  | broken {g : List Char} (h : Broken isBlank g) : Lead g
  | asterisk {margin g : List Char} (hmargin : Gap isBlank margin) (h : Broken isBlank g) :
    Lead (margin ++ '*' :: g)

/-- **A tag introduces an object**: in a source that is `before`, then the tag, then what may stand
behind it, then an opening brace and `object`. -/
def Introduces (source before object : List Char) : Prop :=
  ∃ lead, Lead lead ∧ source = before ++ (docblockTag ++ (lead ++ '{' :: object))

/-- **The first tag that introduces an object**. -/
structure IntroducesFirst (source before object : List Char) : Prop where
  introduces : Introduces source before object
  le : ∀ before' object', Introduces source before' object' → before.length ≤ before'.length

/-! ### Leads -/

theorem Lead.cons {lead : List Char} (h : Lead lead) {c : Char} (hc : isBlank c = true) :
    Lead (c :: lead) := by
  cases h with
  | broken h => exact .broken (h.cons hc)
  | asterisk hmargin h => exact .asterisk (hmargin.cons hc) h

/-- Behind a line feed, a lead is part of a gap. -/
theorem Lead.broken_newline {lead : List Char} (h : Lead lead) : Broken isBlank ('\n' :: lead) := by
  cases h with
  | broken h => exact h.cons (by decide)
  | asterisk hmargin h => exact h.line hmargin

theorem behindMargin_brace (text : List Char) :
    behindMargin ('{' :: text) = '{' :: behindMargin text :=
  behindMargin_append (List.forall_mem_singleton.mpr (by decide) : ∀ c ∈ ['{'], 0x20 ≤ c.toNat) text

theorem trimBlank_cons {c : Char} (hc : isBlank c = true) (text : List Char) :
    trimBlank (c :: text) = trimBlank text :=
  List.dropWhile_cons_of_pos hc

/-- What is left of a text behind a gap is what is left of the text. -/
theorem trimBlank_gap_brace {g : List Char} (hg : Gap isBlank g) (text : List Char) :
    trimBlank (g ++ behindMargin ('{' :: text)) = '{' :: behindMargin text := by
  rw [behindMargin_brace, trimBlank, List.dropWhile_append_of_pos hg,
    List.dropWhile_cons_of_neg (by decide)]

/-- Margins are taken off a lead, and nothing but blanks is left of it. -/
theorem Lead.trimBlank_eq {lead : List Char} (h : Lead lead) (object : List Char) :
    trimBlank (uncommented (lead ++ '{' :: object)) = '{' :: behindMargin object := by
  have hcomes : ∀ {g}, Broken isBlank g →
      ComesTo isBlank (g ++ '{' :: object) ('{' :: object) := fun hg =>
    hg.comesTo (fun _ h => h) rfl (by decide) (by decide) object
  cases h with
  | broken h =>
    obtain ⟨g, hg, hmargin⟩ := (hcomes h).margin
    rw [hmargin, trimBlank_gap_brace hg]
  | @asterisk margin g' hmargin h =>
    obtain ⟨g, hg, hbehind⟩ := (hcomes h).behind
    have hnewline : isBlank '\n' = true := by decide
    obtain ⟨blanks, hblanks, hleft⟩ := uncommented_margin hnewline hmargin
      (List.cons_ne_nil '*' (g' ++ '{' :: object))
    rw [List.append_assoc, List.cons_append, hleft, uncommented_asterisk, hbehind,
      ← List.append_assoc, trimBlank_gap_brace (List.forall_mem_append.mpr ⟨hblanks, hg⟩)]

section Leading

variable {c : Char} {text cs : List Char}

/-- A brace that comes first once margins are taken off is led to, if that is so of the text behind
its first character. -/
theorem exists_broken_cons
    (ihbehind : trimBlank (behindMargin text) = '{' :: cs → ∃ g object, text = g ++ '{' :: object ∧
      Broken isBlank g ∧ cs = behindMargin object)
    (ihmargin : trimBlank (uncommented text) = '{' :: cs → ∃ lead object,
      text = lead ++ '{' :: object ∧ Lead lead ∧ cs = behindMargin object)
    (h : trimBlank (behindMargin (c :: text)) = '{' :: cs) :
    ∃ g object, c :: text = g ++ '{' :: object ∧ Broken isBlank g ∧ cs = behindMargin object := by
  by_cases hline : c = '\n'
  · subst hline
    by_cases htext : text = []
    · subst htext
      exact nomatch h
    · rw [behindMargin_newline htext, trimBlank_cons (by decide)] at h
      obtain ⟨lead, object, rfl, hlead, hcs⟩ := ihmargin h
      exact ⟨'\n' :: lead, object, rfl, hlead.broken_newline, hcs⟩
  · rcases behindMargin_cons_cases text hline with hkeep | ⟨rfl, hdrop⟩
    · rw [hkeep] at h
      by_cases hc : isBlank c = true
      · rw [trimBlank_cons hc] at h
        obtain ⟨g, object, rfl, hg, hcs⟩ := ihbehind h
        exact ⟨c :: g, object, rfl, hg.cons hc, hcs⟩
      · rw [trimBlank, List.dropWhile_cons_of_neg hc] at h
        obtain ⟨rfl, rfl⟩ := List.cons.inj h
        exact ⟨[], text, rfl, .nil, rfl⟩
    · rw [hdrop] at h
      obtain ⟨g, object, rfl, hg, hcs⟩ := ihbehind h
      exact ⟨'\r' :: g, object, rfl, hg.cons (by decide), hcs⟩

/-- A brace that comes first once margins are taken off is led to. Behind a margin an asterisk
stays, at a margin it is taken off, and each of the two comes back to the other. -/
theorem exists_lead (text cs : List Char) :
    (trimBlank (behindMargin text) = '{' :: cs → ∃ g object, text = g ++ '{' :: object ∧
      Broken isBlank g ∧ cs = behindMargin object) ∧
    (trimBlank (uncommented text) = '{' :: cs → ∃ lead object, text = lead ++ '{' :: object ∧
      Lead lead ∧ cs = behindMargin object) := by
  induction text with
  | nil => exact ⟨fun h => (nomatch h), fun h => nomatch h⟩
  | cons c text ih =>
    obtain ⟨ihbehind, ihmargin⟩ := ih
    refine ⟨exists_broken_cons ihbehind ihmargin, fun h => ?_⟩
    by_cases hc : isBlank c = true
    · have hmargin : trimBlank (uncommented text) = '{' :: cs := by
        by_cases hline : c = '\n'
        · subst hline
          by_cases htext : text = []
          · subst htext
            exact nomatch h
          · rwa [uncommented_newline htext, trimBlank_cons hc] at h
        · rwa [uncommented_blank hc hline] at h
      obtain ⟨lead, object, rfl, hlead, hcs⟩ := ihmargin hmargin
      exact ⟨c :: lead, object, rfl, hlead.cons hc, hcs⟩
    · by_cases hasterisk : c = '*'
      · subst hasterisk
        rw [uncommented_asterisk] at h
        obtain ⟨g, object, rfl, hg, hcs⟩ := ihbehind h
        exact ⟨'*' :: g, object, rfl, .asterisk .nil hg, hcs⟩
      · rw [uncommented_solid (Bool.eq_false_iff.mpr hc) hasterisk] at h
        obtain ⟨g, object, htext, hg, hcs⟩ := exists_broken_cons ihbehind ihmargin h
        exact ⟨g, object, htext, .broken hg, hcs⟩

/-- **Margins are taken off a lead, and of no other text a brace is left.** -/
theorem trimBlank_uncommented_iff : trimBlank (uncommented text) = '{' :: cs ↔
    ∃ lead object, text = lead ++ '{' :: object ∧ Lead lead ∧ cs = behindMargin object := by
  constructor
  · exact (exists_lead text cs).2
  · rintro ⟨lead, object, rfl, hlead, rfl⟩
    exact hlead.trimBlank_eq object

end Leading

/-! ### The first tag -/

/-- A tag that introduces an object is the first if no tag before it comes down to a brace. -/
theorem Introduces.first {source before object : List Char} (h : Introduces source before object)
    (hbefore : ∀ k < before.length, docblockTag <+: source.drop k →
      (trimBlank (uncommented (source.drop (k + docblockTag.length)))).head? ≠ some '{') :
    IntroducesFirst source before object := by
  refine ⟨h, fun before' object' h' => Nat.le_of_not_lt fun hlt => ?_⟩
  obtain ⟨lead, hlead, rfl⟩ := h'
  refine hbefore before'.length hlt ?_ ?_
  · rw [List.drop_left]
    exact List.prefix_append _ _
  · rw [← List.drop_drop, List.drop_left, List.drop_left, hlead.trimBlank_eq]
    rfl

/-- A text behind the first tag stands behind a tag, and behind a text without any. -/
theorem exists_of_afterTag? {source text : List Char} (h : afterTag? source = some text) :
    ∃ before, source = before ++ (docblockTag ++ text) ∧ ¬docblockTag <:+: before := by
  induction source with
  | nil => exact nomatch h
  | cons c source ih =>
    rw [afterTag?] at h
    split at h
    · rename_i htag
      obtain ⟨rest, hrest⟩ := List.isPrefixOf_iff_prefix.mp htag
      rw [← hrest, List.drop_left] at h
      exact ⟨[], by rw [← hrest, Option.some.inj h, List.nil_append], by decide⟩
    · rename_i htag
      obtain ⟨before, rfl, hbefore⟩ := ih h
      refine ⟨c :: before, rfl, fun hin => ?_⟩
      rcases List.infix_cons_iff.mp hin with hpre | hin
      · exact htag (List.isPrefixOf_iff_prefix.mpr (hpre.trans (List.prefix_append _ _)))
      · exact hbefore hin

section Source

variable {source : String} {before object : List Char}

/-- An object behind the first tag is read. -/
theorem ofSource_of_lead {lead : List Char} (hlead : Lead lead)
    (h : afterTag? source.toList = some (lead ++ '{' :: object)) :
    ofSource source = (readObject (behindMargin object)).map some := by
  have htrim := hlead.trimBlank_eq object
  rw [uncommented] at htrim
  rw [ofSource, h]
  dsimp only
  rw [htrim]
  rfl

/-- A file without an object behind its first tag has no options. -/
theorem ofSource_eq_none
    (h : ∀ lead object, Lead lead → afterTag? source.toList ≠ some (lead ++ '{' :: object)) :
    ofSource source = .ok none := by
  rw [ofSource]
  split
  · rfl
  · rename_i text htext
    split
    · rename_i cs htrim
      obtain ⟨lead, object, rfl, hlead, -⟩ := trimBlank_uncommented_iff.mp htrim
      exact absurd htext (h lead object hlead)
    · rfl

/-- The first tag that introduces an object is passed over if another tag stands before it. -/
theorem IntroducesFirst.ofSource_eq_none (h : IntroducesFirst source.toList before object)
    (htag : docblockTag <:+: before) : ofSource source = .ok none := by
  refine FileOptions.ofSource_eq_none fun lead object' hlead hafter => ?_
  obtain ⟨before', hsource', hbefore'⟩ := exists_of_afterTag? hafter
  obtain ⟨lead₁, -, hsource⟩ := h.introduces
  have hle := h.le before' object' ⟨lead, hlead, hsource'⟩
  have hprefix : before <+: before' := List.prefix_of_prefix_length_le
    (hsource ▸ List.prefix_append before _) (hsource' ▸ List.prefix_append before' _) hle
  exact hbefore' (htag.trans hprefix.isInfix)

/-- **Only the first tag counts.** If a tag introduces an object, then the options behind the first
that does, or the error in them, are what is read, unless another tag stands before it: then the
file is taken for one without options. It is also if no tag introduces an object. -/
theorem ofSource_first_object (source : String) :
    (∀ before object, IntroducesFirst source.toList before object →
      (ofSource source = .ok none ↔ docblockTag <:+: before) ∧
      (¬docblockTag <:+: before → ofSource source = (readObject (behindMargin object)).map some)) ∧
    ((∀ before object, ¬Introduces source.toList before object) → ofSource source = .ok none) := by
  refine ⟨fun before object h => ?_, fun h => ?_⟩
  · have hread : ¬docblockTag <:+: before →
        ofSource source = (readObject (behindMargin object)).map some := by
      intro hbefore
      obtain ⟨lead, hlead, hsource⟩ := h.introduces
      exact ofSource_of_lead hlead (hsource ▸ afterTag?_append hbefore (lead ++ '{' :: object))
    refine ⟨⟨fun hnone => ?_, h.ofSource_eq_none⟩, hread⟩
    by_contra hbefore
    rw [hread hbefore] at hnone
    cases hobject : readObject (behindMargin object) with
    | error e => exact nomatch hobject ▸ hnone
    | ok o => exact nomatch hobject ▸ hnone
  · refine ofSource_eq_none fun lead object hlead hafter => ?_
    obtain ⟨before, hsource, -⟩ := exists_of_afterTag? hafter
    exact h before object ⟨lead, hlead, hsource⟩

end Source

/-- Behind the tag stands an asterisk, and behind the object another tag with an object. -/
theorem ofSource_first_object_projectShown :
    IntroducesFirst "/** @fbt * \x7b\"project\": \"web\"\x7d @fbt \x7b\x7d */".toList "/** ".toList
      "\"project\": \"web\"\x7d @fbt \x7b\x7d */".toList ∧
    ofSource "/** @fbt * \x7b\"project\": \"web\"\x7d @fbt \x7b\x7d */" =
      .ok (some { project := some "web" }) := by
  have hspace : Gap isBlank [' '] := .cons (by decide) .nil
  have hlead : Lead ([' '] ++ '*' :: [' ']) := .asterisk hspace (.cons (by decide) .nil)
  have hfirst : IntroducesFirst
      "/** @fbt * \x7b\"project\": \"web\"\x7d @fbt \x7b\x7d */".toList "/** ".toList
      "\"project\": \"web\"\x7d @fbt \x7b\x7d */".toList :=
    Introduces.first ⟨_, hlead, by decide +kernel⟩ (by decide +kernel)
  refine ⟨hfirst, (((ofSource_first_object _).1 _ _ hfirst).2 (by decide +kernel)).trans ?_⟩
  decide +kernel

/-- **Options may be overlooked**: here the tag is mentioned in a comment before the one that has
them. -/
theorem not_heeds_first_object : ¬∀ (source : String) (before object : List Char),
    IntroducesFirst source.toList before object → ofSource source ≠ .ok none := by
  intro hall
  have hlead : Lead [' '] := .broken (.cons (by decide) .nil)
  have hfirst : IntroducesFirst
      "// see @fbt\n/** @fbt \x7b\"project\": \"web\"\x7d */".toList "// see @fbt\n/** ".toList
      "\"project\": \"web\"\x7d */".toList :=
    Introduces.first ⟨_, hlead, by decide +kernel⟩ (by decide +kernel)
  exact hall _ _ _ hfirst (by decide +kernel)

end FileOptions

end Phrasebook
