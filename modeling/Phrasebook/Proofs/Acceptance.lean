import Phrasebook.Compile
import Phrasebook.Proofs.DrivingCall
import Phrasebook.Proofs.FragmentTokens
import Phrasebook.Proofs.Signature
import Phrasebook.Proofs.Subexpression

/-!
# Which phrases are accepted

A phrase is accepted exactly when it keeps five rules
(`Phrasebook.Phrase.WellFormed`):

* enumerations over the same keys select by the same value;
* a second occurrence of a token comes after its declaration;
* no token is declared twice;
* in a phrase with fragments, no expression that picks a wording holds a call;
* whatever the wording, the tokens of sibling fragments differ from one another
  and from every token declared.

The rules are told of the nodes as they are written. What a construct declares is
read off its kind (`Phrasebook.Construct.declared`), siblings are the nodes of one list
(`Phrasebook.Phrase.nodeLevels`), and the token of a fragment is made of what the
nodes in it mean (`Phrasebook.LevelTokens`). A wording is a choice on each of the
axes that the constructs are sorted into (`Phrasebook.Phrase.SortedInto`).

And a phrase is not rejected for the wrong reason: the error points at a place
where the rule it stands for is broken (`Phrasebook.CompileError.PointsAtFault`).

The passes look at less than the rules do. Only the first contributor of an axis
is asked whether its expression may be evaluated ahead of the phrase; the others
are enumerations, and by the first rule their values are the same. And they look
elsewhere, at the outline and at what it is rendered to
(`Phrasebook.Phrase.fragmentTokensDiffer_iff`).
-/

namespace Phrasebook

/-! ### The rules -/

/-- The tokens that a construct declares: the name of a param or of a person, and the name of a
shown count, which is `number` if it is given none. -/
def Construct.declared : Construct → List TokenName
  | .param p => [p.name]
  | .name n => [n.name]
  | .plural p => if p.showCount = .no then [] else [p.name.getD ⟨"number"⟩]
  | .text _ | .enumeration _ | .pronoun _ | .sameParam _ => []

namespace Phrase

variable (p : Phrase)

/-- The tokens that constructs of a phrase declare, in reading order. -/
def declared : List TokenName :=
  p.constructs.flatMap Construct.declared

/-- Enumerations over the same keys select by the same value. -/
def EnumerationsAgree : Prop :=
  ∀ e f : Enumeration, .enumeration e ∈ p.constructs → .enumeration f ∈ p.constructs →
    e.keys = f.keys → e.value = f.value

/-- A second occurrence of a token comes after its declaration. -/
def ReferencesResolve : Prop :=
  ∀ before s after, p.constructs = before ++ .sameParam s :: after →
    ∃ c ∈ before, s.name ∈ c.declared

/-- No token is declared twice. -/
def DeclaresOnce : Prop :=
  p.declared.Nodup

/-- An expression picks wordings of a phrase: that of a construct, or that of the
whole phrase by its subject. -/
def IsDriver (e : Expr) : Prop :=
  p.options.subject = some e ∨ ∃ c ∈ p.constructs, c.driver? = some e

/-- In a phrase with fragments, no expression that picks a wording holds a
call. -/
def DriversHoldNoCall : Prop :=
  p.HasFragments → ∀ e, p.IsDriver e → ¬e.HoldsCall

/-- Whatever the wording, the tokens of the fragments of one level differ from
one another and from every token declared. -/
def FragmentTokensDiffer (rules : Option PluralRules) : Prop :=
  ∀ s : Signature, s.Chooses (p.axes rules) → ∀ level ∈ p.nodeLevels,
    ∃ tokens, LevelTokens s (p.axes rules) level.1 level.2 tokens ∧
      tokens.Nodup ∧ ∀ t ∈ tokens, t ∉ p.declared

/-- **The rules a phrase must keep.** -/
structure WellFormed (rules : Option PluralRules) : Prop where
  enumerationsAgree : p.EnumerationsAgree
  referencesResolve : p.ReferencesResolve
  declaresOnce : p.DeclaresOnce
  driversHoldNoCall : p.DriversHoldNoCall
  fragmentTokensDiffer : p.FragmentTokensDiffer rules

end Phrase

/-! ### Pointing at a fault -/

/-- The construct at `location` declares a token that one before it declares. -/
def Phrase.RedeclaresAt (p : Phrase) (name : TokenName) (location : Location) : Prop :=
  ∃ before c after, p.constructs = before ++ c :: after ∧ c.location = location ∧
    name ∈ c.declared ∧ ∃ d ∈ before, name ∈ d.declared

/-- Under some signature, the fragment at `location` has the token of a construct,
or that of a sibling before it. -/
def Phrase.FragmentCollidesAt (p : Phrase) (rules : Option PluralRules) (name : TokenName)
    (location : Location) : Prop :=
  ∃ s : Signature, s.Chooses (p.axes rules) ∧ ∃ id before children after,
    (id, before ++ .fragment children location :: after) ∈ p.nodeLevels ∧
    ∃ words tokens, Means s (p.axes rules) .tokenName (id + sizeAll before + 1) children words ∧
      name = ⟨"=" ++ words⟩ ∧ LevelTokens s (p.axes rules) id before tokens ∧
      (name ∈ p.declared ∨ name ∈ tokens)

/-- **An error points at a fault**: the rule it stands for is broken at its
location, in the way it says. Only errors raised for whole phrases do. -/
def CompileError.PointsAtFault (rules : Option PluralRules) (p : Phrase) : CompileError → Prop
  | .malformed cause location =>
    ∃ e f : Enumeration, .enumeration e ∈ p.constructs ∧ .enumeration f ∈ p.constructs ∧
      e.keys = f.keys ∧ e.value ≠ f.value ∧
      cause = .differentValues e.value f.value ∧ location = f.location
  | .unknownSameParam name location =>
    ∃ before s after, p.constructs = before ++ .sameParam s :: after ∧
      s.name = name ∧ s.location = location ∧ ∀ c ∈ before, name ∉ c.declared
  | .tokenCollision name location =>
    p.RedeclaresAt name location ∨ p.FragmentCollidesAt rules name location
  | .unsafeHoist _ construct _ direct location =>
    p.HasFragments ∧ ∃ e : Expr, e.HoldsCall ∧ direct = e.isCall ∧
      (p.options.subject = some e ∧ construct = "subject" ∧ location = p.location ∨
        ∃ c ∈ p.constructs, c.driver? = some e ∧ construct = c.kindLabel ∧
          location = c.location)
  | .invalidOptionValue _ _ _ _ | .unknownOption _ _ _ _ => False

/-- The rule that an error stands for is broken. -/
def CompileError.BreaksRule (rules : Option PluralRules) (p : Phrase) : CompileError → Prop
  | .malformed _ _ => ¬p.EnumerationsAgree
  | .unknownSameParam _ _ => ¬p.ReferencesResolve
  | .tokenCollision _ _ => ¬p.DeclaresOnce ∨ ¬p.FragmentTokensDiffer rules
  | .unsafeHoist _ _ _ _ _ => ¬p.DriversHoldNoCall
  | .invalidOptionValue _ _ _ _ | .unknownOption _ _ _ _ => False

variable {rules : Option PluralRules} {p : Phrase}

/-! ### What the outline shows of the rules -/

/-- A construct declares the token that is looked up for it. -/
theorem Construct.declared_eq (c : Construct) : c.declared = c.token?.toList := by
  cases c with
  | plural p =>
    rw [declared, token?, Plural.shownToken?]
    split <;> rfl
  | _ => rfl

theorem Construct.mem_declared {c : Construct} {t : TokenName} :
    t ∈ c.declared ↔ c.token? = some t := by
  rw [c.declared_eq, Option.mem_toList]

theorem Phrase.declared_eq (p : Phrase) : p.declared = p.constructs.filterMap (·.token?) := by
  rw [declared, List.filterMap_eq_flatMap_toList]
  exact List.flatMap_congr fun c _ => c.declared_eq

theorem Phrase.declaredTokens_placed (p : Phrase) : declaredTokens p.placed = p.declared := by
  rw [p.declared_eq, ← p.map_construct_placed, List.filterMap_map]
  rfl

/-- Tokens of fragments differ on the levels of a phrase if those rendered do on the
levels of its outline. -/
theorem Phrase.fragmentTokensDiffer_iff : p.FragmentTokensDiffer rules ↔
    ∀ s : Signature, s.Chooses (p.axes rules) → ∀ level ∈ p.levels,
      (fragmentTokens (s.valueFor (p.axes rules)) level).Nodup ∧
        ∀ t ∈ fragmentTokens (s.valueFor (p.axes rules)) level, t ∉ p.declared := by
  constructor
  · intro h s hs level hlevel
    obtain ⟨l, hl, ordinal, rfl⟩ := exists_mem_nodeLevels hlevel
    obtain ⟨tokens, htokens, hdiffer⟩ := h s hs l hl
    rwa [(levelTokens_iff hs hlevel).mp htokens]
  · intro h s hs l hl
    obtain ⟨ordinal, hlevel⟩ := exists_outline_mem_levels hl
    exact ⟨_, (levelTokens_iff hs hlevel).mpr rfl, h s hs _ hlevel⟩

/-- A fragment collides where one of the outline does. -/
theorem Phrase.fragmentCollidesAt_iff {name : TokenName} {location : Location} :
    p.FragmentCollidesAt rules name location ↔
      ∃ s : Signature, s.Chooses (p.axes rules) ∧ ∃ level ∈ p.levels,
        ∃ before id ordinal children after,
          level = before ++ .fragment id ordinal location children :: after ∧
          implicitToken (s.valueFor (p.axes rules)) children = name ∧
          (name ∈ p.declared ∨ name ∈ fragmentTokens (s.valueFor (p.axes rules)) before) := by
  constructor
  · rintro ⟨s, hs, id, before, children, after, hl, words, tokens, hwords, rfl, htokens, htaken⟩
    obtain ⟨ordinal, hlevel⟩ := exists_outline_mem_levels hl
    rw [outlineAll_append] at hlevel
    obtain ⟨hbefore, hchildren⟩ := placed_of_fragment_mem_levels hlevel
    refine ⟨s, hs, _, hlevel, _, _, _, _, _, rfl, hwords.implicitToken_eq hchildren, ?_⟩
    rwa [htokens.fragmentTokens_eq hbefore]
  · rintro ⟨s, hs, level, hlevel, before, i, o, children, after, rfl, rfl, htaken⟩
    obtain ⟨⟨id, ns⟩, hl, ordinal, hsplit⟩ := exists_mem_nodeLevels hlevel
    obtain ⟨hbefore, hchildren⟩ := placed_of_fragment_mem_levels hlevel
    obtain ⟨ms, inner, rest, rfl, rfl, ordinal', rfl⟩ :=
      exists_of_outlineAll_eq_append hsplit.symm
    have hmeans := means_renderAll hs inner .tokenName _ _ hchildren
    exact ⟨s, hs, id, ms, inner, rest, hl, _, _, hmeans, hmeans.implicitToken_eq hchildren,
      levelTokens_fragmentTokens hs ms id ordinal hbefore, htaken⟩

/-! ### Faults and rules -/

/-- An error that points at a fault stands for a broken rule. -/
theorem CompileError.PointsAtFault.breaksRule {error : CompileError}
    (h : error.PointsAtFault rules p) : error.BreaksRule rules p := by
  cases error with
  | malformed cause location =>
    obtain ⟨e, f, he, hf, hkeys, hne, -, -⟩ := h
    exact fun hagree => hne (hagree e f he hf hkeys)
  | unknownSameParam name location =>
    obtain ⟨before, s, after, hsplit, rfl, -, hnone⟩ := h
    intro hresolve
    obtain ⟨c, hc, htoken⟩ := hresolve before s after hsplit
    exact hnone c hc htoken
  | tokenCollision name location =>
    rcases h with ⟨before, c, after, hsplit, -, htoken, d, hd, hdtoken⟩ | hcollides
    · refine Or.inl fun honce => ?_
      rw [Phrase.DeclaresOnce, Phrase.declared, hsplit, List.flatMap_append,
        List.flatMap_cons] at honce
      exact (List.nodup_append.mp honce).2.2 name (List.mem_flatMap.mpr ⟨d, hd, hdtoken⟩)
        name (List.mem_append_left _ htoken) rfl
    · obtain ⟨s, hs, level, hlevel, before, id, ordinal, children, after, hsplit, rfl, htaken⟩ :=
        Phrase.fragmentCollidesAt_iff.mp hcollides
      refine Or.inr fun hdiffer => ?_
      obtain ⟨hnd, hdeclared⟩ := Phrase.fragmentTokensDiffer_iff.mp hdiffer s hs level hlevel
      rw [hsplit, fragmentTokens_append, fragmentTokens_fragment] at hnd hdeclared
      rcases htaken with hmem | hmem
      · exact hdeclared _ (List.mem_append_right _ List.mem_cons_self) hmem
      · exact (List.nodup_append.mp hnd).2.2 _ hmem _ List.mem_cons_self rfl
  | unsafeHoist argument construct axis direct location =>
    obtain ⟨hfrag, e, hcall, -, hdriver⟩ := h
    refine fun hplain => hplain hfrag e ?_ hcall
    rcases hdriver with ⟨hsubject, -⟩ | ⟨c, hc, he, -⟩
    · exact Or.inl hsubject
    · exact Or.inr ⟨c, hc, he⟩
  | invalidOptionValue option value allowed location => exact h
  | unknownOption option allowed suggestions location => exact h

/-! ### Merged enumerations -/

theorem Axis.mem_enumerations {a : Axis} {e : Enumeration} :
    e ∈ a.enumerations ↔ ∃ q ∈ a.contributors, q.construct = .enumeration e := by
  rw [Axis.enumerations, List.mem_filterMap]
  refine exists_congr fun q => and_congr_right fun _ => ?_
  obtain ⟨id, c⟩ := q
  cases c <;> simp

theorem Axis.value_eq_of_mergeFault? {a : Axis} (h : a.mergeFault? = none) {e f : Enumeration}
    (he : e ∈ a.enumerations) (hf : f ∈ a.enumerations) : e.value = f.value := by
  rw [Axis.mergeFault?] at h
  split at h
  · rename_i hnil
    rw [hnil] at he
    exact nomatch he
  · rename_i first others hcons
    rw [Option.map_eq_none_iff, List.find?_eq_none] at h
    -- all of them select by the value of the first
    have hfirst : ∀ g ∈ a.enumerations, g.value = first.value := by
      intro g hg
      rcases List.mem_cons.mp (hcons ▸ hg) with rfl | hg
      · rfl
      · exact by_contra fun hne => h g hg (by simpa using hne)
    rw [hfirst e he, hfirst f hf]

theorem Axis.mergeFault?_eq_some {a : Axis} {error : CompileError}
    (h : a.mergeFault? = some error) : ∃ e ∈ a.enumerations, ∃ f ∈ a.enumerations,
      e.value ≠ f.value ∧ error = .malformed (.differentValues e.value f.value) f.location := by
  rw [Axis.mergeFault?] at h
  split at h
  · exact nomatch h
  · rename_i first others hcons
    obtain ⟨other, hother, rfl⟩ := Option.map_eq_some_iff.mp h
    have hne : other.value ≠ first.value := by simpa using List.find?_some hother
    refine ⟨first, ?_, other, ?_, hne.symm, rfl⟩
    · rw [hcons]
      exact List.mem_cons_self
    · rw [hcons]
      exact List.mem_cons_of_mem _ (List.mem_of_find?_eq_some hother)

theorem Phrase.exists_placed {c : Construct} (hc : c ∈ p.constructs) :
    ∃ q ∈ p.placed, q.construct = c := by
  rw [← p.map_construct_placed] at hc
  exact List.mem_map.mp hc

theorem Phrase.construct_mem {q : Placed} (hq : q ∈ p.placed) : q.construct ∈ p.constructs := by
  rw [← p.map_construct_placed]
  exact List.mem_map_of_mem hq

theorem enumerationsAgree_of_mergeFault?
    (h : (p.axes rules).findSome? Axis.mergeFault? = none) : p.EnumerationsAgree := by
  intro e f he hf hkeys
  obtain ⟨q, hq, hqe⟩ := Phrase.exists_placed he
  obtain ⟨r, hr, hrf⟩ := Phrase.exists_placed hf
  have hqo : q.owner? = some (.enumKeys e.keys) := by rw [Placed.owner?, hqe]
  have hro : r.owner? = some (.enumKeys e.keys) := by rw [Placed.owner?, hrf, hkeys]
  have hcol := p.collected rules
  obtain ⟨a, ha, hao⟩ := List.mem_map.mp (hcol.complete q hq _ hqo)
  have hmem : ∀ {s : Placed}, s ∈ p.placed → s.owner? = some (.enumKeys e.keys) →
      s ∈ a.contributors := fun hs hso => (hcol.mem_contributors ha).mpr ⟨hs, hao ▸ hso⟩
  exact Axis.value_eq_of_mergeFault?
    (List.findSome?_eq_none_iff.mp h a (Phrase.mem_axes.mpr (Or.inr ha)))
    (Axis.mem_enumerations.mpr ⟨q, hmem hq hqo, hqe⟩)
    (Axis.mem_enumerations.mpr ⟨r, hmem hr hro, hrf⟩)

theorem pointsAtFault_of_mergeFault? {error : CompileError}
    (h : (p.axes rules).findSome? Axis.mergeFault? = some error) :
    error.PointsAtFault rules p := by
  obtain ⟨a, ha, hfault⟩ := List.exists_of_findSome?_eq_some h
  obtain ⟨e, he, f, hf, hne, rfl⟩ := Axis.mergeFault?_eq_some hfault
  obtain ⟨q, hq, hqe⟩ := Axis.mem_enumerations.mp he
  obtain ⟨r, hr, hrf⟩ := Axis.mem_enumerations.mp hf
  rcases Phrase.mem_axes.mp ha with ⟨rfl, -⟩ | ha
  · exact nomatch hq
  have hcol := p.collected rules
  obtain ⟨hqp, hqo⟩ := (hcol.mem_contributors ha).mp hq
  obtain ⟨hrp, hro⟩ := (hcol.mem_contributors ha).mp hr
  have hkeys : e.keys = f.keys := by
    have howner : some (AxisOwner.enumKeys e.keys) = some (.enumKeys f.keys) := by
      rw [Placed.owner?, hqe] at hqo
      rw [Placed.owner?, hrf] at hro
      exact hqo.trans hro.symm
    exact AxisOwner.enumKeys.inj (Option.some.inj howner)
  exact ⟨e, f, hqe ▸ Phrase.construct_mem hqp, hrf ▸ Phrase.construct_mem hrp, hkeys, hne,
    rfl, rfl⟩

/-! ### Declarations -/

section Declarations

/-- Every second occurrence among some constructs comes after its declaration,
which may also be among `known`. -/
def Resolve (known : List TokenName) (cs : List Construct) : Prop :=
  ∀ before s after, cs = before ++ .sameParam s :: after →
    s.name ∈ known ∨ ∃ c ∈ before, c.token? = some s.name

theorem Resolve.cons {known known' : List TokenName} {c : Construct} {cs : List Construct}
    (h : Resolve known' cs) (hknown : ∀ t ∈ known', t ∈ known ∨ c.token? = some t)
    (hc : ∀ s, c = .sameParam s → s.name ∈ known) : Resolve known (c :: cs) := by
  intro before s after hsplit
  rcases before with _ | ⟨d, before⟩
  · exact Or.inl (hc s (List.cons.inj hsplit).1)
  · obtain ⟨rfl, hcs⟩ := List.cons.inj hsplit
    rcases h before s after hcs with hmem | ⟨d, hd, htoken⟩
    · exact (hknown _ hmem).imp_right fun htoken => ⟨c, List.mem_cons_self, htoken⟩
    · exact Or.inr ⟨d, List.mem_cons_of_mem _ hd, htoken⟩

/-- What the walk over declarations checks, from any tokens declared before it. -/
theorem declarationFault?_eq_none {known : List TokenName} {cs : List Construct}
    (h : declarationFault? known cs = none) :
    Resolve known cs ∧ (cs.filterMap (·.token?)).Nodup ∧
      ∀ t ∈ cs.filterMap (·.token?), t ∉ known := by
  fun_induction declarationFault? known cs with
  | case1 known =>
    refine ⟨fun before s after hsplit => ?_, List.nodup_nil, by simp⟩
    exact absurd hsplit (by simp)
  | case2 known s rest hmem ih =>
    obtain ⟨hresolve, hnd, hnew⟩ := ih h
    refine ⟨hresolve.cons (fun t ht => Or.inl ht) ?_, hnd, hnew⟩
    rintro _ ⟨⟩
    exact hmem
  | case3 known s rest hmem => exact nomatch h
  | case4 known c rest hsame hnone ih =>
    obtain ⟨hresolve, hnd, hnew⟩ := ih h
    rw [List.filterMap_cons_none hnone]
    exact ⟨hresolve.cons (fun t ht => Or.inl ht) fun s hs => absurd hs (hsame s), hnd, hnew⟩
  | case5 known c rest hsame token htoken hmem => exact nomatch h
  | case6 known c rest hsame token htoken hmem ih =>
    obtain ⟨hresolve, hnd, hnew⟩ := ih h
    rw [List.filterMap_cons_some htoken]
    refine ⟨hresolve.cons (fun t ht => ?_) fun s hs => absurd hs (hsame s), ?_, ?_⟩
    · rcases List.mem_cons.mp ht with rfl | ht
      · exact Or.inr htoken
      · exact Or.inl ht
    · exact List.nodup_cons.mpr ⟨fun ht => hnew token ht List.mem_cons_self, hnd⟩
    · intro t ht
      rcases List.mem_cons.mp ht with rfl | ht
      · exact hmem
      · exact fun hk => hnew t ht (List.mem_cons_of_mem _ hk)

/-- Where the walk over declarations stops. -/
theorem declarationFault?_eq_some {known : List TokenName} {cs : List Construct}
    {error : CompileError} (h : declarationFault? known cs = some error) :
    ∃ before c after, cs = before ++ c :: after ∧
      ((∃ s, c = .sameParam s ∧ error = .unknownSameParam s.name s.location ∧
          s.name ∉ known ∧ ∀ d ∈ before, d.token? ≠ some s.name) ∨
        ∃ t, c.token? = some t ∧ error = .tokenCollision t c.location ∧
          (t ∈ known ∨ ∃ d ∈ before, d.token? = some t)) := by
  fun_induction declarationFault? known cs with
  | case1 known => exact nomatch h
  | case2 known s rest hmem ih =>
    obtain ⟨before, c, after, rfl, hc⟩ := ih h
    refine ⟨.sameParam s :: before, c, after, rfl, ?_⟩
    simpa [Construct.token?] using hc
  | case3 known s rest hmem =>
    obtain rfl := Option.some.inj h
    exact ⟨[], _, rest, rfl, Or.inl ⟨s, rfl, rfl, hmem, by simp⟩⟩
  | case4 known c rest hsame hnone ih =>
    obtain ⟨before, d, after, rfl, hd⟩ := ih h
    refine ⟨c :: before, d, after, rfl, ?_⟩
    simpa [hnone] using hd
  | case5 known c rest hsame token htoken hmem =>
    obtain rfl := Option.some.inj h
    exact ⟨[], c, rest, rfl, Or.inr ⟨token, htoken, rfl, Or.inl hmem⟩⟩
  | case6 known c rest hsame token htoken hmem ih =>
    obtain ⟨before, d, after, rfl, hd⟩ := ih h
    refine ⟨c :: before, d, after, rfl, ?_⟩
    rcases hd with ⟨s, rfl, he, hnew, hbefore⟩ | ⟨t, ht, he, hold⟩
    · rw [List.mem_cons, not_or] at hnew
      refine Or.inl ⟨s, rfl, he, hnew.2, fun e hmem => ?_⟩
      rcases List.mem_cons.mp hmem with rfl | hmem
      · rw [htoken]
        exact fun hc => hnew.1 (Option.some.inj hc).symm
      · exact hbefore e hmem
    · refine Or.inr ⟨t, ht, he, ?_⟩
      rcases hold with hold | ⟨e, hmem, hte⟩
      · rcases List.mem_cons.mp hold with rfl | hold
        · exact Or.inr ⟨c, List.mem_cons_self, htoken⟩
        · exact Or.inl hold
      · exact Or.inr ⟨e, List.mem_cons_of_mem _ hmem, hte⟩

theorem referencesResolve_of_declarationFault? (h : declarationFault? [] p.constructs = none) :
    p.ReferencesResolve := by
  intro before s after hsplit
  obtain ⟨c, hc, htoken⟩ :=
    ((declarationFault?_eq_none h).1 before s after hsplit).resolve_left List.not_mem_nil
  exact ⟨c, hc, Construct.mem_declared.mpr htoken⟩

theorem declaresOnce_of_declarationFault? (h : declarationFault? [] p.constructs = none) :
    p.DeclaresOnce := by
  rw [Phrase.DeclaresOnce, p.declared_eq]
  exact (declarationFault?_eq_none h).2.1

theorem pointsAtFault_of_declarationFault? {error : CompileError}
    (h : declarationFault? [] p.constructs = some error) : error.PointsAtFault rules p := by
  obtain ⟨before, c, after, hsplit, hc⟩ := declarationFault?_eq_some h
  rcases hc with ⟨s, rfl, rfl, -, hbefore⟩ | ⟨t, htoken, rfl, hold⟩
  · refine ⟨before, s, after, hsplit, rfl, rfl, fun d hd => ?_⟩
    exact mt Construct.mem_declared.mp (hbefore d hd)
  · obtain ⟨d, hd, hdtoken⟩ := hold.resolve_left List.not_mem_nil
    exact Or.inl ⟨before, c, after, hsplit, rfl, Construct.mem_declared.mpr htoken, d, hd,
      Construct.mem_declared.mpr hdtoken⟩

end Declarations

/-! ### Collisions of fragments -/

section Collisions

variable {values : Assignment} {taken : List TokenName} {level : List Outline}

theorem levelCollision?_eq_none (h : levelCollision? values taken level = none) :
    (fragmentTokens values level).Nodup ∧ ∀ t ∈ fragmentTokens values level, t ∉ taken := by
  fun_induction levelCollision? values taken level with
  | case1 taken => simp
  | case2 taken id c rest ih => exact ih h
  | case3 taken id ordinal location children rest token hmem => exact nomatch h
  | case4 taken id ordinal location children rest token hmem ih =>
    obtain ⟨hnd, hnew⟩ := ih h
    rw [fragmentTokens_fragment]
    refine ⟨List.nodup_cons.mpr ⟨fun ht => hnew token ht List.mem_cons_self, hnd⟩, ?_⟩
    intro t ht
    rcases List.mem_cons.mp ht with rfl | ht
    · exact hmem
    · exact fun hk => hnew t ht (List.mem_cons_of_mem _ hk)

theorem levelCollision?_eq_some {error : CompileError}
    (h : levelCollision? values taken level = some error) :
    ∃ before id ordinal location children after,
      level = before ++ .fragment id ordinal location children :: after ∧
      error = .tokenCollision (implicitToken values children) location ∧
      (implicitToken values children ∈ taken ∨
        implicitToken values children ∈ fragmentTokens values before) := by
  fun_induction levelCollision? values taken level with
  | case1 taken => exact nomatch h
  | case2 taken id c rest ih =>
    obtain ⟨before, id', ordinal, location, children, after, rfl, he, hold⟩ := ih h
    exact ⟨.construct id c :: before, id', ordinal, location, children, after, rfl, he, hold⟩
  | case3 taken id ordinal location children rest token hmem =>
    exact ⟨[], id, ordinal, location, children, rest, rfl, (Option.some.inj h).symm,
      Or.inl hmem⟩
  | case4 taken id ordinal location children rest token hmem ih =>
    obtain ⟨before, id', ordinal', location', children', after, rfl, he, hold⟩ := ih h
    refine ⟨.fragment id ordinal location children :: before, id', ordinal', location',
      children', after, rfl, he, ?_⟩
    rw [fragmentTokens_fragment, List.mem_cons]
    rcases hold with hold | hold
    · rcases List.mem_cons.mp hold with hold | hold
      · exact Or.inr (Or.inl hold)
      · exact Or.inl hold
    · exact Or.inr (Or.inr hold)

/-- The first collision of a fragment under any signature. -/
def Phrase.collision? (rules : Option PluralRules) (p : Phrase) : Option CompileError :=
  (signatures (p.axes rules)).findSome? fun s =>
    collisionFault? (s.valueFor (p.axes rules)) p.declared p.levels

theorem fragmentTokensDiffer_of_collision? (h : p.collision? rules = none) :
    p.FragmentTokensDiffer rules := by
  refine Phrase.fragmentTokensDiffer_iff.mpr fun s hs level hlevel => ?_
  have hfault := List.findSome?_eq_none_iff.mp h s (mem_signatures.mpr hs)
  exact levelCollision?_eq_none (List.findSome?_eq_none_iff.mp hfault level hlevel)

theorem pointsAtFault_of_collision? {error : CompileError}
    (h : p.collision? rules = some error) : error.PointsAtFault rules p := by
  obtain ⟨s, hs, hfault⟩ := List.exists_of_findSome?_eq_some h
  obtain ⟨level, hlevel, hcollision⟩ := List.exists_of_findSome?_eq_some hfault
  obtain ⟨before, id, ordinal, location, children, after, hsplit, rfl, hold⟩ :=
    levelCollision?_eq_some hcollision
  exact Or.inr (Phrase.fragmentCollidesAt_iff.mpr ⟨s, mem_signatures.mp hs, level, hlevel, before,
    id, ordinal, children, after, hsplit, rfl, hold⟩)

end Collisions

/-! ### Evaluation ahead of the phrase -/

section Hoisting

variable {a : Axis} {subject : Option Expr} {root : Location} {index : Nat}

theorem Axis.not_hasCall_of_hoistFault? (h : a.hoistFault? subject root index = none)
    {call : Call} {argument : String} {e : Expr} (hcall : a.call? subject = some call)
    (hdriving : call.driving? = some (argument, e)) : ¬e.hasCall = true := by
  intro he
  simp [Axis.hoistFault?, hcall, hdriving, he] at h

theorem Axis.hoistFault?_eq_some {error : CompileError}
    (h : a.hoistFault? subject root index = some error) :
    ∃ call argument e, a.call? subject = some call ∧ call.driving? = some (argument, e) ∧
      e.hasCall = true ∧
      (a.contributors = [] → error = .unsafeHoist argument "subject" index e.isCall root) ∧
      ∀ q rest, a.contributors = q :: rest →
        error = .unsafeHoist argument q.construct.kindLabel index e.isCall
          q.construct.location := by
  obtain ⟨call, hcall, h⟩ := Option.bind_eq_some_iff.mp h
  obtain ⟨⟨argument, e⟩, hdriving, h⟩ := Option.bind_eq_some_iff.mp h
  refine ⟨call, argument, e, hcall, hdriving, ?_⟩
  dsimp only at h
  split at h
  · rename_i he
    refine ⟨he, fun hnil => ?_, fun q rest hcons => ?_⟩
    · rw [hnil] at h
      exact (Option.some.inj h).symm
    · rw [hcons] at h
      exact (Option.some.inj h).symm
  · exact nomatch h

theorem driversHoldNoCall_of_hoistFault? (hagree : p.EnumerationsAgree)
    (h : hoistFault? p.options.subject p.location (p.axes rules) = none) :
    ∀ e, p.IsDriver e → ¬e.HoldsCall := by
  have haxis : ∀ b ∈ p.axes rules, ∀ call argument e, b.call? p.options.subject = some call →
      call.driving? = some (argument, e) → ¬e.HoldsCall := by
    intro b hb call argument e hcall hdriving
    obtain ⟨i, hi, rfl⟩ := List.getElem_of_mem hb
    rw [← Expr.hasCall_iff]
    refine Axis.not_hasCall_of_hoistFault? (List.findSome?_eq_none_iff.mp h (_, i) ?_) hcall
      hdriving
    exact List.mk_mem_zipIdx_iff_getElem?.mpr (List.getElem?_eq_getElem hi)
  rintro e (hsubject | ⟨c, hc, hdriver⟩)
  · refine haxis subjectAxis (Phrase.mem_axes.mpr (Or.inl ⟨rfl, ?_⟩)) (.subject e) "subject" e
      ?_ rfl
    · rw [hsubject]
      rfl
    · rw [call?_subjectAxis, hsubject]
      rfl
  · obtain ⟨q, hq, rfl⟩ := Phrase.exists_placed hc
    obtain ⟨b, hb, hqb⟩ :=
      Phrase.exists_axis_of_varies rules hq (Construct.varies_of_driver? hdriver)
    obtain ⟨-, hqo⟩ := ((p.collected rules).mem_contributors hb).mp hqb
    obtain ⟨r, rest, -, hr, hro, hcall⟩ := Phrase.exists_leader hb p.options.subject
    -- the leader picks by the same expression, and it is the leader that was asked
    have hsame : r.construct.driver? = some e := by
      rw [← hdriver]
      refine Placed.driver?_eq_of_owner?_eq p.nodup_ids (fun f g hf hg => hagree f g ?_ ?_) hr hq
        hro hqo
      · exact hf ▸ Phrase.construct_mem hr
      · exact hg ▸ Phrase.construct_mem hq
    rw [← Construct.driving?_call?] at hsame
    obtain ⟨⟨argument, e'⟩, hdriving, rfl⟩ := Option.map_eq_some_iff.mp hsame
    obtain ⟨call, hcallr, hdriving⟩ := Option.bind_eq_some_iff.mp hdriving
    exact haxis b (Phrase.mem_axes.mpr (Or.inr hb)) call argument e' (hcall.trans hcallr) hdriving

theorem pointsAtFault_of_hoistFault? {error : CompileError} (hfrag : p.HasFragments)
    (h : hoistFault? p.options.subject p.location (p.axes rules) = some error) :
    error.PointsAtFault rules p := by
  obtain ⟨⟨b, i⟩, hb, hfault⟩ := List.exists_of_findSome?_eq_some h
  obtain ⟨call, argument, e, hcall, hdriving, he, hnil, hcons⟩ :=
    Axis.hoistFault?_eq_some hfault
  rw [Expr.hasCall_iff] at he
  rcases Phrase.mem_axes.mp (List.fst_mem_of_mem_zipIdx hb) with ⟨rfl, -⟩ | hb
  · rw [hnil rfl]
    rw [call?_subjectAxis] at hcall
    obtain ⟨g, hg, rfl⟩ := Option.map_eq_some_iff.mp hcall
    obtain ⟨rfl, rfl⟩ := Prod.mk.inj (Option.some.inj hdriving)
    exact ⟨hfrag, g, he, rfl, Or.inl ⟨hg, rfl, rfl⟩⟩
  · obtain ⟨q, rest, hq, hqp, -, hcallq⟩ := Phrase.exists_leader hb p.options.subject
    rw [hcons q rest hq]
    refine ⟨hfrag, e, he, rfl, Or.inr ⟨q.construct, Phrase.construct_mem hqp, ?_, rfl, rfl⟩⟩
    rw [← Construct.driving?_call?, ← hcallq, hcall]
    exact congrArg (Option.map Prod.snd) hdriving

end Hoisting

/-! ### Acceptance -/

/-- The faults of a phrase, in the order they are looked for. -/
theorem fault?_eq (rules : Option PluralRules) (p : Phrase) :
    fault? rules p = ((p.axes rules).findSome? Axis.mergeFault?).or
      ((declarationFault? [] p.constructs).or
        ((if p.HasFragments then hoistFault? p.options.subject p.location (p.axes rules)
          else none).or (p.collision? rules))) := by
  have hdeclared : declaredTokens (constructsAll p.outline) = p.declared := p.declaredTokens_placed
  have hconstructs : (constructsAll p.outline).map (·.construct) = p.constructs :=
    p.map_construct_placed
  simp only [fault?, hdeclared, hconstructs, p.hasFragment_outline]
  rfl

theorem wellFormed_of_fault? (h : fault? rules p = none) : p.WellFormed rules := by
  rw [fault?_eq, Option.or_eq_none_iff, Option.or_eq_none_iff, Option.or_eq_none_iff] at h
  obtain ⟨hmerge, hdeclare, hhoist, hcollision⟩ := h
  have hagree := enumerationsAgree_of_mergeFault? hmerge
  refine ⟨hagree, referencesResolve_of_declarationFault? hdeclare,
    declaresOnce_of_declarationFault? hdeclare, fun hfrag => ?_,
    fragmentTokensDiffer_of_collision? hcollision⟩
  rw [if_pos hfrag] at hhoist
  exact driversHoldNoCall_of_hoistFault? hagree hhoist

theorem pointsAtFault_of_fault? {error : CompileError} (h : fault? rules p = some error) :
    error.PointsAtFault rules p := by
  rw [fault?_eq, Option.or_eq_some_iff] at h
  rcases h with hmerge | ⟨-, h⟩
  · exact pointsAtFault_of_mergeFault? hmerge
  rw [Option.or_eq_some_iff] at h
  rcases h with hdeclare | ⟨-, h⟩
  · exact pointsAtFault_of_declarationFault? hdeclare
  rw [Option.or_eq_some_iff] at h
  rcases h with hhoist | ⟨-, hcollision⟩
  · split at hhoist
    · exact pointsAtFault_of_hoistFault? ‹_› hhoist
    · exact nomatch hhoist
  · exact pointsAtFault_of_collision? hcollision

theorem CompileError.BreaksRule.not_wellFormed {error : CompileError}
    (h : error.BreaksRule rules p) : ¬p.WellFormed rules := by
  intro hwf
  cases error with
  | malformed cause location => exact h hwf.enumerationsAgree
  | unknownSameParam name location => exact h hwf.referencesResolve
  | tokenCollision name location =>
    rcases h with h | h
    · exact h hwf.declaresOnce
    · exact h hwf.fragmentTokensDiffer
  | unsafeHoist argument construct axis direct location => exact h hwf.driversHoldNoCall
  | invalidOptionValue option value allowed location => exact h
  | unknownOption option allowed suggestions location => exact h

/-- A phrase that keeps the rules is compiled, and no other is. -/
theorem compile_eq_ok_iff {config : Config} {c : CompiledPhrase} :
    compile config p = .ok c ↔ p.WellFormed config.rules ∧ assemble config p = c := by
  rw [compile]
  rcases hfault : fault? config.rules p with _ | error
  · simp [wellFormed_of_fault? hfault]
  · simp [(pointsAtFault_of_fault? hfault).breaksRule.not_wellFormed]

/-- A phrase is compiled if no fault is found in it. -/
theorem compile_of_isNone_fault? {config : Config} (h : (fault? config.rules p).isNone = true) :
    compile config p = .ok (assemble config p) := by
  rw [compile, Option.isNone_iff_eq_none.mp h]

/-- **Acceptance is exact**: a phrase is compiled exactly when it keeps the rules,
and the error it is rejected with points at a place where the rule it stands for
is broken. -/
theorem compile_accepts_iff (config : Config) (p : Phrase) :
    ((∃ c, compile config p = .ok c) ↔ p.WellFormed config.rules) ∧
      ∀ error, compile config p = .error error →
        error.PointsAtFault config.rules p ∧ error.BreaksRule config.rules p := by
  refine ⟨?_, fun error h => ?_⟩
  · simp only [compile_eq_ok_iff, exists_and_left, exists_eq', and_true]
  · rw [compile] at h
    split at h
    · rename_i found hfault
      have hpoints := pointsAtFault_of_fault? (Except.error.inj h ▸ hfault)
      exact ⟨hpoints, hpoints.breaksRule⟩
    · exact nomatch h

/-- A phrase that names the user first. -/
def userNamed (rest : List Node) : Phrase where
  description := "What a user did"
  children := .construct (.param { name := ⟨"user"⟩, value := .identifier "user" }) :: rest

/-- Two fragments with the same words, inside another. -/
def linksAlike : List Node :=
  [.fragment
    [.fragment [.construct (.text { value := "here" })] {},
     .construct (.text { value := " or " }),
     .fragment [.construct (.text { value := "here" })] { line := 3, column := 7 }] {}]

/-- The user may be referred to again inside a fragment, but not declared again there. Two
fragments may not read alike side by side, though one may read like the one around it. -/
theorem compile_accepts_iff_userNamed :
    let again : Phrase :=
      userNamed [.fragment [.construct (.sameParam { name := ⟨"user"⟩ })] {}]
    let nested : Phrase :=
      userNamed [.fragment [.fragment [.construct (.text { value := "here" })] {}] {}]
    let twice : Phrase :=
      userNamed [.fragment
        [.construct (.param
          { name := ⟨"user"⟩, value := .identifier "user",
            location := { line := 2, column := 5 } })] {}]
    let redeclared : CompileError := .tokenCollision ⟨"user"⟩ { line := 2, column := 5 }
    let collides : CompileError := .tokenCollision ⟨"=here"⟩ { line := 3, column := 7 }
    again.WellFormed none ∧ nested.WellFormed none ∧
      (compile {} twice = .error redeclared ∧ redeclared.PointsAtFault none twice ∧
        ¬twice.WellFormed none) ∧
      compile {} (userNamed linksAlike) = .error collides ∧
        collides.PointsAtFault none (userNamed linksAlike) ∧
        ¬(userNamed linksAlike).WellFormed none := by
  intro again nested twice redeclared collides
  have htwice : compile {} twice = .error redeclared := rfl
  have halike : compile {} (userNamed linksAlike) = .error collides := rfl
  obtain ⟨hredeclared, hbreaks⟩ := (compile_accepts_iff {} twice).2 redeclared htwice
  obtain ⟨hcollides, hbreaks'⟩ := (compile_accepts_iff {} (userNamed linksAlike)).2 collides halike
  refine ⟨(compile_accepts_iff {} again).1.mp ⟨_, compile_of_isNone_fault? (by decide +kernel)⟩,
    (compile_accepts_iff {} nested).1.mp ⟨_, compile_of_isNone_fault? (by decide +kernel)⟩, ?_, ?_⟩
  · exact ⟨htwice, hredeclared, hbreaks.not_wellFormed⟩
  · exact ⟨halike, hcollides, hbreaks'.not_wellFormed⟩

end Phrasebook
