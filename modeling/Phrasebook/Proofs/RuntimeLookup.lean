import Phrasebook.Proofs.Wordings

/-!
# Looking up a wording at run time

A running program knows the count behind each plural, the gender behind each pronoun and
the key behind each enumeration. It does not know the candidates of an axis: it puts the
key each value is written under one after the other, and follows that path through a text
table. The path ends at a wording only if every key belongs to a candidate of its axis.

That is a matter of four tables that were made apart from each other. The category of a
count is covered by the plural rules, which for a count outside all categories rests on the
fallback (`Phrasebook.PluralRules.category_mem_covered`); the bucket of a gender is among
the buckets its usage meets (`Phrasebook.PronounUsage.bucket_mem_candidates`); an
enumeration has a branch for each of its keys; and a plural always has one for the count
one, so a program may ask for that wording whatever the count is. With these a wording is
found on every level, for all counts, genders and keys
(`Phrasebook.compile_finds_wording`).
-/

namespace Phrasebook

/-! ### Rules and buckets -/

/-- **The category of a count is covered**, if the fallback is. -/
theorem PluralRules.category_mem_covered {r : PluralRules} (h : r.fallback ∈ r.covered) (n : Int) :
    r.category n ∈ r.covered := by
  rw [PluralRules.category]
  split
  · assumption
  · exact h

/-- The plural rules a phrase may be compiled with so that no count is left without a
branch: none at all, those that tell one from many, those of a language, or any whose
fallback is covered. -/
inductive CoversCounts : Option PluralRules → Prop
  | noRules : CoversCounts none
  | english : CoversCounts (some .english)
  | language {code : String} {r : PluralRules} (h : PluralRules.ofLanguageCode code = .ok r) :
    CoversCounts (some r)
  | table {r : PluralRules} (h : r.fallback ∈ r.covered) : CoversCounts (some r)

theorem CoversCounts.fallback_mem_covered {r : PluralRules} (h : CoversCounts (some r)) :
    r.fallback ∈ r.covered := by
  cases h with
  | english => decide
  | language h =>
    rw [PluralRules.ofLanguageCode] at h
    split at h
    · -- the rules of a language fall back to `other`, which all of them cover
      obtain rfl := Except.ok.inj h
      exact List.mem_append_right _ (List.mem_singleton_self _)
    · exact nomatch h
  | table h => exact h

theorem Gender.mem_all (g : Gender) : g ∈ Gender.all := by
  cases g <;> decide

theorem PronounGender.mem_all (b : PronounGender) : b ∈ PronounGender.all := by
  cases b <;> decide

/-- **The bucket of a gender is met by its usage**, unless the gender is ruled out by what
is known of the referent. -/
theorem PronounUsage.bucket_mem_candidates (usage : PronounUsage) {human : Bool} {g : Gender}
    (h : human = true → g ≠ .notAPerson) : usage.bucket g ∈ usage.candidates human := by
  have hg : (!(human && g = .notAPerson)) = true := by
    cases human
    · rfl
    · simpa using h rfl
  refine List.mem_filter.mpr ⟨PronounGender.mem_all _, List.any_eq_true.mpr ⟨g, g.mem_all, ?_⟩⟩
  rw [hg, decide_eq_true rfl]
  rfl

/-! ### The path of run-time values -/

/-- **What a phrase meets at run time**: a count for each plural and a gender for each
pronoun, by the number of its node, and a key for each axis of enumerations, by the keys of
the axis. A count is a whole number of any size, and may also be asked for in the wording of
the singular. -/
structure RuntimeValues where
  count : Nat → Int
  asOne : Nat → Bool
  gender : Nat → Gender
  key : List String → String

/-- Run-time values **fit** a phrase: the referent of a human pronoun is a person, and the
key of an enumeration is one of its own. -/
structure RuntimeValues.Fit (r : RuntimeValues) (p : Phrase) : Prop where
  person : ∀ q ∈ p.placed, ∀ c : Pronoun, q.construct = .pronoun c → c.human = true →
    r.gender q.id ≠ .notAPerson
  declared : ∀ q ∈ p.placed, ∀ e : Enumeration, q.construct = .enumeration e →
    r.key e.keys ∈ e.keys

namespace RuntimeValues

variable (rules : Option PluralRules) (r : RuntimeValues)

/-- The key a construct is looked up by. -/
def keyFor (q : Placed) : String :=
  match q.construct with
  | .plural _ =>
    if r.asOne q.id then "_1"
    else match rules with
      | some s => toString (s.category (r.count q.id)).code
      | none => "*"
  | .pronoun c => (c.usage.bucket (r.gender q.id)).key
  | .enumeration e => r.key e.keys
  | .param _ | .name _ | .text _ | .sameParam _ => "*"

/-- The key an axis is looked up by: that of the constructs that vary along it, or the one
for any gender if it is the axis of the subject. -/
def axisKey (a : Axis) : String :=
  match a.contributors with
  | [] => "*"
  | q :: _ => r.keyFor rules q

/-- **The path that run-time values follow** through a text table, one key for each axis. -/
def path (axes : List Axis) : List String :=
  axes.map (r.axisKey rules)

variable {rules r}

/-- The key of a plural belongs to one of its branches. -/
theorem exists_pluralCandidate (hrules : CoversCounts rules) (id : Nat) (c : Plural) :
    ∃ v ∈ pluralCandidates rules, v.tableKey = r.keyFor rules ⟨id, .plural c⟩ := by
  simp only [keyFor]
  by_cases hone : r.asOne id = true
  · rw [if_pos hone]
    exact ⟨.exactlyOne, List.mem_append_right _ (List.mem_singleton_self _), rfl⟩
  · rw [if_neg hone]
    rcases rules with _ | s
    · exact ⟨.any, List.mem_cons_self, rfl⟩
    · have hcovered := PluralRules.category_mem_covered hrules.fallback_mem_covered (r.count id)
      exact ⟨.bucket _, List.mem_append_left _ (List.mem_map_of_mem hcovered), rfl⟩

/-- **The key of a construct belongs to a candidate of its axis.** -/
theorem exists_candidate_axis? (hrules : CoversCounts rules) {p : Phrase} (hr : r.Fit p)
    {q : Placed} (hq : q ∈ p.placed) {a : Axis} (ha : q.axis? rules = some a) :
    ∃ v ∈ a.candidates, v.tableKey = r.keyFor rules q := by
  obtain ⟨id, construct⟩ := q
  cases construct with
  | text t => exact nomatch ha
  | sameParam s => exact nomatch ha
  | param c =>
    have hany : a.candidates = [.any] := by
      simp only [Placed.axis?] at ha
      split at ha
      · cases ha
        rfl
      · split at ha <;> cases ha
        rfl
    rw [hany]
    exact ⟨.any, List.mem_singleton_self _, rfl⟩
  | name n =>
    cases ha
    exact ⟨.any, List.mem_singleton_self _, rfl⟩
  | plural c =>
    have hplural := exists_pluralCandidate (r := r) hrules id c
    cases ha
    exact hplural
  | pronoun c =>
    have hbucket := c.usage.bucket_mem_candidates (hr.person _ hq c rfl)
    cases ha
    exact ⟨.pronoun _, List.mem_map_of_mem hbucket, rfl⟩
  | enumeration e =>
    have hkey := hr.declared _ hq e rfl
    cases ha
    exact ⟨.key _, List.mem_map_of_mem hkey, rfl⟩

/-- The key of an axis belongs to one of its candidates. -/
theorem exists_candidate (hrules : CoversCounts rules) {p : Phrase} (hr : r.Fit p) {a : Axis}
    (ha : a ∈ p.axes rules) : ∃ v ∈ a.candidates, v.tableKey = r.axisKey rules a := by
  rcases Phrase.mem_axes.mp ha with ⟨rfl, -⟩ | hown
  · exact ⟨.any, List.mem_singleton_self _, rfl⟩
  · -- any contributor would do: those that share an axis have their keys in common
    obtain ⟨q, others, hcontributors⟩ :=
      List.exists_cons_of_ne_nil ((p.collected rules).nonempty a hown)
    have hmem : q ∈ a.contributors := hcontributors ▸ List.mem_cons_self
    have hcontributed := (p.collected rules).contributed a hown q hmem
    have hplaced := (Phrase.varies_of_mem_contributors ha hmem).1
    have hkey := exists_candidate_axis? hrules hr hplaced hcontributed
    rw [axisKey, hcontributors]
    exact hkey

/-- **Run-time values select a signature**, the one whose path they follow. -/
theorem exists_signature {axes : List Axis}
    (h : ∀ a ∈ axes, ∃ v ∈ a.candidates, v.tableKey = r.axisKey rules a) :
    ∃ s : Signature, s.Chooses axes ∧ s.path = r.path rules axes := by
  induction axes with
  | nil => exact ⟨[], List.Forall₂.nil, rfl⟩
  | cons a axes ih =>
    obtain ⟨v, hv, hkey⟩ := h a List.mem_cons_self
    obtain ⟨s, hs, hpath⟩ := ih fun b hb => h b (List.mem_cons_of_mem _ hb)
    exact ⟨v :: s, List.Forall₂.cons hv hs, congrArg₂ List.cons hkey hpath⟩

end RuntimeValues

/-! ### Every look-up succeeds -/

/-- **At run time a wording is always found**: whatever counts, genders and keys a phrase
meets, there is a leaf at the path they follow, in the table of the phrase and in that of
each of its fragments. -/
theorem compile_finds_wording {config : Config} {p : Phrase} {c : CompiledPhrase}
    (h : compile config p = .ok c) (hrules : CoversCounts config.rules) {r : RuntimeValues}
    (hr : r.Fit p) :
    (∃ leaf, c.payload.table.get? (r.path config.rules (p.axes config.rules)) = some leaf) ∧
      ∀ f ∈ c.fragments,
        ∃ leaf, f.payload.table.get? (r.path config.rules (p.axes config.rules)) = some leaf := by
  obtain ⟨-, rfl⟩ := compile_eq_ok_iff.mp h
  obtain ⟨s, hs, hpath⟩ := RuntimeValues.exists_signature
    fun a ha => RuntimeValues.exists_candidate hrules hr ha
  have hlevel : ∀ (describe : Signature → String) (level : List Outline),
      ∃ leaf, (levelPayload (p.axes config.rules) (p.projectUnder config) describe level).table.get?
        (r.path config.rules (p.axes config.rules)) = some leaf := by
    intro describe level
    have hlists := levelPayload_lists (p.keysDistinguish config.rules) (p.projectUnder config)
      describe level
    exact ⟨_, hpath ▸ hlists.get?_path s hs⟩
  refine ⟨?_, fun f hf => ?_⟩
  · rw [payload_assemble]
    exact hlevel _ _
  · rw [fragments_assemble] at hf
    obtain ⟨n, -, rfl⟩ := List.mem_map.mp hf
    exact hlevel _ _

/-- A phrase that varies by its subject, a pronoun, a count and a choice, the last two inside
a fragment. -/
def storyTold : Phrase where
  description := "Who told how many stories"
  options := { subject := some (.identifier "viewer") }
  children :=
    [.construct (.pronoun
      { usage := .subject, gender := .identifier "author", human := true, capitalize := true }),
     .fragment
      [.construct (.enumeration
        { value := .identifier "act", range := [⟨"tell", " told "⟩, ⟨"write", " wrote "⟩] }),
       .construct (.plural
        { singular := "story", count := .identifier "n", many := some "stories" })] {}]

/-- What the phrase meets: two hundred and three stories less than none, written by a woman. -/
def storyTold.values : RuntimeValues where
  count _ := -203
  asOne _ := false
  gender _ := .femaleSingular
  key _ := "write"

/-- In Arabic such a count is one of few, less than nothing or not. -/
theorem compile_finds_wording_storyTold :
    ∃ c, compile { rules := some Language.ar.rules } storyTold = .ok c ∧
      storyTold.values.path (some Language.ar.rules) (storyTold.axes (some Language.ar.rules)) =
        ["*", "1", "write", "20"] ∧
      (∃ leaf, c.payload.table.get? ["*", "1", "write", "20"] = some leaf) ∧
      ∀ f ∈ c.fragments, ∃ leaf, f.payload.table.get? ["*", "1", "write", "20"] = some leaf := by
  have h : compile { rules := some Language.ar.rules } storyTold =
      .ok (assemble { rules := some Language.ar.rules } storyTold) :=
    compile_of_isNone_fault? (by decide +kernel)
  have hplaced : storyTold.placed = [⟨0, _⟩, ⟨2, _⟩, ⟨3, _⟩] := rfl
  have hfit : storyTold.values.Fit storyTold := by
    refine ⟨fun _ _ _ _ _ => Gender.noConfusion, fun q hq e he => ?_⟩
    simp only [hplaced, List.mem_cons, List.not_mem_nil, or_false] at hq
    rcases hq with rfl | rfl | rfl <;> cases he
    decide
  have hrules : CoversCounts (some Language.ar.rules) :=
    .language (show PluralRules.ofLanguageCode "ar" = .ok _ from rfl)
  have hpath : storyTold.values.path (some Language.ar.rules)
      (storyTold.axes (some Language.ar.rules)) = ["*", "1", "write", "20"] := by decide +kernel
  obtain ⟨hroot, hfragments⟩ := compile_finds_wording h hrules hfit
  rw [hpath] at hroot hfragments
  exact ⟨_, h, hpath, hroot, hfragments⟩

end Phrasebook
