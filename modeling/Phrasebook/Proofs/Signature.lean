import Mathlib.Algebra.BigOperators.Group.List.Basic
import Mathlib.Data.List.Forall2
import Phrasebook.Proofs.AxisCollection
import Phrasebook.Signature

/-!
# Signatures are choices, and paths tell them apart

The signatures of a phrase are exactly the ways to choose one candidate on each
of its axes (`Phrasebook.mem_signatures`). Candidates of one axis have different
keys in a text table (`Phrasebook.tableKey_injOn_axis?`), whatever the plural rules and
whatever keys an author gives an enumeration: the fixed keys of different kinds of
values may agree, but no axis mixes kinds, except that a plural adds the count one
to its categories. So different choices have different paths
(`Phrasebook.Signature.Chooses.eq_of_path_eq`).

An author may repeat a key of an enumeration. The choices are the same, but they
are met more than once; `Phrasebook.Axis.distinct` has every candidate once.
-/

namespace Phrasebook

/-- A signature **chooses** a candidate on every axis. -/
def Signature.Chooses (s : Signature) (axes : List Axis) : Prop :=
  List.Forall₂ (fun v a => v ∈ a.candidates) s axes

/-- **The signatures of some axes are their choices.** -/
theorem mem_signatures {s : Signature} {axes : List Axis} :
    s ∈ signatures axes ↔ s.Chooses axes := by
  induction axes generalizing s with
  | nil => simp [signatures, Signature.Chooses]
  | cons a axes ih =>
    rw [signatures, Signature.Chooses, List.forall₂_cons_right_iff]
    simp only [List.mem_flatMap, List.mem_map, ih, Signature.Chooses]
    constructor
    · rintro ⟨v, hv, t, ht, rfl⟩
      exact ⟨v, t, hv, ht, rfl⟩
    · rintro ⟨v, t, hv, ht, rfl⟩
      exact ⟨v, hv, t, ht, rfl⟩

/-! ### Table keys -/

theorem PluralCategory.code_injective {b c : PluralCategory}
    (h : toString b.code = toString c.code) : b = c := by
  revert h
  cases b <;> cases c <;> decide

theorem PluralCategory.toString_code_ne_one (c : PluralCategory) : toString c.code ≠ "_1" := by
  cases c <;> decide

theorem PronounGender.key_injective {b c : PronounGender} (h : b.key = c.key) : b = c := by
  revert h
  cases b <;> cases c <;> decide

theorem tableKey_injOn_pluralCandidates (rules : Option PluralRules) {v w : AxisValue}
    (hv : v ∈ pluralCandidates rules) (hw : w ∈ pluralCandidates rules)
    (h : v.tableKey = w.tableKey) : v = w := by
  rcases rules with _ | r
  · have hone : AxisValue.any.tableKey ≠ AxisValue.exactlyOne.tableKey := by decide
    simp only [pluralCandidates, List.cons_append, List.nil_append, List.mem_cons,
      List.not_mem_nil, or_false] at hv hw
    rcases hv with rfl | rfl <;> rcases hw with rfl | rfl
    · rfl
    · exact absurd h hone
    · exact absurd h.symm hone
    · rfl
  · simp only [pluralCandidates, List.mem_append, List.mem_map, List.mem_singleton] at hv hw
    rcases hv with ⟨b, -, rfl⟩ | rfl <;> rcases hw with ⟨c, -, rfl⟩ | rfl
    · rw [PluralCategory.code_injective h]
    · exact absurd h (PluralCategory.toString_code_ne_one b)
    · exact absurd h.symm (PluralCategory.toString_code_ne_one c)
    · rfl

/-- The candidates a construct brings to its axis have different keys. -/
theorem tableKey_injOn_axis? {rules : Option PluralRules} {q : Placed} {a : Axis}
    (ha : q.axis? rules = some a) {v w : AxisValue} (hv : v ∈ a.candidates)
    (hw : w ∈ a.candidates) (h : v.tableKey = w.tableKey) : v = w := by
  have hany : ∀ {v w : AxisValue}, v ∈ [AxisValue.any] → w ∈ [AxisValue.any] → v = w :=
    fun hv hw => (List.mem_singleton.mp hv).trans (List.mem_singleton.mp hw).symm
  obtain ⟨id, c⟩ := q
  cases c with
  | text t => cases ha
  | sameParam s => cases ha
  | param p =>
    simp only [Placed.axis?] at ha
    split at ha
    · cases ha
      exact hany hv hw
    · split at ha
      · cases ha
        exact hany hv hw
      · cases ha
  | name n =>
    cases ha
    exact hany hv hw
  | plural p =>
    cases ha
    exact tableKey_injOn_pluralCandidates rules hv hw h
  | pronoun p =>
    cases ha
    obtain ⟨b, -, rfl⟩ := List.mem_map.mp hv
    obtain ⟨c, -, rfl⟩ := List.mem_map.mp hw
    rw [PronounGender.key_injective h]
  | enumeration e =>
    cases ha
    obtain ⟨k, -, rfl⟩ := List.mem_map.mp hv
    obtain ⟨l, -, rfl⟩ := List.mem_map.mp hw
    exact congrArg AxisValue.key h

/-- Some axes **tell their candidates apart**: on each, different candidates have
different keys. -/
def KeysDistinguish (axes : List Axis) : Prop :=
  ∀ a ∈ axes, ∀ v ∈ a.candidates, ∀ w ∈ a.candidates, v.tableKey = w.tableKey → v = w

/-- **The axes of a phrase tell their candidates apart.** -/
theorem Phrase.keysDistinguish (rules : Option PluralRules) (p : Phrase) :
    KeysDistinguish (p.axes rules) := by
  intro a ha v hv w hw h
  rcases Phrase.mem_axes.mp ha with ⟨rfl, -⟩ | ha
  · exact (List.mem_singleton.mp hv).trans (List.mem_singleton.mp hw).symm
  · obtain ⟨q, hq⟩ := List.exists_mem_of_ne_nil _ ((p.collected rules).nonempty a ha)
    exact tableKey_injOn_axis? ((p.collected rules).contributed a ha q hq) hv hw h

/-- **Different choices have different paths.** -/
theorem Signature.Chooses.eq_of_path_eq {s t : Signature} {axes : List Axis}
    (hkeys : KeysDistinguish axes) (hs : s.Chooses axes) (ht : t.Chooses axes)
    (h : s.path = t.path) : s = t := by
  induction hs generalizing t with
  | nil => exact (List.forall₂_nil_right_iff.mp ht).symm
  | @cons v a s axes hv _ ih =>
    obtain ⟨w, u, hw, hu, rfl⟩ := List.forall₂_cons_right_iff.mp ht
    obtain ⟨hvw, hpath⟩ := List.cons.inj h
    rw [hkeys a List.mem_cons_self v hv w hw hvw,
      ih (fun b hb => hkeys b (List.mem_cons_of_mem _ hb)) hu hpath]

/-! ### Repeated candidates -/

theorem eraseDups_concat_of_mem {candidates : List AxisValue} {v : AxisValue}
    (h : v ∈ candidates) : (candidates ++ [v]).eraseDups = candidates.eraseDups := by
  rw [List.eraseDups_append]
  simp [List.removeAll, h]

theorem eraseDups_concat_of_notMem {candidates : List AxisValue} {v : AxisValue}
    (h : v ∉ candidates) : (candidates ++ [v]).eraseDups = candidates.eraseDups ++ [v] := by
  rw [List.eraseDups_append]
  simp [List.removeAll, h, List.eraseDups_cons]

/-- An axis with each of its candidates once, where it first stands. -/
def Axis.distinct (a : Axis) : Axis :=
  { a with candidates := a.candidates.eraseDups }

theorem KeysDistinguish.distinct {axes : List Axis} (h : KeysDistinguish axes) :
    KeysDistinguish (axes.map Axis.distinct) := by
  intro b hb v hv w hw
  obtain ⟨a, ha, rfl⟩ := List.mem_map.mp hb
  exact h a ha v (List.mem_eraseDups.mp hv) w (List.mem_eraseDups.mp hw)

theorem Signature.chooses_distinct {s : Signature} {axes : List Axis} :
    s.Chooses (axes.map Axis.distinct) ↔ s.Chooses axes := by
  rw [Signature.Chooses, List.forall₂_map_right_iff]
  simp only [Axis.distinct, List.mem_eraseDups]
  rfl

theorem length_signatures (axes : List Axis) :
    (signatures axes).length = (axes.map (·.candidates.length)).prod := by
  induction axes with
  | nil => rfl
  | cons a axes ih =>
    rw [signatures, List.length_flatMap, List.map_cons, List.prod_cons]
    simp [ih]

end Phrasebook
