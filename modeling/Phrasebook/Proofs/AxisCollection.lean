import Mathlib.Data.List.Perm.Subperm
import Mathlib.Data.List.Induction
import Phrasebook.Axis
import Phrasebook.Proofs.Outline

/-!
# Collecting axes sorts constructs by their owner

The axes of a phrase are built one construct at a time, each construct joining an
axis collected before or opening one at the end. What comes out is a
**partition**: two constructs stand on one axis exactly when their axes have the
same owner (`Phrasebook.Placed.owner?`), and the axes stand in the order of their
first contributors, their **leaders**.

`Phrasebook.Collected` says so of the axes of the constructs read so far. It is
kept by reading one construct more (`Phrasebook.Collected.snoc`), so it holds of
a whole phrase (`Phrasebook.Phrase.collected`), whose subject, if it has one,
puts an axis without contributors in front (`Phrasebook.Phrase.axes_eq`).
-/

namespace Phrasebook

/-! ### The owner of a construct's axis -/

/-- Whether the wording of a construct depends on a runtime value. -/
def Construct.varies : Construct → Bool
  | .param q => q.number || q.gender.isSome
  | .name _ | .pronoun _ | .plural _ | .enumeration _ => true
  | .text _ | .sameParam _ => false

/-- Whose the axis of a construct is: its own, but for an enumeration, which
shares one with all enumerations over its keys. -/
def Placed.owner? (q : Placed) : Option AxisOwner :=
  match q.construct with
  | .enumeration e => some (.enumKeys e.keys)
  | c => if c.varies then some (.node q.id) else none

theorem Placed.isSome_owner? (q : Placed) : q.owner?.isSome = q.construct.varies := by
  obtain ⟨id, c⟩ := q
  cases c <;> simp [Placed.owner?, Construct.varies, apply_ite Option.isSome]

variable {rules : Option PluralRules} {q : Placed} {a : Axis}

/-- Only enumerations share an owner. -/
theorem Placed.owner?_cases {owner : AxisOwner} (h : q.owner? = some owner) :
    owner = .node q.id ∨
      ∃ e, q.construct = .enumeration e ∧ owner = .enumKeys e.keys := by
  obtain ⟨id, c⟩ := q
  cases c with
  | enumeration e => exact Or.inr ⟨e, rfl, (Option.some.inj h).symm⟩
  | _ =>
    simp only [Placed.owner?] at h
    split at h
    · exact Or.inl (Option.some.inj h).symm
    · exact nomatch h

theorem Placed.map_owner_axis? (rules : Option PluralRules) (q : Placed) :
    (q.axis? rules).map (·.owner) = q.owner? := by
  obtain ⟨id, c⟩ := q
  cases c with
  | param p =>
    rcases hn : p.number with _ | _ <;> rcases hg : p.gender with _ | _ <;>
      simp [Placed.axis?, Placed.owner?, Placed.ownAxis, Construct.varies, hn, hg]
  | _ => rfl

/-- **What a construct contributes**: an axis of its own, or the one axis there
is for the keys of an enumeration. -/
theorem Placed.axis?_cases (h : q.axis? rules = some a) :
    a.contributors = [q] ∧ (a.owner = .node q.id ∨
      ∃ keys, a = ⟨.enumChoice, .enumKeys keys, keys.map .key, none, [q]⟩) := by
  obtain ⟨id, c⟩ := q
  cases c with
  | param p =>
    simp only [Placed.axis?] at h
    split at h
    · cases h
      exact ⟨rfl, Or.inl rfl⟩
    · split at h
      · cases h
        exact ⟨rfl, Or.inl rfl⟩
      · cases h
  | enumeration e =>
    cases h
    exact ⟨rfl, Or.inr ⟨e.keys, rfl⟩⟩
  | name n => cases h; exact ⟨rfl, Or.inl rfl⟩
  | pronoun p => cases h; exact ⟨rfl, Or.inl rfl⟩
  | plural p => cases h; exact ⟨rfl, Or.inl rfl⟩
  | text t => cases h
  | sameParam s => cases h

theorem Placed.owner_ne_subject (h : q.axis? rules = some a) : a.owner ≠ .subject := by
  rcases (Placed.axis?_cases h).2 with ho | ⟨keys, rfl⟩
  · rw [ho]
    exact fun hc => nomatch hc
  · exact fun hc => nomatch hc

/-- Two constructs whose axes have one owner contribute the same axis. -/
theorem Placed.axis?_eq_of_owner_eq {r : Placed} {b : Axis} (hq : q.axis? rules = some a)
    (hr : r.axis? rules = some b) (ho : b.owner = a.owner) (hid : r.id ≠ q.id) :
    a = { b with contributors := [q] } := by
  rcases (Placed.axis?_cases hq).2 with hqo | ⟨keys, rfl⟩ <;>
    rcases (Placed.axis?_cases hr).2 with hro | ⟨keys', rfl⟩
  · rw [hqo, hro] at ho
    exact absurd (AxisOwner.node.inj ho) hid
  · rw [hqo] at ho
    exact nomatch ho
  · rw [hro] at ho
    exact nomatch ho
  · obtain rfl : keys' = keys := AxisOwner.enumKeys.inj ho
    rfl

/-! ### Joining an axis -/

/-- An axis, joined by the contributors of another if the two have one owner. -/
def Axis.join (a b : Axis) : Axis :=
  { b with contributors := b.contributors ++ if b.owner = a.owner then a.contributors else [] }

theorem Axis.join_of_ne {b : Axis} (h : b.owner ≠ a.owner) : a.join b = b := by
  rw [Axis.join, if_neg h, List.append_nil]

theorem addAxis_of_notMem {axes : List Axis} (h : a.owner ∉ axes.map (·.owner)) :
    addAxis axes a = axes ++ [a] := by
  induction axes with
  | nil => rfl
  | cons b bs ih =>
    rw [List.map_cons, List.mem_cons, not_or] at h
    rw [addAxis, if_neg (fun he => h.1 he.symm), ih h.2, List.cons_append]

theorem addAxis_of_mem {axes : List Axis} (hnd : (axes.map (·.owner)).Nodup)
    (h : a.owner ∈ axes.map (·.owner)) : addAxis axes a = axes.map a.join := by
  induction axes with
  | nil => simp at h
  | cons b bs ih =>
    rw [List.map_cons, List.nodup_cons] at hnd
    rw [addAxis, List.map_cons]
    by_cases hb : b.owner = a.owner
    · -- no later axis has this owner, so none of them changes
      have hbs : bs.map a.join = bs :=
        (List.map_congr_left fun c hc => Axis.join_of_ne fun hca =>
          hnd.1 (List.mem_map.mpr ⟨c, hc, hca.trans hb.symm⟩)).trans (List.map_id bs)
      rw [if_pos hb, hbs, Axis.join, if_pos hb]
    · rw [List.map_cons, List.mem_cons] at h
      rw [if_neg hb, Axis.join_of_ne hb, ih hnd.2 (h.resolve_left fun he => hb he.symm)]

/-! ### The axes of the constructs read so far -/

/-- The axes that some constructs contribute, in the order of their leaders. -/
def drivenAxes (rules : Option PluralRules) (placed : List Placed) : List Axis :=
  (placed.filterMap (Placed.axis? rules)).foldl addAxis []

/-- The first contributor of every axis that has one. -/
def leaders (axes : List Axis) : List Placed :=
  axes.filterMap (·.contributors.head?)

/-- **Some axes sort some constructs by owner**: each axis has a different owner,
and its contributors are all the constructs with that owner, in order, each of
which contributes this very axis. -/
structure Collected (rules : Option PluralRules) (placed : List Placed) (axes : List Axis) :
    Prop where
  distinct : (axes.map (·.owner)).Nodup
  contributors : ∀ a ∈ axes, a.contributors = placed.filter (·.owner? = some a.owner)
  nonempty : ∀ a ∈ axes, a.contributors ≠ []
  contributed : ∀ a ∈ axes, ∀ q ∈ a.contributors,
    q.axis? rules = some { a with contributors := [q] }
  complete : ∀ q ∈ placed, ∀ owner, q.owner? = some owner → owner ∈ axes.map (·.owner)
  led : (leaders axes).Sublist placed

namespace Collected

variable {placed : List Placed} {axes : List Axis}

theorem nil (rules : Option PluralRules) : Collected rules [] [] :=
  ⟨List.nodup_nil, by simp, by simp, by simp, by simp, List.Sublist.refl _⟩

theorem mem_contributors (h : Collected rules placed axes) (ha : a ∈ axes) :
    q ∈ a.contributors ↔ q ∈ placed ∧ q.owner? = some a.owner := by
  rw [h.contributors a ha, List.mem_filter, decide_eq_true_eq]

/-- A construct that does not vary changes no axis. -/
theorem snoc_of_none (h : Collected rules placed axes) (hq : q.axis? rules = none) :
    Collected rules (placed ++ [q]) axes := by
  have ho : q.owner? = none := by rw [← Placed.map_owner_axis? rules, hq, Option.map_none]
  refine ⟨h.distinct, fun a ha => ?_, h.nonempty, h.contributed, fun r hr owner hro => ?_,
    h.led.trans (List.sublist_append_left _ _)⟩
  · rw [h.contributors a ha, List.filter_append, List.filter_singleton, ho]
    simp
  · rcases List.mem_append.mp hr with hr | hr
    · exact h.complete r hr owner hro
    · rw [List.mem_singleton.mp hr, ho] at hro
      exact nomatch hro

/-- The first construct of its owner opens an axis. -/
theorem snoc_of_notMem (h : Collected rules placed axes) (hq : q.axis? rules = some a)
    (hnew : a.owner ∉ axes.map (·.owner)) : Collected rules (placed ++ [q]) (axes ++ [a]) := by
  have ho : q.owner? = some a.owner := by rw [← Placed.map_owner_axis? rules, hq, Option.map_some]
  have hac : a.contributors = [q] := (Placed.axis?_cases hq).1
  have hplaced : placed.filter (·.owner? = some a.owner) = [] :=
    List.filter_eq_nil_iff.mpr fun r hr hro => hnew (h.complete r hr _ (of_decide_eq_true hro))
  refine ⟨?_, fun b hb => ?_, fun b hb => ?_, fun b hb r hr => ?_, fun r hr owner hro => ?_, ?_⟩
  · rw [List.map_append, List.nodup_append_comm]
    exact List.nodup_cons.mpr ⟨hnew, h.distinct⟩
  · rw [List.filter_append, List.filter_singleton, ho]
    rcases List.mem_append.mp hb with hb | hb
    · have hne : a.owner ≠ b.owner := fun he => hnew (he ▸ List.mem_map_of_mem hb)
      simp [h.contributors b hb, hne]
    · obtain rfl : b = a := List.mem_singleton.mp hb
      simp [hplaced, hac]
  · rcases List.mem_append.mp hb with hb | hb
    · exact h.nonempty b hb
    · rw [List.mem_singleton.mp hb, hac]
      exact List.cons_ne_nil _ _
  · rcases List.mem_append.mp hb with hb | hb
    · exact h.contributed b hb r hr
    · obtain rfl : b = a := List.mem_singleton.mp hb
      obtain rfl : r = q := by simpa [hac] using hr
      rw [hq, ← hac]
  · rw [List.map_append, List.mem_append]
    rcases List.mem_append.mp hr with hr | hr
    · exact Or.inl (h.complete r hr owner hro)
    · rw [List.mem_singleton.mp hr, ho] at hro
      exact Or.inr (by simpa using (Option.some.inj hro).symm)
  · rw [leaders, List.filterMap_append]
    refine h.led.append ?_
    simp [hac]

/-- A construct whose owner has an axis joins it. -/
theorem snoc_of_mem (h : Collected rules placed axes) (hq : q.axis? rules = some a)
    (hid : q.id ∉ placed.map (·.id)) (hold : a.owner ∈ axes.map (·.owner)) :
    Collected rules (placed ++ [q]) (axes.map a.join) := by
  have ho : q.owner? = some a.owner := by rw [← Placed.map_owner_axis? rules, hq, Option.map_some]
  have hac : a.contributors = [q] := (Placed.axis?_cases hq).1
  have howners : (axes.map a.join).map (·.owner) = axes.map (·.owner) := by
    rw [List.map_map]
    rfl
  refine ⟨howners ▸ h.distinct, fun c hc => ?_, fun c hc => ?_, fun c hc r hr => ?_,
    fun r hr owner hro => ?_, ?_⟩
  · obtain ⟨b, hb, rfl⟩ := List.mem_map.mp hc
    rw [List.filter_append, List.filter_singleton, ho, Axis.join, h.contributors b hb, hac]
    simp [eq_comm]
  · obtain ⟨b, hb, rfl⟩ := List.mem_map.mp hc
    exact List.append_ne_nil_of_left_ne_nil (h.nonempty b hb) _
  · obtain ⟨b, hb, rfl⟩ := List.mem_map.mp hc
    rcases List.mem_append.mp hr with hr | hr
    · exact h.contributed b hb r hr
    · split at hr
      · rename_i hba
        obtain rfl : r = q := by simpa [hac] using hr
        obtain ⟨s, hs⟩ := List.exists_mem_of_ne_nil _ (h.nonempty b hb)
        have hsid : s.id ≠ r.id := fun he => hid (he ▸ List.mem_map_of_mem
          (List.mem_of_mem_filter (h.contributors b hb ▸ hs)))
        rw [hq, Placed.axis?_eq_of_owner_eq hq (h.contributed b hb s hs) hba hsid]
        rfl
      · simp at hr
  · rw [howners]
    rcases List.mem_append.mp hr with hr | hr
    · exact h.complete r hr owner hro
    · rw [List.mem_singleton.mp hr, ho] at hro
      exact Option.some.inj hro ▸ hold
  · have hlead : leaders (axes.map a.join) = leaders axes := by
      rw [leaders, leaders, List.filterMap_map]
      refine List.filterMap_congr fun b hb => ?_
      exact List.head?_append_of_ne_nil _ (h.nonempty b hb)
    rw [hlead]
    exact h.led.trans (List.sublist_append_left _ _)

/-- **Reading one construct more** keeps the axes sorted. -/
theorem snoc (h : Collected rules placed (drivenAxes rules placed))
    (hid : q.id ∉ placed.map (·.id)) :
    Collected rules (placed ++ [q]) (drivenAxes rules (placed ++ [q])) := by
  rw [drivenAxes, List.filterMap_append, List.foldl_append]
  change Collected rules (placed ++ [q])
    (([q].filterMap (Placed.axis? rules)).foldl addAxis (drivenAxes rules placed))
  rcases hq : q.axis? rules with _ | a
  · rw [List.filterMap_cons_none hq]
    exact h.snoc_of_none hq
  · rw [List.filterMap_cons_some hq]
    change Collected rules (placed ++ [q]) (addAxis (drivenAxes rules placed) a)
    by_cases ho : a.owner ∈ (drivenAxes rules placed).map (·.owner)
    · rw [addAxis_of_mem h.distinct ho]
      exact h.snoc_of_mem hq hid ho
    · rw [addAxis_of_notMem ho]
      exact h.snoc_of_notMem hq ho

end Collected

/-- **Collecting axes sorts constructs by owner**, as long as no two of them have
one number. -/
theorem collected_drivenAxes (rules : Option PluralRules) (placed : List Placed)
    (hid : (placed.map (·.id)).Nodup) : Collected rules placed (drivenAxes rules placed) := by
  induction placed using List.reverseRecOn with
  | nil => exact Collected.nil rules
  | append_singleton placed q ih =>
    rw [List.map_append, List.nodup_append_comm] at hid
    obtain ⟨hq, hid⟩ := List.nodup_cons.mp hid
    exact (ih hid).snoc hq

/-! ### The axes of a phrase -/

theorem foldl_addAxis_cons {b : Axis} (own axes : List Axis)
    (h : ∀ a ∈ own, b.owner ≠ a.owner) :
    own.foldl addAxis (b :: axes) = b :: own.foldl addAxis axes := by
  induction own generalizing axes with
  | nil => rfl
  | cons a own ih =>
    rw [List.foldl_cons, List.foldl_cons, addAxis, if_neg (h a List.mem_cons_self)]
    exact ih (addAxis axes a) fun c hc => h c (List.mem_cons_of_mem _ hc)

namespace Phrase

variable (rules : Option PluralRules) (p : Phrase)

/-- The axis of the subject of a phrase, if it has one. -/
def subjectAxes : List Axis :=
  if p.options.subject.isSome then [subjectAxis] else []

/-- The axes of the constructs of a phrase. -/
def constructAxes : List Axis :=
  drivenAxes rules p.placed

/-- **The axis of the subject comes before all others.** -/
theorem axes_eq : p.axes rules = p.subjectAxes ++ p.constructAxes rules := by
  have hne : ∀ a ∈ p.placed.filterMap (Placed.axis? rules), subjectAxis.owner ≠ a.owner := by
    intro a ha
    obtain ⟨q, -, hq⟩ := List.mem_filterMap.mp ha
    exact (Placed.owner_ne_subject hq).symm
  rw [Phrase.axes, subjectAxes]
  split
  · exact foldl_addAxis_cons _ _ hne
  · rfl

/-- **The constructs of a phrase are sorted by owner** into its axes. -/
theorem collected : Collected rules p.placed (p.constructAxes rules) :=
  collected_drivenAxes rules p.placed p.nodup_ids

variable {rules p}

theorem mem_axes {a : Axis} : a ∈ p.axes rules ↔
    (a = subjectAxis ∧ p.options.subject.isSome = true) ∨ a ∈ p.constructAxes rules := by
  rw [axes_eq, List.mem_append, subjectAxes]
  split <;> simp [*]

variable (rules) in
/-- A construct that varies contributes to an axis. -/
theorem exists_axis_of_varies {q : Placed} (hq : q ∈ p.placed) (hv : q.construct.varies = true) :
    ∃ a ∈ p.constructAxes rules, q ∈ a.contributors := by
  rw [← Placed.isSome_owner?, Option.isSome_iff_exists] at hv
  obtain ⟨owner, ho⟩ := hv
  obtain ⟨a, ha, rfl⟩ := List.mem_map.mp ((p.collected rules).complete q hq owner ho)
  exact ⟨a, ha, ((p.collected rules).mem_contributors ha).mpr ⟨hq, ho⟩⟩

/-- The contributors of an axis are constructs of the phrase that vary. -/
theorem varies_of_mem_contributors {a : Axis} (ha : a ∈ p.axes rules) {q : Placed}
    (hq : q ∈ a.contributors) : q ∈ p.placed ∧ q.construct.varies = true := by
  rcases mem_axes.mp ha with ⟨rfl, -⟩ | ha
  · exact nomatch hq
  · obtain ⟨hqp, ho⟩ := ((p.collected rules).mem_contributors ha).mp hq
    refine ⟨hqp, ?_⟩
    rw [← Placed.isSome_owner?, ho]
    rfl

/-- **Only enumerations share an axis.** -/
theorem eq_of_owner?_eq {q r : Placed} {owner : AxisOwner} (hq : q ∈ p.placed)
    (hr : r ∈ p.placed) (hqo : q.owner? = some owner) (hro : r.owner? = some owner)
    (hne : ∀ e, q.construct ≠ .enumeration e) : r = q := by
  have hqo : owner = .node q.id :=
    (Placed.owner?_cases hqo).resolve_right fun ⟨e, he, _⟩ => hne e he
  rcases Placed.owner?_cases hro with hro | ⟨e, -, hro⟩
  · exact List.inj_on_of_nodup_map p.nodup_ids hr hq (AxisOwner.node.inj (hro.symm.trans hqo))
  · rw [hqo] at hro
    exact nomatch hro

/-- **A node has an axis just when its wording varies.** -/
theorem isSome_drivenAxis? {q : Placed} (hq : q ∈ p.placed) :
    (drivenAxis? (p.axes rules) q.id).isSome = q.construct.varies := by
  rw [drivenAxis?, List.findIdx?_isSome, Bool.eq_iff_iff, List.any_eq_true]
  constructor
  · rintro ⟨a, ha, hdriven⟩
    obtain ⟨r, hr, hid⟩ := List.any_eq_true.mp hdriven
    have hrp := varies_of_mem_contributors ha hr
    rw [← List.inj_on_of_nodup_map p.nodup_ids hrp.1 hq (of_decide_eq_true hid)]
    exact hrp.2
  · intro hv
    obtain ⟨a, ha, hqa⟩ := exists_axis_of_varies rules hq hv
    exact ⟨a, mem_axes.mpr (Or.inr ha), List.any_eq_true.mpr ⟨q, hqa, by simp⟩⟩

variable (rules p) in
theorem leaders_axes : leaders (p.axes rules) = leaders (p.constructAxes rules) := by
  rw [axes_eq, leaders, List.filterMap_append, subjectAxes]
  split <;> rfl

theorem leadsAxis_iff {q : Placed} (hq : q ∈ p.placed) :
    leadsAxis (p.axes rules) q.id = true ↔ q ∈ leaders (p.axes rules) := by
  rw [leadsAxis, List.any_eq_true, leaders, List.mem_filterMap]
  refine exists_congr fun a => and_congr_right fun ha => ?_
  rw [decide_eq_true_eq, Option.map_eq_some_iff]
  constructor
  · rintro ⟨r, hr, hid⟩
    have hrp := (varies_of_mem_contributors ha (List.mem_of_mem_head? hr)).1
    rw [hr, List.inj_on_of_nodup_map p.nodup_ids hrp hq hid]
  · exact fun h => ⟨q, h, rfl⟩

/-- A construct that leads an axis varies. -/
theorem varies_of_leadsAxis {q : Placed} (hq : q ∈ p.placed)
    (hlead : leadsAxis (p.axes rules) q.id = true) : q.construct.varies = true := by
  obtain ⟨a, ha, hhead⟩ := List.mem_filterMap.mp ((leadsAxis_iff hq).mp hlead)
  exact (varies_of_mem_contributors ha (List.mem_of_mem_head? hhead)).2

/-- Only constructs that vary are leaders. -/
theorem filter_varies_leadsAxis :
    (p.placed.filter (·.construct.varies)).filter (fun q => leadsAxis (p.axes rules) q.id) =
      p.placed.filter fun q => leadsAxis (p.axes rules) q.id := by
  rw [List.filter_filter]
  refine List.filter_congr fun q hq => ?_
  by_cases hlead : leadsAxis (p.axes rules) q.id = true
  · rw [varies_of_leadsAxis hq hlead, Bool.and_true]
  · rw [Bool.not_eq_true] at hlead
    rw [hlead, Bool.false_and]

/-- **The leaders, picked out in reading order, are the leaders in the order of
their axes.** -/
theorem filter_leadsAxis :
    p.placed.filter (fun q => leadsAxis (p.axes rules) q.id) = leaders (p.axes rules) := by
  have hled : (leaders (p.axes rules)).Sublist p.placed := by
    rw [leaders_axes]
    exact (p.collected rules).led
  have hsub : (leaders (p.axes rules)).Sublist
      (p.placed.filter fun q => leadsAxis (p.axes rules) q.id) :=
    List.sublist_filter_iff.mpr ⟨_, hled, (List.filter_eq_self.mpr fun q hq =>
      (leadsAxis_iff (hled.subset hq)).mpr hq).symm⟩
  have hnd : p.placed.Nodup := List.Nodup.of_map _ p.nodup_ids
  have hsubset : p.placed.filter (fun q => leadsAxis (p.axes rules) q.id) ⊆
      leaders (p.axes rules) := by
    intro q hq
    obtain ⟨hq, hlead⟩ := List.mem_filter.mp hq
    exact (leadsAxis_iff hq).mp hlead
  -- a sublist that has all the elements is the whole
  exact (hsub.eq_of_length_le (List.subperm_of_subset (hnd.filter _) hsubset).length_le).symm

end Phrase

end Phrasebook
