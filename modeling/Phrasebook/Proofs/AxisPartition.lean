import Mathlib.Data.List.Perm.Subperm
import Phrasebook.Proofs.AxisCollection
import Phrasebook.Proofs.Place

/-!
# Axes are a partition in reading order

The axes of a phrase divide its varying constructs among themselves: each contributes to one
axis, at one place, and which axis that is, is a matter of owners alone
(`Phrasebook.Phrase.SortedInto`). This is the invariant of the collection, read off its end.

What the tables and descriptors of a payload are made of is the **shape** of the axes: what each
varies over, its candidates, and its descriptor (`Phrasebook.Axis.shape`). The shapes do not
depend on numbers, so they can be told from the constructs of a phrase as its author wrote them:
each construct brings its own, unless it is an enumeration that **repeats** the keys of one before
it (`Phrasebook.Phrase.map_shape_axes`). Hence such an enumeration may be put in anywhere behind
the first, at whatever depth, and translators are asked for the same wordings
(`Phrasebook.axes_partition`).
-/

namespace Phrasebook

/-! ### Every varying construct on one axis -/

namespace Collected

variable {rules : Option PluralRules} {placed : List Placed} {axes : List Axis}

/-- Axes with different owners have no contributor in common. -/
theorem pairwise_disjoint (h : Collected rules placed axes) :
    axes.Pairwise fun a b => List.Disjoint a.contributors b.contributors := by
  refine (List.pairwise_map.mp h.distinct).imp_of_mem fun {a b} ha hb hne q hqa hqb => hne ?_
  have hqa := ((h.mem_contributors ha).mp hqa).2
  have hqb := ((h.mem_contributors hb).mp hqb).2
  exact Option.some.inj (hqa.symm.trans hqb)

/-- **The contributors of all axes are the constructs that vary**, each once. -/
theorem perm_contributors (h : Collected rules placed axes) (hnd : placed.Nodup) :
    (axes.flatMap (·.contributors)).Perm (placed.filter (·.construct.varies)) := by
  have hleft : (axes.flatMap (·.contributors)).Nodup := by
    refine List.nodup_flatMap.mpr ⟨fun a ha => ?_, h.pairwise_disjoint⟩
    rw [h.contributors a ha]
    exact hnd.filter _
  refine (List.perm_ext_iff_of_nodup hleft (hnd.filter _)).mpr fun q => ?_
  rw [List.mem_flatMap, List.mem_filter, ← Placed.isSome_owner?, Option.isSome_iff_exists]
  constructor
  · rintro ⟨a, ha, hqa⟩
    obtain ⟨hq, ho⟩ := (h.mem_contributors ha).mp hqa
    exact ⟨hq, _, ho⟩
  · rintro ⟨hq, owner, ho⟩
    obtain ⟨a, ha, rfl⟩ := List.mem_map.mp (h.complete q hq owner ho)
    exact ⟨a, ha, (h.mem_contributors ha).mpr ⟨hq, ho⟩⟩

/-- The axes stand in the order of their leaders. -/
theorem pairwise_leaders (h : Collected rules placed axes) (hid : placed.Pairwise (·.id < ·.id)) :
    axes.Pairwise fun a b => ∃ q r, a.contributors.head? = some q ∧
      b.contributors.head? = some r ∧ q.id < r.id := by
  have hled := List.pairwise_filterMap.mp (hid.sublist h.led)
  refine hled.imp_of_mem fun {a b} ha hb hlt => ?_
  obtain ⟨q, as, hq⟩ := List.exists_cons_of_ne_nil (h.nonempty a ha)
  obtain ⟨r, bs, hr⟩ := List.exists_cons_of_ne_nil (h.nonempty b hb)
  have hq : a.contributors.head? = some q := by rw [hq, List.head?_cons]
  have hr : b.contributors.head? = some r := by rw [hr, List.head?_cons]
  exact ⟨q, r, hq, hr, hlt q hq r hr⟩

end Collected

namespace Phrase

variable {rules : Option PluralRules} {p : Phrase}

theorem owner_ne_subject {a : Axis} (ha : a ∈ p.constructAxes rules) : a.owner ≠ .subject := by
  obtain ⟨q, hq⟩ := List.exists_mem_of_ne_nil _ ((p.collected rules).nonempty a ha)
  have howner := Placed.owner_ne_subject ((p.collected rules).contributed a ha q hq)
  exact howner

/-- No two axes of a phrase have one owner. -/
theorem nodup_owners (rules : Option PluralRules) (p : Phrase) :
    ((p.axes rules).map (·.owner)).Nodup := by
  have hown := (p.collected rules).distinct
  rw [axes_eq, List.map_append, subjectAxes]
  split
  · refine List.nodup_cons.mpr ⟨fun hsubject => ?_, hown⟩
    obtain ⟨a, ha, howner⟩ := List.mem_map.mp hsubject
    exact owner_ne_subject ha howner
  · exact hown

/-- **A construct contributes to the axis of its owner** and to no other. -/
theorem mem_contributors {a : Axis} (ha : a ∈ p.axes rules) {q : Placed} :
    q ∈ a.contributors ↔ q ∈ p.placed ∧ q.owner? = some a.owner := by
  rcases mem_axes.mp ha with ⟨rfl, -⟩ | hown
  · -- no construct is owned by the subject
    refine iff_of_false List.not_mem_nil fun ⟨_, ho⟩ => ?_
    rcases Placed.owner?_cases ho with ho | ⟨_, _, ho⟩ <;> exact nomatch ho
  · exact (p.collected rules).mem_contributors hown

/-- **The axis a node is found to drive** is the one a construct of its number contributes to. -/
theorem drivenAxis?_eq_some_iff {id i : Nat} :
    drivenAxis? (p.axes rules) id = some i ↔
      ∃ a q, (p.axes rules)[i]? = some a ∧ q ∈ a.contributors ∧ q.id = id := by
  have hdriven : ∀ {a : Axis}, a.isDrivenBy id = true ↔ ∃ q ∈ a.contributors, q.id = id := by
    simp [Axis.isDrivenBy]
  rw [drivenAxis?, List.findIdx?_eq_some_iff_getElem]
  constructor
  · rintro ⟨hi, hdrives, -⟩
    obtain ⟨q, hq, hid⟩ := hdriven.mp hdrives
    exact ⟨_, q, List.getElem?_eq_getElem hi, hq, hid⟩
  · rintro ⟨a, q, ha, hq, hid⟩
    obtain ⟨hi, rfl⟩ := List.getElem?_eq_some_iff.mp ha
    refine ⟨hi, hdriven.mpr ⟨q, hq, hid⟩, fun j hj hdrives => ?_⟩
    -- an axis before it would have the same contributor, and so the same owner
    obtain ⟨r, hr, hrid⟩ := hdriven.mp hdrives
    obtain ⟨hqp, hqo⟩ := (mem_contributors (List.getElem_mem hi)).mp hq
    obtain ⟨hrp, hro⟩ := (mem_contributors (List.getElem_mem _)).mp hr
    obtain rfl : r = q := List.inj_on_of_nodup_map p.nodup_ids hrp hqp (hrid.trans hid.symm)
    have hdistinct := List.pairwise_map.mp (p.nodup_owners rules)
    exact List.pairwise_iff_getElem.mp hdistinct j i (by omega) hi hj
      (Option.some.inj (hro.symm.trans hqo))

/-- **The constructs of a phrase are sorted into some axes**: each construct that varies is a
contributor of one axis, once, and only such a construct is; contributors stand in reading order,
and axes in the order of their first contributors, the axis of the subject before all others; and
constructs share an axis just when they are enumerations over the same keys. -/
structure SortedInto (p : Phrase) (axes : List Axis) : Prop where
  contributors : (axes.flatMap (·.contributors)).Perm (p.placed.filter (·.construct.varies))
  once : ((axes.flatMap (·.contributors)).map (·.id)).Nodup
  driven : ∀ id, (drivenAxis? axes id).isSome = true ↔
    ∃ q ∈ p.placed, q.id = id ∧ q.construct.varies = true
  drivenAxis : ∀ id i, drivenAxis? axes id = some i ↔
    ∃ a q, axes[i]? = some a ∧ q ∈ a.contributors ∧ q.id = id
  increasing : ∀ a ∈ axes, (a.contributors.map (·.id)).Pairwise (· < ·)
  ordered : ∃ own, axes = p.subjectAxes ++ own ∧
    (∀ a ∈ own, a.owner ≠ .subject ∧ a.contributors ≠ []) ∧
    own.Pairwise fun a b => ∃ q r, a.contributors.head? = some q ∧
      b.contributors.head? = some r ∧ q.id < r.id
  shared : ∀ q ∈ p.placed, ∀ r ∈ p.placed,
    (∃ a ∈ axes, q ∈ a.contributors ∧ r ∈ a.contributors) ↔
      q.construct.varies = true ∧ (q = r ∨ ∃ e f : Enumeration,
        q.construct = .enumeration e ∧ r.construct = .enumeration f ∧ e.keys = f.keys)

/-- Two constructs have one owner just when they are one, or enumerations over the same keys. -/
theorem owner?_eq_iff {q r : Placed} (hq : q ∈ p.placed) (hr : r ∈ p.placed) :
    (∃ owner, q.owner? = some owner ∧ r.owner? = some owner) ↔
      q.construct.varies = true ∧ (q = r ∨ ∃ e f : Enumeration,
        q.construct = .enumeration e ∧ r.construct = .enumeration f ∧ e.keys = f.keys) := by
  rw [← Placed.isSome_owner?, Option.isSome_iff_exists]
  constructor
  · rintro ⟨owner, hqo, hro⟩
    refine ⟨⟨owner, hqo⟩, ?_⟩
    rcases Placed.owner?_cases hqo with rfl | ⟨e, he, rfl⟩ <;>
      rcases Placed.owner?_cases hro with ho | ⟨f, hf, ho⟩
    · exact Or.inl (List.inj_on_of_nodup_map p.nodup_ids hq hr (AxisOwner.node.inj ho))
    · exact nomatch ho
    · exact nomatch ho
    · exact Or.inr ⟨e, f, he, hf, AxisOwner.enumKeys.inj ho⟩
  · rintro ⟨⟨owner, hqo⟩, rfl | ⟨e, f, he, hf, hkeys⟩⟩
    · exact ⟨owner, hqo, hqo⟩
    · refine ⟨.enumKeys e.keys, ?_, ?_⟩
      · simp [Placed.owner?, he]
      · simp [Placed.owner?, hf, hkeys]

/-- **Collecting axes sorts the constructs of a phrase.** -/
theorem sortedInto_axes (rules : Option PluralRules) (p : Phrase) :
    p.SortedInto (p.axes rules) := by
  have hcol := p.collected rules
  have hincreasing := p.pairwise_placed
  have hperm : ((p.axes rules).flatMap (·.contributors)).Perm
      (p.placed.filter (·.construct.varies)) := by
    have hsubject : p.subjectAxes.flatMap (·.contributors) = [] := by
      rw [subjectAxes]
      split <;> rfl
    rw [axes_eq, List.flatMap_append, hsubject, List.nil_append]
    exact hcol.perm_contributors (List.Nodup.of_map _ p.nodup_ids)
  refine
    { contributors := hperm
      once := ?_
      driven := fun id => ?_
      drivenAxis := fun id i => drivenAxis?_eq_some_iff
      increasing := fun a ha => ?_
      ordered := ⟨_, axes_eq rules p, fun a ha => ?_, hcol.pairwise_leaders hincreasing⟩
      shared := fun q hq r hr => ?_ }
  · have hfilter : (p.placed.filter (·.construct.varies)).Sublist p.placed := List.filter_sublist
    exact (hperm.map _).nodup_iff.mpr ((hfilter.map _).nodup p.nodup_ids)
  · constructor
    · intro hsome
      obtain ⟨i, hi⟩ := Option.isSome_iff_exists.mp hsome
      obtain ⟨a, q, ha, hq, hid⟩ := drivenAxis?_eq_some_iff.mp hi
      obtain ⟨hqp, hvaries⟩ := varies_of_mem_contributors (List.mem_of_getElem? ha) hq
      exact ⟨q, hqp, hid, hvaries⟩
    · rintro ⟨q, hq, rfl, hvaries⟩
      rw [isSome_drivenAxis? hq, hvaries]
  · rcases mem_axes.mp ha with ⟨rfl, -⟩ | hown
    · exact List.Pairwise.nil
    · rw [hcol.contributors a hown]
      exact List.pairwise_map.mpr (hincreasing.filter _)
  · exact ⟨owner_ne_subject ha, hcol.nonempty a ha⟩
  · rw [← owner?_eq_iff hq hr]
    constructor
    · rintro ⟨a, ha, hqa, hra⟩
      exact ⟨a.owner, ((mem_contributors ha).mp hqa).2, ((mem_contributors ha).mp hra).2⟩
    · rintro ⟨owner, hqo, hro⟩
      obtain ⟨a, ha, rfl⟩ := List.mem_map.mp (hcol.complete q hq owner hqo)
      have ha : a ∈ p.axes rules := mem_axes.mpr (Or.inr ha)
      exact ⟨a, ha, (mem_contributors ha).mpr ⟨hq, hqo⟩, (mem_contributors ha).mpr ⟨hr, hro⟩⟩

end Phrase

/-! ### The shapes of axes -/

/-- **The shape of an axis**: what it varies over, the values it may take, and what a payload says
of it. -/
def Axis.shape (a : Axis) : AxisKind × List AxisValue × Option Descriptor :=
  (a.kind, a.candidates, a.descriptor)

namespace Construct

variable (rules : Option PluralRules)

/-- The shape of the axis that a construct contributes. Its number plays no part. -/
def shape? (c : Construct) : Option (AxisKind × List AxisValue × Option Descriptor) :=
  (Placed.axis? rules ⟨0, c⟩).map Axis.shape

/-- Whether a construct is an enumeration over the keys of one that comes before it. -/
def repeats (before : List Construct) : Construct → Bool
  | .enumeration e => before.any fun
    | .enumeration f => f.keys = e.keys
    | _ => false
  | _ => false

theorem repeats_enumeration {before : List Construct} {e : Enumeration} :
    (enumeration e).repeats before = true ↔
      ∃ f : Enumeration, .enumeration f ∈ before ∧ f.keys = e.keys := by
  simp only [repeats, List.any_eq_true]
  constructor
  · rintro ⟨c, hc, hkeys⟩
    cases c with
    | enumeration f => exact ⟨f, hc, of_decide_eq_true hkeys⟩
    | _ => exact nomatch hkeys
  · rintro ⟨f, hf, hkeys⟩
    exact ⟨_, hf, decide_eq_true hkeys⟩

/-- What comes before a construct matters by the keys of its enumerations only. -/
theorem repeats_append_of_repeats {before : List Construct} {c : Construct}
    (hc : c.repeats before = true) (d : Construct) :
    d.repeats (before ++ [c]) = d.repeats before := by
  cases c with
  | enumeration e =>
    obtain ⟨f, hf, hkeys⟩ := repeats_enumeration.mp hc
    cases d with
    | enumeration g =>
      rw [Bool.eq_iff_iff, repeats_enumeration, repeats_enumeration]
      constructor
      · rintro ⟨x, hx, hxkeys⟩
        rcases List.mem_append.mp hx with hx | hx
        · exact ⟨x, hx, hxkeys⟩
        · obtain rfl : x = e := by simpa using hx
          exact ⟨f, hf, hkeys.trans hxkeys⟩
      · rintro ⟨x, hx, hxkeys⟩
        exact ⟨x, List.mem_append_left _ hx, hxkeys⟩
    | _ => rfl
  | _ => exact nomatch hc

/-- What a construct adds to the shapes of the axes, if `before` are the constructs before it. -/
def newShape (before : List Construct) (c : Construct) :
    List (AxisKind × List AxisValue × Option Descriptor) :=
  if c.repeats before then [] else (c.shape? rules).toList

end Construct

/-- The shapes that some constructs add, one after the other. -/
def newShapes (rules : Option PluralRules) (before : List Construct) :
    List Construct → List (AxisKind × List AxisValue × Option Descriptor)
  | [] => []
  | c :: cs => c.newShape rules before ++ newShapes rules (before ++ [c]) cs

section Shapes

variable {rules : Option PluralRules} {before before' : List Construct}

theorem newShapes_append (xs ys : List Construct) :
    newShapes rules before (xs ++ ys) =
      newShapes rules before xs ++ newShapes rules (before ++ xs) ys := by
  induction xs generalizing before with
  | nil => rw [List.nil_append, List.append_nil, newShapes, List.nil_append]
  | cons c xs ih =>
    rw [List.cons_append, newShapes, newShapes, ih, List.append_assoc, List.append_assoc,
      List.singleton_append]

theorem newShapes_congr (h : ∀ d : Construct, d.repeats before = d.repeats before')
    (cs : List Construct) : newShapes rules before cs = newShapes rules before' cs := by
  induction cs generalizing before before' with
  | nil => rfl
  | cons c cs ih =>
    have hnext : ∀ d : Construct, d.repeats (before ++ [c]) = d.repeats (before' ++ [c]) := by
      intro d
      have hd := h d
      cases d with
      | enumeration e =>
        simp only [Construct.repeats, List.any_append] at hd ⊢
        rw [hd]
      | _ => rfl
    rw [newShapes, newShapes, Construct.newShape, Construct.newShape, h c, ih hnext]

/-- **An enumeration that repeats adds nothing**, and takes nothing from what follows. -/
theorem newShapes_insert {xs : List Construct} {c : Construct}
    (hc : c.repeats (before ++ xs) = true) (ys : List Construct) :
    newShapes rules before (xs ++ c :: ys) = newShapes rules before (xs ++ ys) := by
  rw [newShapes_append, newShapes_append, newShapes, Construct.newShape, if_pos hc,
    List.nil_append, newShapes_congr (Construct.repeats_append_of_repeats hc)]

theorem Placed.map_shape_axis? (rules : Option PluralRules) (q : Placed) :
    (q.axis? rules).map Axis.shape = q.construct.shape? rules := by
  obtain ⟨id, c⟩ := q
  cases c with
  | param p =>
    rcases hn : p.number with _ | _ <;> rcases hg : p.gender with _ | g <;>
      simp [Construct.shape?, Placed.axis?, Placed.ownAxis, Axis.shape, hn, hg]
  | _ => rfl

/-- An axis adds its shape if it opens an axis, and none if it joins one. -/
theorem map_shape_addAxis (axes : List Axis) (a : Axis) :
    (addAxis axes a).map Axis.shape =
      axes.map Axis.shape ++ if a.owner ∈ axes.map (·.owner) then [] else [a.shape] := by
  induction axes with
  | nil => rfl
  | cons b axes ih =>
    by_cases hb : b.owner = a.owner
    · simp [addAxis, hb, Axis.shape]
    · have hb' : ¬a.owner = b.owner := fun he => hb he.symm
      rw [addAxis, if_neg hb, List.map_cons, ih]
      simp [hb']

/-- A construct has the owner of an axis collected before just when it repeats. -/
theorem Collected.owner_mem_iff {placed : List Placed} {axes : List Axis}
    (h : Collected rules placed axes) {q : Placed} (hid : q.id ∉ placed.map (·.id))
    {owner : AxisOwner} (ho : q.owner? = some owner) :
    owner ∈ axes.map (·.owner) ↔ q.construct.repeats (placed.map (·.construct)) = true := by
  have hmem : owner ∈ axes.map (·.owner) ↔ ∃ r ∈ placed, r.owner? = some owner := by
    constructor
    · intro howner
      obtain ⟨a, ha, rfl⟩ := List.mem_map.mp howner
      obtain ⟨r, hr⟩ := List.exists_mem_of_ne_nil _ (h.nonempty a ha)
      exact ⟨r, (h.mem_contributors ha).mp hr⟩
    · rintro ⟨r, hr, hro⟩
      exact h.complete r hr owner hro
  rw [hmem]
  rcases hc : q.construct with _ | _ | e | _ | _ | _ | _
  case enumeration =>
    obtain rfl : .enumKeys e.keys = owner := by simpa [Placed.owner?, hc] using ho
    rw [Construct.repeats_enumeration]
    constructor
    · rintro ⟨r, hr, hro⟩
      rcases Placed.owner?_cases hro with ho | ⟨f, hf, ho⟩
      · cases ho
      · exact ⟨f, List.mem_map.mpr ⟨r, hr, hf⟩, (AxisOwner.enumKeys.inj ho).symm⟩
    · rintro ⟨f, hf, hkeys⟩
      obtain ⟨r, hr, hrf⟩ := List.mem_map.mp hf
      exact ⟨r, hr, by simp [Placed.owner?, hrf, hkeys]⟩
  all_goals
    -- the owner is the construct itself, whose number is a new one
    refine iff_of_false ?_ Bool.false_ne_true
    rintro ⟨r, hr, hro⟩
    rcases Placed.owner?_cases ho with rfl | ⟨e, he, -⟩
    · rcases Placed.owner?_cases hro with ho | ⟨f, -, ho⟩
      · exact hid (AxisOwner.node.inj ho ▸ List.mem_map_of_mem hr)
      · cases ho
    · rw [hc] at he
      cases he

/-- **The shapes of collected axes are those that the constructs add.** -/
theorem map_shape_drivenAxes (placed : List Placed) (hid : (placed.map (·.id)).Nodup) :
    (drivenAxes rules placed).map Axis.shape =
      newShapes rules [] (placed.map (·.construct)) := by
  induction placed using List.reverseRecOn with
  | nil => rfl
  | append_singleton placed q ih =>
    rw [List.map_append, List.nodup_append_comm] at hid
    obtain ⟨hq, hid⟩ := List.nodup_cons.mp hid
    have hcol := collected_drivenAxes rules placed hid
    have hstep : drivenAxes rules (placed ++ [q]) =
        (q.axis? rules).toList.foldl addAxis (drivenAxes rules placed) := by
      rw [drivenAxes, List.filterMap_append, List.foldl_append]
      cases h : q.axis? rules <;> simp [drivenAxes, h]
    have hshape := q.map_shape_axis? rules
    rw [hstep, List.map_append, newShapes_append, ← ih hid, List.nil_append, List.map_singleton,
      newShapes, newShapes, List.append_nil, Construct.newShape, ← hshape]
    rcases ha : q.axis? rules with _ | a
    · simp
    · have ho : q.owner? = some a.owner := by
        rw [← Placed.map_owner_axis? rules, ha, Option.map_some]
      change (addAxis (drivenAxes rules placed) a).map Axis.shape = _
      rw [map_shape_addAxis]
      simp only [hcol.owner_mem_iff hq ho, Option.map_some, Option.toList_some]

/-- **The shapes of the axes are told from the constructs alone**: after the axis of the subject
each construct brings its own, unless it repeats. -/
theorem Phrase.map_shape_axes (rules : Option PluralRules) (p : Phrase) :
    (p.axes rules).map Axis.shape =
      p.subjectAxes.map Axis.shape ++ newShapes rules [] p.constructs := by
  rw [Phrase.axes_eq, List.map_append, Phrase.constructAxes, map_shape_drivenAxes _ p.nodup_ids,
    p.map_construct_placed]

end Shapes

/-! ### Repeating an enumeration -/

theorem constructsIn_append (ms ns : List Node) :
    constructsIn (ms ++ ns) = constructsIn ms ++ constructsIn ns := by
  induction ms with
  | nil => rfl
  | cons m ms ih => rw [List.cons_append, constructsIn, constructsIn, ih, List.append_assoc]

namespace Place

/-- The constructs that come before a place in reading order, at any depth. -/
def constructsBefore : Place → List Construct
  | here before _ => constructsIn before
  | inside before _ place _ => constructsIn before ++ place.constructsBefore

/-- The constructs that come after a place in reading order, at any depth. -/
def constructsAfter : Place → List Construct
  | here _ after => constructsIn after
  | inside _ _ place after => place.constructsAfter ++ constructsIn after

theorem constructsIn_fill (run : List Node) (place : Place) :
    constructsIn (place.fill run) =
      place.constructsBefore ++ (constructsIn run ++ place.constructsAfter) := by
  induction place with
  | here before after =>
    rw [fill, constructsIn_append, constructsIn_append, constructsBefore, constructsAfter]
  | inside before location place after ih =>
    rw [fill, constructsIn_append, constructsIn, Node.constructs, ih, constructsBefore,
      constructsAfter]
    simp only [List.append_assoc]

end Place

/-- **The axes of a phrase are a partition of its varying constructs in reading order.** They
sort the constructs; and if somewhere in the phrase an enumeration comes whose keys one before it
has, leaving it out or putting it in does not change the shape of any axis. -/
theorem axes_partition (rules : Option PluralRules) (p : Phrase) :
    p.SortedInto (p.axes rules) ∧
      ∀ (place : Place) (e f : Enumeration), place.fill [] = p.children →
        .enumeration f ∈ place.constructsBefore → f.keys = e.keys →
          ((p.filled place [.construct (.enumeration e)]).axes rules).map Axis.shape =
            (p.axes rules).map Axis.shape := by
  refine ⟨p.sortedInto_axes rules, fun place e f hplace hf hkeys => ?_⟩
  have hrepeats : (Construct.enumeration e).repeats ([] ++ place.constructsBefore) = true :=
    Construct.repeats_enumeration.mpr ⟨f, hf, hkeys⟩
  have hinserted : (p.filled place [.construct (.enumeration e)]).constructs =
      place.constructsBefore ++ .enumeration e :: place.constructsAfter :=
    place.constructsIn_fill _
  have hconstructs : p.constructs = place.constructsBefore ++ place.constructsAfter := by
    rw [Phrase.constructs, ← hplace, place.constructsIn_fill]
    rfl
  rw [Phrase.map_shape_axes, Phrase.map_shape_axes, hinserted, hconstructs,
    newShapes_insert hrepeats]
  rfl

/-- A choice of a colour, as one text or as another. -/
def colourChoice (red blue : String) : Enumeration where
  value := .identifier "colour"
  range := [⟨"red", red⟩, ⟨"blue", blue⟩]

/-- A phrase that varies by its subject, a colour and a name, the last in a fragment. -/
def colourPainted : Phrase where
  description := "Who painted something in which colour"
  options := { subject := some (.identifier "viewer") }
  children :=
    [.construct (.enumeration (colourChoice "In red, " "In blue, ")),
     .fragment
      [.construct (.name
        { name := ⟨"painter"⟩, value := .identifier "painter", gender := .identifier "gender" })]
      {}]

/-- Naming the colour once more at the end of the fragment adds no axis. -/
theorem axes_partition_colourPainted :
    let place : Place := .inside [.construct (.enumeration (colourChoice "In red, " "In blue, "))]
      {} (.here [.construct (.name
        { name := ⟨"painter"⟩, value := .identifier "painter", gender := .identifier "gender" })]
        []) []
    place.fill [] = colourPainted.children ∧
      ((colourPainted.filled place
        [.construct (.enumeration (colourChoice "reddish" "bluish"))]).axes none).map Axis.shape =
          (colourPainted.axes none).map Axis.shape ∧
      colourPainted.SortedInto (colourPainted.axes none) := by
  intro place
  obtain ⟨hsorted, hrepeat⟩ := axes_partition none colourPainted
  exact ⟨rfl, hrepeat place _ (colourChoice "In red, " "In blue, ") rfl List.mem_cons_self rfl,
    hsorted⟩

end Phrasebook
