import Phrasebook.Hoisting
import Phrasebook.Proofs.AxisCollection

/-!
# The call that drives an axis

An axis is driven by one call: that of the subject, or that of its leader. The
call is made from the leader's own data, and so is the expression by which it
picks the value of the axis (`Phrasebook.Construct.driver?`). That expression does
not depend on which contributor leads, as long as enumerations over the same keys
select by the same value (`Phrasebook.Placed.driver?_eq_of_owner?_eq`).
-/

namespace Phrasebook

/-- The expression that picks the wording of a construct, or the gender that
wordings agree with. -/
def Construct.driver? : Construct → Option Expr
  | .param q => q.gender
  | .name n => some n.gender
  | .pronoun q => some q.gender
  | .plural q => some q.count
  | .enumeration e => some e.value
  | .text _ | .sameParam _ => none

theorem Construct.varies_of_driver? {c : Construct} {e : Expr} (h : c.driver? = some e) :
    c.varies = true := by
  cases c <;> simp_all [Construct.driver?, Construct.varies]

/-- The call of a construct picks by the construct's own expression. -/
theorem Construct.driving?_call? (c : Construct) :
    (c.call?.bind Call.driving?).map Prod.snd = c.driver? := by
  cases c with
  | param q =>
    rcases hg : q.gender with _ | g
    · rcases hn : q.number <;>
        simp [Construct.call?, Param.variation, hg, hn, Call.driving?, Construct.driver?]
    · simp [Construct.call?, Param.variation, hg, Call.driving?, Construct.driver?]
  | _ => rfl

/-- A construct that varies makes a call. -/
theorem Construct.exists_call?_of_varies {c : Construct} (h : c.varies = true) :
    ∃ call, c.call? = some call := by
  cases c <;> simp_all [Construct.varies, Construct.call?]

/-- Constructs on one axis pick by one expression. -/
theorem Placed.driver?_eq_of_owner?_eq {placed : List Placed} {q r : Placed}
    {owner : AxisOwner} (hid : (placed.map (·.id)).Nodup)
    (hagree : ∀ e f : Enumeration, q.construct = .enumeration e → r.construct = .enumeration f →
      e.keys = f.keys → e.value = f.value)
    (hq : q ∈ placed) (hr : r ∈ placed) (hqo : q.owner? = some owner)
    (hro : r.owner? = some owner) : q.construct.driver? = r.construct.driver? := by
  rcases Placed.owner?_cases hqo with rfl | ⟨e, he, rfl⟩ <;>
    rcases Placed.owner?_cases hro with ho | ⟨f, hf, ho⟩
  · rw [List.inj_on_of_nodup_map hid hq hr (AxisOwner.node.inj ho)]
  · exact nomatch ho
  · exact nomatch ho
  · rw [he, hf, Construct.driver?, Construct.driver?, hagree e f he hf (AxisOwner.enumKeys.inj ho)]

theorem call?_subjectAxis (subject : Option Expr) :
    subjectAxis.call? subject = subject.map .subject := rfl

/-- **The axis of constructs is driven by its leader.** -/
theorem Phrase.exists_leader {rules : Option PluralRules} {p : Phrase} {a : Axis}
    (ha : a ∈ p.constructAxes rules) (subject : Option Expr) :
    ∃ q rest, a.contributors = q :: rest ∧ q ∈ p.placed ∧ q.owner? = some a.owner ∧
      a.call? subject = q.construct.call? := by
  have hcol := p.collected rules
  obtain ⟨q, rest, hcons⟩ := List.exists_cons_of_ne_nil (hcol.nonempty a ha)
  have hq : q ∈ a.contributors := hcons ▸ List.mem_cons_self
  obtain ⟨hqp, hqo⟩ := (hcol.mem_contributors ha).mp hq
  refine ⟨q, rest, hcons, hqp, hqo, ?_⟩
  have hne := Placed.owner_ne_subject (hcol.contributed a ha q hq)
  rw [Axis.call?]
  split
  · rename_i hsubject
    exact absurd hsubject hne
  · rw [hcons]
    rfl

/-- **A construct that varies leads its axis, unless it is an enumeration.** -/
theorem Phrase.leadsAxis_of_varies {rules : Option PluralRules} {p : Phrase} {q : Placed}
    (hq : q ∈ p.placed) (hvaries : q.construct.varies = true)
    (hne : ∀ e, q.construct ≠ .enumeration e) : leadsAxis (p.axes rules) q.id = true := by
  obtain ⟨a, ha, hqa⟩ := Phrase.exists_axis_of_varies rules hq hvaries
  obtain ⟨-, hqo⟩ := ((p.collected rules).mem_contributors ha).mp hqa
  obtain ⟨r, rest, hcons, hr, hro, -⟩ := Phrase.exists_leader ha p.options.subject
  obtain rfl : r = q := Phrase.eq_of_owner?_eq hq hr hqo hro hne
  refine (Phrase.leadsAxis_iff hq).mpr (List.mem_filterMap.mpr ⟨a, ?_, ?_⟩)
  · exact Phrase.mem_axes.mpr (Or.inr ha)
  · rw [hcons, List.head?_cons]

end Phrasebook
