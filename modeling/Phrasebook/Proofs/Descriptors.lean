import Phrasebook.Proofs.Arguments
import Phrasebook.Proofs.CallOptions

/-!
# What a payload says of a runtime value

A payload says of each axis which token its runtime value fills and what it varies
by. The value itself comes from the call that drives the axis, and what the helper
behind that call does with it is settled by the call alone. So the two have to agree
(`Phrasebook.Agrees`), although one is read off a construct when its axis is collected
and the other when its call is made.

They agree on every axis but one kind (`Phrasebook.compile_describes_axes`). A param
can be given both a number format and a gender; then the number decides what its axis
varies by, and the gender what its call does. No call site makes such a param
(`Phrasebook.Param.not_variesTwice_of_ofCall`), but it can be built as plain data, and
nothing rejects it later (`Phrasebook.not_describes_axes`).
-/

namespace Phrasebook

/-! ### Agreement of a descriptor and a call -/

/-- **A descriptor agrees with a call.** The value is described as a gender under a token
exactly if the call takes a name or a gendered param with that token, or the subject
under the token reserved for it; as a number exactly if it takes a numbered param or a
plural that shows that token; and not at all exactly if it takes an enumeration, a
pronoun or a plural that shows none. -/
structure Agrees (d : Option Descriptor) (call : Call) : Prop where
  gender : ∀ t, (∃ e, d = some e ∧ e.token = t ∧ e.variation = .gender) ↔
    (∃ value g, call = .name t value g) ∨ (∃ value g, call = .param t value (.gender g)) ∨
      (t = .subject ∧ ∃ g, call = .subject g)
  number : ∀ t, (∃ e, d = some e ∧ e.token = t ∧ e.variation = .number) ↔
    (∃ value, call = .param t value .number) ∨ ∃ count value, call = .plural count (some t) value
  absent : d = none ↔
    (∃ value keys, call = .enumeration value keys) ∨
      (∃ usage g human, call = .pronoun usage g human) ∨
      ∃ count value, call = .plural count none value

/-- What a call says of its value: the token it fills, and what it varies by. -/
def Call.variation? : Call → Option (TokenName × VariationType)
  | .param _ _ .none => none
  | .param token _ .number => some (token, .number)
  | .param token _ (.gender _) => some (token, .gender)
  | .name token _ _ => some (token, .gender)
  | .plural _ token _ => token.map (·, .number)
  | .enumeration _ _ | .pronoun _ _ _ => none
  | .subject _ => some (.subject, .gender)

theorem Call.variation?_eq_gender {call : Call} {t : TokenName} :
    call.variation? = some (t, .gender) ↔
      (∃ value g, call = .name t value g) ∨ (∃ value g, call = .param t value (.gender g)) ∨
        (t = .subject ∧ ∃ g, call = .subject g) := by
  cases call with
  | param token value variation => cases variation <;> simp [Call.variation?]
  | plural count token value => cases token <;> simp [Call.variation?]
  | subject g => simp [Call.variation?, eq_comm]
  | _ => simp [Call.variation?]

theorem Call.variation?_eq_number {call : Call} {t : TokenName} :
    call.variation? = some (t, .number) ↔
      (∃ value, call = .param t value .number) ∨
        ∃ count value, call = .plural count (some t) value := by
  cases call with
  | param token value variation => cases variation <;> simp [Call.variation?]
  | plural count token value => cases token <;> simp [Call.variation?]
  | _ => simp [Call.variation?]

theorem Call.variation?_eq_none {call : Call} (hdrives : call.drives = true) :
    call.variation? = none ↔
      (∃ value keys, call = .enumeration value keys) ∨
        (∃ usage g human, call = .pronoun usage g human) ∨
        ∃ count value, call = .plural count none value := by
  cases call with
  | param token value variation => cases variation <;> simp_all [Call.variation?, Call.drives]
  | plural count token value => cases token <;> simp [Call.variation?]
  | _ => simp [Call.variation?]

/-- No call says that its value picks a pronoun. -/
theorem Call.variation?_ne_pronoun (call : Call) (t : TokenName) :
    call.variation? ≠ some (t, .pronoun) := by
  cases call with
  | param token value variation => cases variation <;> simp [Call.variation?]
  | plural count token value => cases token <;> simp [Call.variation?]
  | _ => simp [Call.variation?]

/-- What a descriptor says of a value: the token it fills, and what it varies by. -/
def Descriptor.said (d : Descriptor) : TokenName × VariationType :=
  (d.token, d.variation)

theorem Descriptor.map_said_eq_some {d : Option Descriptor} {t : TokenName} {v : VariationType} :
    d.map Descriptor.said = some (t, v) ↔ ∃ e, d = some e ∧ e.token = t ∧ e.variation = v := by
  simp [Descriptor.said, Option.map_eq_some_iff]

/-- **A descriptor agrees with a call that drives an axis exactly if the two say the
same.** -/
theorem agrees_iff {d : Option Descriptor} {call : Call} (hdrives : call.drives = true) :
    Agrees d call ↔ d.map Descriptor.said = call.variation? := by
  constructor
  · intro h
    rcases hcall : call.variation? with _ | ⟨t, v⟩
    · rw [h.absent.mpr ((Call.variation?_eq_none hdrives).mp hcall), Option.map_none]
    · rw [Descriptor.map_said_eq_some]
      cases v with
      | gender => exact (h.gender t).mpr (Call.variation?_eq_gender.mp hcall)
      | number => exact (h.number t).mpr (Call.variation?_eq_number.mp hcall)
      | pronoun => exact absurd hcall (Call.variation?_ne_pronoun call t)
  · intro h
    refine ⟨fun t => ?_, fun t => ?_, ?_⟩
    · rw [← Descriptor.map_said_eq_some, h, Call.variation?_eq_gender]
    · rw [← Descriptor.map_said_eq_some, h, Call.variation?_eq_number]
    · rw [← Call.variation?_eq_none hdrives, ← h, Option.map_eq_none_iff]

/-! ### Params that vary twice -/

/-- A param **varies twice** if it is given both a number format and a gender. -/
def Param.VariesTwice (r : Param) : Prop :=
  r.number = true ∧ r.gender.isSome = true

/-- An axis varies twice if a param that does contributes to it. -/
def Axis.VariesTwice (a : Axis) : Prop :=
  ∃ q ∈ a.contributors, ∃ r, q.construct = .param r ∧ r.VariesTwice

theorem Param.not_variesTwice_of_ofArguments {location : Location} {name value : Expr}
    {options : Option Expr} {r : Param}
    (h : Param.ofArguments location name value options = .ok r) : ¬r.VariesTwice := by
  obtain ⟨text, -, h⟩ := exists_of_bind_eq_ok h
  obtain ⟨given, -, h⟩ := exists_of_bind_eq_ok h
  obtain ⟨number, -, h⟩ := exists_of_bind_eq_ok h
  split at h
  · exact nomatch h
  · rename_i hboth
    obtain rfl := Except.ok.inj h
    rwa [Bool.and_eq_true] at hboth

/-- **No call site makes a param that varies twice.** -/
theorem Param.not_variesTwice_of_ofCall {location : Location} {args : List Expr} {r : Param}
    (h : Param.ofCall location args = .ok r) : ¬r.VariesTwice := by
  unfold Param.ofCall at h
  split at h
  · exact Param.not_variesTwice_of_ofArguments h
  · exact Param.not_variesTwice_of_ofArguments h
  · exact nomatch h

/-! ### The axes of a phrase -/

section Axes

variable {rules : Option PluralRules} {p : Phrase}

/-- A construct's axis is described as the construct's call says, unless it is a param
that varies twice. -/
theorem Placed.agrees_iff_of_axis? {q : Placed} {a : Axis} {call : Call}
    (ha : q.axis? rules = some a) (hcall : q.construct.call? = some call) :
    Agrees a.descriptor call ↔ ∀ r, q.construct = .param r → ¬r.VariesTwice := by
  have hvaries : q.construct.varies = true := by
    rw [← Placed.isSome_owner?, ← Placed.map_owner_axis? rules, ha]
    rfl
  rw [agrees_iff ((Construct.drives_of_call? hcall).trans hvaries)]
  obtain ⟨id, c⟩ := q
  cases c with
  | text t => cases ha
  | sameParam s => cases ha
  | param r =>
    cases hcall
    rcases hn : r.number with _ | _ <;> rcases hg : r.gender with _ | g <;>
      simp [Placed.axis?, Placed.ownAxis, hn, hg] at ha <;> subst ha <;>
      simp [Param.variation, Param.VariesTwice, Call.variation?, Descriptor.said, hn, hg]
  | plural r =>
    cases ha
    cases hcall
    cases r.shownToken? <;> simp [Placed.ownAxis, Call.variation?, Descriptor.said]
  | _ =>
    cases ha
    cases hcall
    simp [Placed.ownAxis, Call.variation?, Descriptor.said]

/-- **An axis is described as its call says, unless it varies twice.** -/
theorem Axis.agrees_iff {a : Axis} {call : Call} (ha : a ∈ p.axes rules)
    (hcall : a.call? p.options.subject = some call) :
    Agrees a.descriptor call ↔ ¬a.VariesTwice := by
  rcases Phrase.mem_axes.mp ha with ⟨rfl, -⟩ | ha
  · obtain ⟨g, -, rfl⟩ := Option.map_eq_some_iff.mp ((call?_subjectAxis _).symm.trans hcall)
    refine iff_of_true ((Phrasebook.agrees_iff rfl).mpr rfl) ?_
    rintro ⟨q, hq, -⟩
    exact nomatch hq
  · obtain ⟨q, rest, hcons, hq, hqo, hcallq⟩ := Phrase.exists_leader ha p.options.subject
    have hmem : q ∈ a.contributors := hcons ▸ List.mem_cons_self
    have haxis := (p.collected rules).contributed a ha q hmem
    refine (Placed.agrees_iff_of_axis? haxis (hcallq.symm.trans hcall)).trans ⟨?_, ?_⟩
    · rintro htwice ⟨s, hs, r, hsr, hr⟩
      -- a param has its axis to itself, so it is the leader
      obtain ⟨hsp, hso⟩ := ((p.collected rules).mem_contributors ha).mp hs
      have hqs : q = s :=
        Phrase.eq_of_owner?_eq hsp hq hso hqo fun e he => nomatch hsr.symm.trans he
      exact htwice r (hqs ▸ hsr) hr
    · exact fun htwice r hr hboth => htwice ⟨q, hmem, r, hr, hboth⟩

end Axes

/-- **Every axis is described as the call that drives it says**, unless a param that
varies twice drives it. In a phrase whose params come from call sites there is no such
axis. -/
theorem compile_describes_axes {config : Config} {p : Phrase} {c : CompiledPhrase}
    (h : compile config p = .ok c) :
    c.payload.descriptors = (p.axes config.rules).map (·.descriptor) ∧
      List.Forall₂ (fun a call => a.DrivenBy p call ∧ (Agrees a.descriptor call ↔ ¬a.VariesTwice))
        (p.axes config.rules) (c.calls.filter Call.drives) ∧
      ((∀ r, .param r ∈ p.constructs → ∃ location args, Param.ofCall location args = .ok r) →
        List.Forall₂ Agrees c.payload.descriptors (c.calls.filter Call.drives)) := by
  obtain ⟨-, rfl⟩ := compile_eq_ok_iff.mp h
  have hdescriptors : (assemble config p).payload.descriptors =
      (p.axes config.rules).map (·.descriptor) := rfl
  rw [filter_drives_calls, hdescriptors, List.forall₂_map_left_iff]
  refine ⟨rfl, forall₂_axisCalls fun a ha => ?_, fun hcalls => forall₂_axisCalls fun a ha => ?_⟩
  · obtain ⟨call, hcall, hdriven, -⟩ := Phrase.exists_drivenBy ha
    exact ⟨call, hcall, hdriven, Axis.agrees_iff ha hcall⟩
  · obtain ⟨call, hcall, -⟩ := Phrase.exists_drivenBy ha
    refine ⟨call, hcall, (Axis.agrees_iff ha hcall).mpr ?_⟩
    rintro ⟨q, hq, r, hr, htwice⟩
    have hq := (Phrase.varies_of_mem_contributors ha hq).1
    obtain ⟨location, args, hargs⟩ := hcalls r (hr ▸ Phrase.construct_mem hq)
    exact Param.not_variesTwice_of_ofCall hargs htwice

/-- A phrase that varies in every way there is, the first time by its subject. -/
def seatsTaken : Phrase where
  description := "Who sits where"
  options := { subject := some (.identifier "host") }
  children :=
    [.construct (.name
      { name := ⟨"guest"⟩, value := .identifier "guest", gender := .identifier "g" }),
     .construct (.param { name := ⟨"row"⟩, value := .identifier "row", number := true }),
     .construct (.param
      { name := ⟨"friend"⟩, value := .identifier "friend", gender := some (.identifier "f") }),
     .fragment
      [.construct (.plural { singular := "seat", count := .identifier "n", showCount := .yes }),
       .construct (.plural { singular := "aisle", count := .identifier "m" }),
       .construct (.pronoun { usage := .possessive, gender := .identifier "g" }),
       .construct (.enumeration
        { value := .identifier "side", range := [⟨"left", "left"⟩, ⟨"right", "right"⟩] })] {}]

/-- Its params can come from call sites, and of eight axes each is described as its call
says. -/
theorem compile_describes_axes_seatsTaken :
    ∃ c, compile {} seatsTaken = .ok c ∧
      c.payload.descriptors =
        [some ⟨⟨"__subject__"⟩, .gender, false⟩, some ⟨⟨"guest"⟩, .gender, false⟩,
         some ⟨⟨"row"⟩, .number, false⟩, some ⟨⟨"friend"⟩, .gender, false⟩,
         some ⟨⟨"number"⟩, .number, true⟩, none, none, none] ∧
      List.Forall₂ Agrees c.payload.descriptors (c.calls.filter Call.drives) := by
  have h : compile {} seatsTaken = .ok (assemble {} seatsTaken) :=
    compile_of_isNone_fault? (by decide +kernel)
  obtain ⟨hdescriptors, -, hagree⟩ := compile_describes_axes h
  refine ⟨_, h, hdescriptors, hagree fun r hr => ?_⟩
  have hr : r = { name := ⟨"row"⟩, value := .identifier "row", number := true } ∨
      r = { name := ⟨"friend"⟩, value := .identifier "friend",
            gender := some (.identifier "f") } := by
    simpa [seatsTaken, Phrase.constructs, constructsIn, Node.constructs] using hr
  rcases hr with rfl | rfl
  · exact ⟨{}, [.string "row", .identifier "row",
      .object [.static (.name "number") (.bool true)]], rfl⟩
  · exact ⟨{}, [.string "friend", .identifier "friend",
      .object [.static (.name "gender") (.identifier "f")]], rfl⟩

/-- A phrase of one param that varies twice. -/
def countedFriend : Phrase where
  description := "A friend with a number"
  children :=
    [.construct (.param
      { name := ⟨"a"⟩
        value := .identifier "x"
        number := true
        gender := some (.identifier "g") })]

/-- **Not every descriptor agrees with the call it stands for**: a number is described
where the call takes a gender. -/
theorem not_describes_axes : ¬∀ (config : Config) (p : Phrase) (c : CompiledPhrase),
    compile config p = .ok c →
      List.Forall₂ Agrees c.payload.descriptors (c.calls.filter Call.drives) := by
  intro hall
  have h : compile {} countedFriend = .ok (assemble {} countedFriend) :=
    compile_of_isNone_fault? (by decide +kernel)
  have hcalls : (assemble {} countedFriend).calls.filter Call.drives =
      [.param ⟨"a"⟩ (.identifier "x") (.gender (.identifier "g"))] := rfl
  have hagree := hall {} countedFriend _ h
  rw [hcalls] at hagree
  rcases hagree with _ | ⟨hagree, -⟩
  rcases (hagree.number ⟨"a"⟩).mp ⟨_, rfl, rfl, rfl⟩ with ⟨value, hcall⟩ | ⟨count, value, hcall⟩
  · exact nomatch hcall
  · exact nomatch hcall

end Phrasebook
