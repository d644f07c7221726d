import Phrasebook.Proofs.Acceptance
import Phrasebook.Proofs.Levels

/-!
# Every value is evaluated once

What a compiled phrase evaluates at run time is settled by whether it has
fragments. If it has, the value behind each axis goes into a temporary, all levels
begin with these temporaries, and each level adds only what is its own: its plain
params, whose wording does not vary, and the fragments that stand on it
(`Phrasebook.EvaluatedAhead`). If it has none, the calls are made where the
constructs stand, one for each axis and one for each plain param
(`Phrasebook.CalledInPlace`).

Either way the calls that drive axes, taken in order, **line up** with the axes and
with the descriptors of the payload (`Phrasebook.LineUp`). In the first case this is
how temporaries are made. In the second it holds because axes stand in the order of
their leaders, so that leaders met in reading order come axis by axis.
-/

namespace Phrasebook

/-! ### Calls -/

/-- The token a call fills. -/
def Call.token? : Call → Option TokenName
  | .param token _ _ => some token
  | .name token _ _ => some token
  | .plural _ token _ => token
  | .enumeration _ _ | .pronoun _ _ _ => none
  | .subject _ => some .subject

/-- Whether a call drives an axis. -/
def Call.drives : Call → Bool
  | .param _ _ .none => false
  | .param _ _ _ | .name _ _ _ | .plural _ _ _ | .enumeration _ _ | .pronoun _ _ _
  | .subject _ => true

/-- The call of a **plain** param, one whose wording does not vary. -/
def Construct.plainCall? : Construct → Option Call
  | .param q => if q.number || q.gender.isSome then none else some (.param q.name q.value .none)
  | .text _ | .enumeration _ | .plural _ | .name _ | .pronoun _ | .sameParam _ => none

/-- The plain calls are the calls of the constructs that do not vary. -/
theorem Construct.plainCall?_eq (c : Construct) :
    c.plainCall? = if c.varies then none else c.call? := by
  cases c with
  | param q =>
    rcases hn : q.number with _ | _ <;> rcases hg : q.gender with _ | g <;>
      simp [Construct.plainCall?, Construct.varies, Construct.call?, Param.variation, hn, hg]
  | _ => rfl

/-- The calls of plain params are those of the constructs that do not vary. -/
theorem filterMap_plainCall? (constructs : List Construct) :
    constructs.filterMap Construct.plainCall? =
      (constructs.filter (!·.varies)).filterMap Construct.call? := by
  rw [List.filterMap_filter]
  refine List.filterMap_congr fun c _ => ?_
  rw [Construct.plainCall?_eq]
  cases c.varies <;> rfl

theorem Construct.drives_of_call? {c : Construct} {call : Call} (h : c.call? = some call) :
    call.drives = c.varies := by
  cases c with
  | text t => cases h
  | sameParam s => cases h
  | param q =>
    cases h
    rcases hn : q.number with _ | _ <;> rcases hg : q.gender with _ | g <;>
      simp [Call.drives, Construct.varies, Param.variation, hn, hg]
  | _ =>
    cases h
    rfl

mutual

/-- The calls an argument makes, those inside a fragment included. -/
def Argument.calls : Argument → List Call
  | .temporary _ => []
  | .call call => [call]
  | .fragment _ _ arguments => callsIn arguments

/-- The calls some arguments make, in order. -/
def callsIn : List Argument → List Call
  | [] => []
  | a :: rest => a.calls ++ callsIn rest

end

theorem callsIn_append (xs ys : List Argument) : callsIn (xs ++ ys) = callsIn xs ++ callsIn ys := by
  induction xs with
  | nil => rfl
  | cons a xs ih => rw [List.cons_append, callsIn, callsIn, ih, List.append_assoc]

theorem callsIn_calls (calls : List Call) : callsIn (calls.map .call) = calls := by
  induction calls with
  | nil => rfl
  | cons call calls ih => rw [List.map_cons, callsIn, Argument.calls, ih, List.singleton_append]

theorem callsIn_temporaries (count : Nat) : callsIn (temporaries count) = [] := by
  rw [temporaries]
  induction List.range count with
  | nil => rfl
  | cons i is ih => rw [List.map_cons, callsIn, Argument.calls, ih, List.nil_append]

/-! ### The call of an axis -/

/-- A call **drives** an axis: that of the subject drives the axis of the subject,
and any other axis is driven by its first contributor. -/
def Axis.DrivenBy (a : Axis) (p : Phrase) (call : Call) : Prop :=
  (a.owner = .subject ∧ ∃ e, p.options.subject = some e ∧ call = .subject e) ∨
    (a.owner ≠ .subject ∧ ∃ q rest, a.contributors = q :: rest ∧ q.construct.call? = some call)

/-- **Some calls line up** with the axes of a phrase and with the descriptors of its
payload: in order, each drives its axis and fills the token that is described. -/
structure LineUp (rules : Option PluralRules) (p : Phrase) (payload : Payload)
    (calls : List Call) : Prop where
  driven : List.Forall₂ (fun a call => a.DrivenBy p call) (p.axes rules) calls
  described : List.Forall₂ (fun (d : Option Descriptor) call => call.token? = d.map (·.token))
    payload.descriptors calls

variable {rules : Option PluralRules} {p : Phrase}

/-- A construct's axis describes the token that the construct's call fills. -/
theorem Placed.token?_of_axis? {q : Placed} {a : Axis} {call : Call} (ha : q.axis? rules = some a)
    (hcall : q.construct.call? = some call) : call.token? = a.descriptor.map (·.token) := by
  obtain ⟨id, c⟩ := q
  cases c with
  | text t => cases ha
  | sameParam s => cases ha
  | param r =>
    cases hcall
    simp only [Placed.axis?] at ha
    split at ha
    · cases ha
      rfl
    · split at ha
      · cases ha
        rfl
      · cases ha
  | plural r =>
    cases ha
    cases hcall
    cases r.shownToken? <;> simp [Call.token?, Placed.ownAxis]
  | _ =>
    cases ha
    cases hcall
    rfl

/-- **Every axis of a phrase has a call that drives it**, and the call fills the
token described. -/
theorem Phrase.exists_drivenBy {a : Axis} (ha : a ∈ p.axes rules) :
    ∃ call, a.call? p.options.subject = some call ∧ a.DrivenBy p call ∧
      call.token? = a.descriptor.map (·.token) := by
  rcases Phrase.mem_axes.mp ha with ⟨rfl, hsubject⟩ | ha
  · obtain ⟨e, he⟩ := Option.isSome_iff_exists.mp hsubject
    refine ⟨.subject e, ?_, Or.inl ⟨rfl, e, he, rfl⟩, rfl⟩
    rw [call?_subjectAxis, he, Option.map_some]
  · obtain ⟨q, rest, hcons, -, -, hcalls⟩ := Phrase.exists_leader ha p.options.subject
    have hq : q ∈ a.contributors := hcons ▸ List.mem_cons_self
    have haxis := (p.collected rules).contributed a ha q hq
    have hvaries := (Phrase.varies_of_mem_contributors (Phrase.mem_axes.mpr (Or.inr ha)) hq).2
    obtain ⟨call, hcall⟩ := Construct.exists_call?_of_varies hvaries
    have howner := Placed.owner_ne_subject haxis
    have htoken := Placed.token?_of_axis? haxis hcall
    exact ⟨call, hcalls.trans hcall, Or.inr ⟨howner, q, rest, hcons, hcall⟩, htoken⟩

/-- The calls of the axes of a phrase, in order. -/
def axisCalls (subject : Option Expr) (axes : List Axis) : List Call :=
  axes.filterMap (Axis.call? subject)

theorem forall₂_axisCalls {subject : Option Expr} {axes : List Axis} {R : Axis → Call → Prop}
    (h : ∀ a ∈ axes, ∃ call, a.call? subject = some call ∧ R a call) :
    List.Forall₂ R axes (axisCalls subject axes) := by
  induction axes with
  | nil => exact List.Forall₂.nil
  | cons a axes ih =>
    obtain ⟨call, hcall, hR⟩ := h a List.mem_cons_self
    rw [axisCalls, List.filterMap_cons_some hcall]
    exact List.Forall₂.cons hR (ih fun b hb => h b (List.mem_cons_of_mem _ hb))

/-- **The calls of the axes line up** with the payload of any level. -/
theorem lineUp_axisCalls {payload : Payload}
    (hpayload : payload.descriptors = (p.axes rules).map (·.descriptor)) :
    LineUp rules p payload (axisCalls p.options.subject (p.axes rules)) := by
  constructor
  · refine forall₂_axisCalls fun a ha => ?_
    obtain ⟨call, hcall, hdriven, -⟩ := Phrase.exists_drivenBy ha
    exact ⟨call, hcall, hdriven⟩
  · rw [hpayload, List.forall₂_map_left_iff]
    refine forall₂_axisCalls fun a ha => ?_
    obtain ⟨call, hcall, -, htoken⟩ := Phrase.exists_drivenBy ha
    exact ⟨call, hcall, htoken⟩

/-! ### Temporaries -/

/-- One temporary is made for each axis, in order, if each axis has a call. -/
theorem hoisted_eq {subject : Option Expr} {axes : List Axis}
    (h : ∀ a ∈ axes, ∃ call, a.call? subject = some call) :
    (hoisted subject axes).map (·.axis) = List.range axes.length ∧
      (hoisted subject axes).map (·.call) = axisCalls subject axes := by
  rw [hoisted, List.range_eq_range']
  -- the induction is on the axes that are left, the first of which stands at `i`
  generalize 0 = i
  induction axes generalizing i with
  | nil => exact ⟨rfl, rfl⟩
  | cons a axes ih =>
    obtain ⟨call, hcall⟩ := h a List.mem_cons_self
    obtain ⟨haxes, hcalls⟩ := ih (fun b hb => h b (List.mem_cons_of_mem _ hb)) (i + 1)
    simp only [List.zipIdx_cons, List.filterMap_cons, hcall, Option.map_some]
    constructor
    · rw [List.map_cons, haxes, List.length_cons, List.range'_succ]
    · rw [List.map_cons, hcalls, axisCalls, axisCalls, List.filterMap_cons_some hcall]

/-- The temporaries of a phrase stand for the calls of its axes. -/
theorem Phrase.hoisted_axes (rules : Option PluralRules) (p : Phrase) :
    (hoisted p.options.subject (p.axes rules)).map (·.axis) = List.range (p.axes rules).length ∧
      (hoisted p.options.subject (p.axes rules)).map (·.call) =
        axisCalls p.options.subject (p.axes rules) := by
  refine hoisted_eq fun a ha => ?_
  obtain ⟨call, hcall, -⟩ := Phrase.exists_drivenBy ha
  exact ⟨call, hcall⟩

/-! ### What a level adds of its own -/

/-- Whether a node adds an argument to its level in a phrase with fragments. -/
def Outline.supplies : Outline → Bool
  | .construct _ c => c.plainCall?.isSome
  | .fragment _ _ _ _ => true

/-- The argument a node adds to its level: a plain param its call, and a fragment
itself, under its alias. -/
def Outline.Supplies : Outline → Argument → Prop
  | .construct _ c, a => ∃ call, c.plainCall? = some call ∧ a = .call call
  | .fragment _ ordinal _ _, a =>
    ∃ payload arguments, a = .fragment ⟨"=m" ++ toString ordinal⟩ payload arguments

/-- **The arguments of a level** in a phrase with so many temporaries: these, and then
what its nodes supply, in document order. -/
def SuppliesLevel (count : Nat) (level : List Outline) (arguments : List Argument) : Prop :=
  ∃ own, arguments = (List.range count).map .temporary ++ own ∧
    List.Forall₂ Outline.Supplies (level.filter Outline.supplies) own

/-- Some axes **account for** some constructs: these contribute to one of them just
when they vary. -/
def AccountFor (axes : List Axis) (placed : List Placed) : Prop :=
  ∀ q ∈ placed, (drivenAxis? axes q.id).isSome = q.construct.varies

theorem AccountFor.of_append {axes : List Axis} {xs ys : List Placed}
    (h : AccountFor axes (xs ++ ys)) : AccountFor axes xs ∧ AccountFor axes ys :=
  List.forall_mem_append.mp h

theorem Phrase.accountFor (rules : Option PluralRules) (p : Phrase) :
    AccountFor (p.axes rules) p.placed :=
  fun _ hq => Phrase.isSome_drivenAxis? hq

section Shared

variable {axes : List Axis} {project : String} {root : List Outline} {shared : List Argument}

theorem sharedArguments_construct {id : Nat} {c : Construct}
    (hdriven : (drivenAxis? axes id).isSome = c.varies) :
    (Outline.construct id c).sharedArguments axes project root shared =
      (c.plainCall?.map .call).toList := by
  rw [Outline.sharedArguments, Construct.plainCall?_eq]
  rcases hv : c.varies <;> rw [hv] at hdriven
  · simp [Option.isSome_eq_false_iff.mp hdriven]
  · simp [Option.isNone_eq_false_iff.mpr hdriven]

/-- A level adds the calls of its plain params and its fragments. -/
theorem forall₂_supplies_sharedArgumentsAll {level : List Outline}
    (haccount : AccountFor axes (constructsAll level)) :
    List.Forall₂ Outline.Supplies (level.filter Outline.supplies)
      (sharedArgumentsAll axes project root shared level) := by
  induction level with
  | nil => exact List.Forall₂.nil
  | cons o level ih =>
    obtain ⟨ho, hlevel⟩ := AccountFor.of_append haccount
    have ih := ih hlevel
    rw [sharedArgumentsAll]
    cases o with
    | construct id c =>
      rw [sharedArguments_construct (ho ⟨id, c⟩ (List.mem_singleton_self _))]
      rcases hplain : c.plainCall? with _ | call
      · rw [List.filter_cons_of_neg (by simp [Outline.supplies, hplain])]
        exact ih
      · rw [List.filter_cons_of_pos (by simp [Outline.supplies, hplain])]
        exact List.Forall₂.cons ⟨call, hplain, rfl⟩ ih
    | fragment id ordinal location children =>
      rw [List.filter_cons_of_pos rfl]
      exact List.Forall₂.cons ⟨_, _, rfl⟩ ih

mutual

theorem Outline.callsIn_sharedArguments (hshared : callsIn shared = []) : ∀ o : Outline,
    AccountFor axes o.constructs →
      callsIn (o.sharedArguments axes project root shared) =
        o.constructs.filterMap (·.construct.plainCall?)
  | .construct id c, haccount => by
    rw [sharedArguments_construct (haccount ⟨id, c⟩ (List.mem_singleton_self _)),
      Outline.constructs]
    cases h : c.plainCall? <;> simp [callsIn, Argument.calls, h]
  | .fragment id ordinal location children, haccount => by
    have hchildren := callsIn_sharedArgumentsAll hshared children haccount
    rw [Outline.sharedArguments, callsIn, callsIn, List.append_nil, Argument.calls,
      callsIn_append, hshared, List.nil_append, hchildren, Outline.constructs]

/-- Going through all levels meets every plain param once, in reading order. -/
theorem callsIn_sharedArgumentsAll (hshared : callsIn shared = []) : ∀ os : List Outline,
    AccountFor axes (constructsAll os) →
      callsIn (sharedArgumentsAll axes project root shared os) =
        (constructsAll os).filterMap (·.construct.plainCall?)
  | [], _ => rfl
  | o :: os, haccount => by
    obtain ⟨ho, hos⟩ := AccountFor.of_append haccount
    rw [sharedArgumentsAll, callsIn_append, Outline.callsIn_sharedArguments hshared o ho,
      callsIn_sharedArgumentsAll hshared os hos, constructsAll, List.filterMap_append]

end

end Shared

/-! ### Calls in place -/

/-- Whether a construct makes a call in a phrase without fragments: a plain param, or
the first contributor of an axis. -/
def Placed.calledInPlace (axes : List Axis) (q : Placed) : Bool :=
  q.construct.plainCall?.isSome || leadsAxis axes q.id

theorem inlineCall?_construct {axes : List Axis} {q : Placed}
    (hdriven : (drivenAxis? axes q.id).isSome = q.construct.varies) :
    (Outline.construct q.id q.construct).inlineCall? axes =
      if q.calledInPlace axes then q.construct.call? else none := by
  rw [Outline.inlineCall?, Placed.calledInPlace, Construct.plainCall?_eq]
  rcases hv : q.construct.varies <;> rw [hv] at hdriven
  · rw [Option.isSome_eq_false_iff.mp hdriven]
    cases q.construct.call? <;> simp
  · rw [Option.isNone_eq_false_iff.mpr hdriven]
    simp

theorem filterMap_inlineCall? {axes : List Axis} {level : List Outline}
    (hlevel : hasFragment level = false) (haccount : AccountFor axes (constructsAll level)) :
    level.filterMap (Outline.inlineCall? axes) =
      ((constructsAll level).filter (Placed.calledInPlace axes)).filterMap
        (·.construct.call?) := by
  rw [List.filterMap_filter]
  induction level with
  | nil => rfl
  | cons o level ih =>
    rw [hasFragment, List.any_cons, Bool.or_eq_false_iff] at hlevel
    obtain ⟨ho, hrest⟩ := AccountFor.of_append haccount
    have ih := ih hlevel.2 hrest
    cases o with
    | construct id c =>
      have hc := inlineCall?_construct (ho ⟨id, c⟩ (List.mem_singleton_self _))
      rw [List.filterMap_cons, hc, ih, constructsAll, Outline.constructs, List.singleton_append,
        List.filterMap_cons]
    | fragment id ordinal location children => simp [Outline.isFragment] at hlevel

namespace Phrase

variable (rules p) in
theorem axisCalls_constructAxes (subject : Option Expr) :
    axisCalls subject (p.constructAxes rules) =
      (leaders (p.constructAxes rules)).filterMap (·.construct.call?) := by
  rw [axisCalls, leaders, List.filterMap_filterMap]
  refine List.filterMap_congr fun a ha => ?_
  obtain ⟨q, rest, hcons, -, -, hcall⟩ := Phrase.exists_leader ha subject
  rw [hcall, hcons, List.head?_cons, Option.bind_some]

/-- **The calls of the axes are those of the subject and of the leaders**, in the
order the leaders are met. -/
theorem axisCalls_eq : axisCalls p.options.subject (p.axes rules) =
    p.options.subject.toList.map .subject ++
      (p.placed.filter fun q => leadsAxis (p.axes rules) q.id).filterMap
        (·.construct.call?) := by
  have hsubject : axisCalls p.options.subject p.subjectAxes =
      p.options.subject.toList.map .subject := by
    rw [subjectAxes]
    cases p.options.subject <;> rfl
  rw [filter_leadsAxis, leaders_axes, ← axisCalls_constructAxes, ← hsubject, axes_eq, axisCalls,
    axisCalls, axisCalls, List.filterMap_append]

/-- A leader drives its axis, and of the constructs called in place only leaders
drive one. -/
theorem filter_drives_call? {q : Placed} (hq : q ∈ p.placed) :
    (if q.calledInPlace (p.axes rules) then q.construct.call? else none).filter Call.drives =
      if leadsAxis (p.axes rules) q.id then q.construct.call? else none := by
  by_cases hlead : leadsAxis (p.axes rules) q.id = true
  · -- it varies, so its call drives
    have hvaries := varies_of_leadsAxis hq hlead
    obtain ⟨call, hcall⟩ := Construct.exists_call?_of_varies hvaries
    have hdrives := (Construct.drives_of_call? hcall).trans hvaries
    simp [Placed.calledInPlace, hlead, hcall, hdrives]
  · -- it is called only if it is plain, and then its call does not drive
    rw [Bool.not_eq_true] at hlead
    rw [Placed.calledInPlace, hlead, Bool.or_false, Construct.plainCall?_eq]
    cases hv : q.construct.varies with
    | true => simp
    | false =>
      rcases hcall : q.construct.call? with _ | call
      · simp
      · have hdrives := (Construct.drives_of_call? hcall).trans hv
        simp [hdrives]

end Phrase

/-! ### The arguments of a phrase -/

/-- **A phrase is evaluated ahead**: there is one temporary for each axis, in order,
which line up with the payload; each level has the temporaries and what its own
nodes supply; and going through all levels meets each plain param and each fragment
once. -/
structure CompiledPhrase.EvaluatedAhead (rules : Option PluralRules) (p : Phrase)
    (c : CompiledPhrase) : Prop where
  axes : c.hoisted.map (·.axis) = List.range (p.axes rules).length
  lineUp : LineUp rules p c.payload (c.hoisted.map (·.call))
  root : SuppliesLevel c.hoisted.length p.outline c.arguments
  fragments : List.Forall₂ (fun (f : FragmentPhrase) (n : PlacedFragment) =>
    f.aliasName = ⟨"=m" ++ toString n.ordinal⟩ ∧
      SuppliesLevel c.hoisted.length n.children f.arguments) c.fragments p.fragmentNodes
  params_once : callsIn c.arguments = p.constructs.filterMap Construct.plainCall?
  fragments_once : c.fragments.map (·.aliasName) =
    (List.range (fragmentCountAll p.children)).map fun i => ⟨"=m" ++ toString i⟩

/-- **A phrase is called in place**: its arguments are the call of the subject, if it
has one, and in document order the calls of the first contributor of each axis and of
each plain param; those that drive axes line up with the payload. -/
structure CompiledPhrase.CalledInPlace (rules : Option PluralRules) (p : Phrase)
    (c : CompiledPhrase) : Prop where
  hoisted : c.hoisted = []
  arguments : c.arguments = (p.options.subject.toList.map Call.subject ++
    (p.placed.filter (Placed.calledInPlace (p.axes rules))).filterMap
      (·.construct.call?)).map Argument.call
  lineUp : LineUp rules p c.payload ((callsIn c.arguments).filter Call.drives)

variable {config : Config}

theorem evaluatedAhead_assemble (h : p.HasFragments) :
    (assemble config p).EvaluatedAhead config.rules p := by
  obtain ⟨hhoisted, harguments⟩ := assemble_of_hasFragments config h
  obtain ⟨haxes, hcalls⟩ := p.hoisted_axes config.rules
  have haccount := p.accountFor config.rules
  have hshared : callsIn (p.sharedTemporaries config) = [] := callsIn_temporaries _
  -- one by one: the temporaries, the levels, and what all levels make together
  refine
    { axes := hhoisted ▸ haxes
      lineUp := ?_
      root := ⟨_, harguments, forall₂_supplies_sharedArgumentsAll haccount⟩
      fragments := ?_
      params_once := ?_
      fragments_once := aliases_assemble config p }
  · rw [hhoisted, hcalls]
    exact lineUp_axisCalls rfl
  · rw [fragments_assemble, List.forall₂_map_left_iff, List.forall₂_same]
    refine fun n hn => ⟨rfl, _, rfl, forall₂_supplies_sharedArgumentsAll fun q hq => ?_⟩
    exact haccount q (constructsAll_of_mem_fragmentNodesIn p.outline hn q hq)
  · rw [harguments, callsIn_append, hshared, List.nil_append,
      callsIn_sharedArgumentsAll hshared p.outline haccount, ← p.map_construct_placed,
      List.filterMap_map]
    rfl

/-- **A phrase without fragments makes its calls in place.** -/
theorem arguments_assemble (h : ¬p.HasFragments) :
    (assemble config p).arguments = (p.options.subject.toList.map Call.subject ++
      (p.placed.filter (Placed.calledInPlace (p.axes config.rules))).filterMap
        (·.construct.call?)).map Argument.call := by
  have hlevel : hasFragment p.outline = false :=
    Bool.eq_false_iff.mpr fun hf => h (p.hasFragment_outline.mp hf)
  rw [(assemble_of_not_hasFragments config h).2, inlineArguments,
    filterMap_inlineCall? hlevel (p.accountFor config.rules)]
  rfl

/-- **Of the calls in place, those that drive are the calls of the axes.** -/
theorem filter_drives_arguments (h : ¬p.HasFragments) :
    (callsIn (assemble config p).arguments).filter Call.drives =
      axisCalls p.options.subject (p.axes config.rules) := by
  have hsubject : (p.options.subject.toList.map Call.subject).filter Call.drives =
      p.options.subject.toList.map Call.subject := by
    cases p.options.subject <;> rfl
  rw [arguments_assemble h, callsIn_calls, List.filter_append, hsubject, Phrase.axisCalls_eq,
    List.filterMap_filter, List.filterMap_filter, List.filter_filterMap]
  exact congrArg _ (List.filterMap_congr fun q hq => Phrase.filter_drives_call? hq)

theorem calledInPlace_assemble (h : ¬p.HasFragments) :
    (assemble config p).CalledInPlace config.rules p := by
  refine ⟨(assemble_of_not_hasFragments config h).1, arguments_assemble h, ?_⟩
  rw [filter_drives_arguments h]
  exact lineUp_axisCalls rfl

/-! ### All calls of a phrase -/

/-- **The calls of a compiled phrase**: those of its temporaries, and those that its
arguments make at every level. -/
def CompiledPhrase.calls (c : CompiledPhrase) : List Call :=
  c.hoisted.map (·.call) ++ callsIn c.arguments

/-- With fragments, the calls are those of the axes and those of the plain params. -/
theorem calls_of_hasFragments (h : p.HasFragments) : (assemble config p).calls =
    axisCalls p.options.subject (p.axes config.rules) ++
      p.constructs.filterMap Construct.plainCall? := by
  rw [CompiledPhrase.calls, (evaluatedAhead_assemble h).params_once,
    (assemble_of_hasFragments config h).1, (p.hoisted_axes config.rules).2]

/-- Without fragments, the calls are those in place. -/
theorem calls_of_not_hasFragments (h : ¬p.HasFragments) : (assemble config p).calls =
    p.options.subject.toList.map Call.subject ++
      (p.placed.filter (Placed.calledInPlace (p.axes config.rules))).filterMap
        (·.construct.call?) := by
  rw [CompiledPhrase.calls, (assemble_of_not_hasFragments config h).1, arguments_assemble h,
    callsIn_calls]
  rfl

/-- The call of an axis drives it. -/
theorem drives_of_mem_axisCalls {call : Call}
    (h : call ∈ axisCalls p.options.subject (p.axes rules)) : call.drives = true := by
  rw [Phrase.axisCalls_eq, List.mem_append, List.mem_map, List.mem_filterMap] at h
  rcases h with ⟨e, -, rfl⟩ | ⟨q, hq, hcall⟩
  · rfl
  · obtain ⟨hq, hlead⟩ := List.mem_filter.mp hq
    exact (Construct.drives_of_call? hcall).trans (Phrase.varies_of_leadsAxis hq hlead)

theorem not_drives_of_plainCall? {c : Construct} {call : Call} (h : c.plainCall? = some call) :
    ¬call.drives = true := by
  rw [Construct.plainCall?_eq] at h
  split at h
  · exact nomatch h
  · rwa [Construct.drives_of_call? h]

/-- **Of all calls, those that drive are the calls of the axes**, in their order. -/
theorem filter_drives_calls : (assemble config p).calls.filter Call.drives =
    axisCalls p.options.subject (p.axes config.rules) := by
  by_cases h : p.HasFragments
  · rw [calls_of_hasFragments h, List.filter_append,
      List.filter_eq_self.mpr fun call hcall => drives_of_mem_axisCalls hcall,
      List.filter_eq_nil_iff.mpr fun call hcall => ?_, List.append_nil]
    obtain ⟨c, -, hc⟩ := List.mem_filterMap.mp hcall
    exact not_drives_of_plainCall? hc
  · rw [CompiledPhrase.calls, (assemble_of_not_hasFragments config h).1, List.map_nil,
      List.nil_append, filter_drives_arguments h]

/-- **Every runtime value is evaluated once**, and those that wordings depend on line
up with the payload: ahead of a phrase with fragments, and in place otherwise. -/
theorem compile_evaluates_once {c : CompiledPhrase} (h : compile config p = .ok c) :
    (p.HasFragments → c.EvaluatedAhead config.rules p) ∧
      (¬p.HasFragments → c.CalledInPlace config.rules p) := by
  obtain ⟨-, rfl⟩ := compile_eq_ok_iff.mp h
  exact ⟨evaluatedAhead_assemble, calledInPlace_assemble⟩

/-- A phrase with a plain param on each of two levels, and an axis they share. -/
def songForMood : Phrase where
  description := "A song for a mood"
  children :=
    [.construct (.param { name := ⟨"listener"⟩, value := .identifier "listener" }),
     .construct (.enumeration
      { value := .identifier "mood", range := [⟨"glad", " cheers to "⟩, ⟨"sad", " weeps to "⟩] }),
     .fragment
      [.construct (.param { name := ⟨"song"⟩, value := .call (.identifier "pick") [] }),
       .construct (.enumeration
        { value := .identifier "mood", range := [⟨"glad", ", loud"⟩, ⟨"sad", ", soft"⟩] })] {}]

/-- A phrase about its subject, without fragments. -/
def lettersSent : Phrase where
  description := "Letters someone sent"
  options := { subject := some (.identifier "gender") }
  children :=
    [.construct (.param { name := ⟨"sender"⟩, value := .identifier "sender" }),
     .construct (.plural { singular := "letter", count := .call (.identifier "count") [] })]

/-- One phrase is evaluated ahead, the other in place. -/
theorem compile_evaluates_once_songForMood :
    (∃ c, compile {} songForMood = .ok c ∧ c.hoisted.map (·.axis) = [0] ∧
      callsIn c.arguments =
        [.param ⟨"listener"⟩ (.identifier "listener") .none,
         .param ⟨"song"⟩ (.call (.identifier "pick") []) .none] ∧
      c.fragments.map (·.aliasName) = [⟨"=m0"⟩]) ∧
    ∃ c, compile {} lettersSent = .ok c ∧ c.hoisted = [] ∧ c.arguments =
        [.call (.subject (.identifier "gender")),
         .call (.param ⟨"sender"⟩ (.identifier "sender") .none),
         .call (.plural (.call (.identifier "count") []) none none)] := by
  have hsong : compile {} songForMood = .ok (assemble {} songForMood) :=
    compile_of_isNone_fault? (by decide +kernel)
  have hletters : compile {} lettersSent = .ok (assemble {} lettersSent) :=
    compile_of_isNone_fault? (by decide +kernel)
  have ahead := (compile_evaluates_once hsong).1 (by decide)
  have inPlace := (compile_evaluates_once hletters).2 (by decide)
  exact ⟨⟨_, hsong, ahead.axes, ahead.params_once, ahead.fragments_once⟩,
    _, hletters, inPlace.hoisted, inPlace.arguments⟩

end Phrasebook
