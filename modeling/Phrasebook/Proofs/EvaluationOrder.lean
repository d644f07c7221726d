import Mathlib.Data.List.Flatten
import Phrasebook.Proofs.Arguments

/-!
# The order of effects

An expression that holds a call may have effects, so it matters when it is
evaluated. A phrase with fragments evaluates its temporaries first, and then its
arguments from left to right, going into a fragment where it stands.

The expressions that pick wordings hold no calls in such a phrase, but others are
evaluated with them: what a name or a plural shows, and the value of a param that
varies. None of these is looked at when a phrase is accepted. They are evaluated
ahead, and the values of plain params are not, so the effects of the constructs
that vary come before those of the plain params, each in reading order
(`Phrasebook.compile_effects_order`). That is the order of the source exactly
when no plain param with an effect stands before a construct that varies and has
one (`Phrasebook.Phrase.DriversFirst`).
-/

namespace Phrasebook

/-! ### Effects -/

/-- The expressions a call evaluates. -/
def Call.exprs : Call → List Expr
  | .param _ value (.gender gender) => [value, gender]
  | .param _ value .none | .param _ value .number => [value]
  | .name _ value gender => [value, gender]
  | .plural count _ value => count :: value.toList
  | .enumeration value _ => [value]
  | .pronoun _ gender _ => [gender]
  | .subject gender => [gender]

/-- The expressions of a construct. -/
def Construct.exprs : Construct → List Expr
  | .param q => q.value :: q.gender.toList
  | .name n => [n.value, n.gender]
  | .plural q => q.count :: q.value.toList
  | .enumeration e => [e.value]
  | .pronoun q => [q.gender]
  | .text _ | .sameParam _ => []

/-- The expressions of a construct that hold calls. -/
def Construct.effects (c : Construct) : List Expr :=
  c.exprs.filter Expr.hasCall

/-- **The effects of a phrase in its source**: the expressions that hold calls, that
of its subject first, and then those of its constructs in reading order. -/
def Phrase.effects (p : Phrase) : List Expr :=
  (p.options.subject.toList ++ p.constructs.flatMap Construct.exprs).filter Expr.hasCall

/-- **The effects of a compiled phrase**: the expressions that hold calls, in the
order they are evaluated in, those of the temporaries first. -/
def CompiledPhrase.effects (c : CompiledPhrase) : List Expr :=
  ((c.hoisted.map (·.call) ++ callsIn c.arguments).flatMap Call.exprs).filter Expr.hasCall

/-- A call evaluates the expressions of its construct. -/
theorem Construct.exprs_of_call? {c : Construct} {call : Call} (h : c.call? = some call) :
    call.exprs = c.exprs := by
  cases c with
  | text t => cases h
  | sameParam s => cases h
  | param q =>
    cases h
    rcases hn : q.number with _ | _ <;> rcases hg : q.gender with _ | g <;>
      simp [Call.exprs, Construct.exprs, Param.variation, hn, hg]
  | _ =>
    cases h
    rfl

theorem Construct.exprs_eq (c : Construct) : c.exprs = c.call?.toList.flatMap Call.exprs := by
  rcases hcall : c.call? with _ | call
  · cases c <;> simp_all [Construct.call?, Construct.exprs]
  · rw [← Construct.exprs_of_call? hcall, Option.toList_some, List.flatMap_singleton]

/-! ### Moving some elements to the front -/

section Lists

variable {α β : Type} {front : α → Bool} {f : α → List β} {l : List α}

/-- Moving elements to the front keeps what they stand for in order, if none that
stands for something moves past another. -/
theorem flatMap_filter_append
    (h : l.Pairwise fun x y => f x ≠ [] → f y ≠ [] → front y = true → front x = true) :
    (l.filter front).flatMap f ++ (l.filter (!front ·)).flatMap f = l.flatMap f := by
  induction l with
  | nil => rfl
  | cons x l ih =>
    obtain ⟨hx, hl⟩ := List.pairwise_cons.mp h
    have ih := ih hl
    by_cases hfront : front x = true
    · rw [List.filter_cons_of_pos hfront, List.filter_cons_of_neg (by simp [hfront]),
        List.flatMap_cons, List.flatMap_cons, List.append_assoc, ih]
    · rw [List.filter_cons_of_neg hfront, List.filter_cons_of_pos (by simp [hfront]),
        List.flatMap_cons, List.flatMap_cons]
      by_cases hnil : f x = []
      · rw [hnil, List.nil_append, List.nil_append, ih]
      · -- what would move past `x` stands for nothing
        have hnone : (l.filter front).flatMap f = [] := by
          refine List.flatMap_eq_nil_iff.mpr fun y hy => by_contra fun hy' => hfront ?_
          obtain ⟨hyl, hyfront⟩ := List.mem_filter.mp hy
          exact hx y hyl hnil hy' hyfront
        rw [hnone, List.nil_append] at ih ⊢
        rw [ih]

theorem flatMap_filter_of_eq_nil (h : ∀ x ∈ l, ¬front x = true → f x = []) :
    (l.filter front).flatMap f = l.flatMap f := by
  induction l with
  | nil => rfl
  | cons x l ih =>
    have ih := ih fun y hy => h y (List.mem_cons_of_mem _ hy)
    by_cases hfront : front x = true
    · rw [List.filter_cons_of_pos hfront, List.flatMap_cons, List.flatMap_cons, ih]
    · rw [List.filter_cons_of_neg hfront, List.flatMap_cons, ih, h x List.mem_cons_self hfront,
        List.nil_append]

/-- Without repetitions, two elements stand in one order only. -/
theorem not_sublist_swap {a b : β} {l : List β} (hl : l.Nodup) (hab : [a, b].Sublist l) :
    ¬[b, a].Sublist l := by
  induction l with
  | nil => exact nomatch hab
  | cons x l ih =>
    obtain ⟨hx, hl⟩ := List.nodup_cons.mp hl
    intro hba
    rcases List.sublist_cons_iff.mp hab with hab' | ⟨r, hr, hbl⟩
    · rcases List.sublist_cons_iff.mp hba with hba' | ⟨r, hr, -⟩
      · exact ih hl hab' hba'
      · obtain ⟨rfl, -⟩ := List.cons.inj hr
        exact hx (hab'.subset (List.mem_cons_of_mem _ List.mem_cons_self))
    · obtain ⟨rfl, rfl⟩ := List.cons.inj hr
      rcases List.sublist_cons_iff.mp hba with hba' | ⟨r, hr, -⟩
      · exact hx (hba'.subset (List.mem_cons_of_mem _ List.mem_cons_self))
      · obtain ⟨rfl, -⟩ := List.cons.inj hr
        exact hx (List.singleton_sublist.mp hbl)

/-- If nothing is repeated, only moves past what stands for nothing keep the order. -/
theorem pairwise_of_flatMap_filter_append
    (h : (l.filter front).flatMap f ++ (l.filter (!front ·)).flatMap f = l.flatMap f)
    (hnd : (l.flatMap f).Nodup) :
    l.Pairwise fun x y => f x ≠ [] → f y ≠ [] → front y = true → front x = true := by
  refine List.pairwise_of_forall_sublist fun {x y} hxy hx hy hfront => by_contra fun hback => ?_
  -- `b` moves past `a`, so the two would stand in both orders
  obtain ⟨a, ha⟩ := List.exists_mem_of_ne_nil _ hx
  obtain ⟨b, hb⟩ := List.exists_mem_of_ne_nil _ hy
  have hxl : x ∈ l := hxy.subset List.mem_cons_self
  have hyl : y ∈ l := hxy.subset (List.mem_cons_of_mem _ List.mem_cons_self)
  have hab : [a, b].Sublist (l.flatMap f) := by
    refine List.Sublist.trans ?_ (hxy.flatMap f)
    rw [List.flatMap_cons, List.flatMap_singleton]
    exact (List.singleton_sublist.mpr ha).append (List.singleton_sublist.mpr hb)
  have hba : [b, a].Sublist (l.flatMap f) := by
    have hfirst : b ∈ (l.filter front).flatMap f :=
      List.mem_flatMap.mpr ⟨y, List.mem_filter.mpr ⟨hyl, hfront⟩, hb⟩
    have hlast : a ∈ (l.filter (!front ·)).flatMap f :=
      List.mem_flatMap.mpr ⟨x, List.mem_filter.mpr ⟨hxl, by simpa using hback⟩, ha⟩
    rw [← h]
    exact (List.singleton_sublist.mpr hfirst).append (List.singleton_sublist.mpr hlast)
  exact not_sublist_swap hnd hab hba

end Lists

/-! ### What is evaluated ahead -/

theorem effects_filterMap_call? (constructs : List Construct) :
    ((constructs.filterMap Construct.call?).flatMap Call.exprs).filter Expr.hasCall =
      constructs.flatMap Construct.effects := by
  rw [List.filterMap_eq_flatMap_toList, List.flatMap_assoc, List.filter_flatMap]
  refine List.flatMap_congr fun c _ => ?_
  rw [Construct.effects, Construct.exprs_eq]

variable {config : Config} {rules : Option PluralRules} {p : Phrase}

/-- In a phrase with fragments the subject has no effects. -/
theorem filter_hasCall_subject (hplain : p.DriversHoldNoCall) (hfrag : p.HasFragments) :
    p.options.subject.toList.filter Expr.hasCall = [] := by
  refine List.filter_eq_nil_iff.mpr fun e he hcall => ?_
  exact hplain hfrag e (Or.inl (Option.mem_toList.mp he)) ((Expr.hasCall_iff _).mp hcall)

/-- A construct that varies but does not lead is an enumeration, which has no effects
in a phrase with fragments. -/
theorem effects_eq_nil_of_not_leadsAxis (hplain : p.DriversHoldNoCall) (hfrag : p.HasFragments)
    {q : Placed} (hq : q ∈ p.placed) (hvaries : q.construct.varies = true)
    (hlead : ¬leadsAxis (p.axes rules) q.id = true) : q.construct.effects = [] := by
  obtain ⟨e, he⟩ : ∃ e, q.construct = .enumeration e := by
    by_contra hne
    exact hlead (Phrase.leadsAxis_of_varies hq hvaries fun e he => hne ⟨e, he⟩)
  refine List.filter_eq_nil_iff.mpr fun e' he' hcall => ?_
  have hdriver : p.IsDriver e' := by
    refine Or.inr ⟨q.construct, Phrase.construct_mem hq, ?_⟩
    rw [he, Construct.exprs, List.mem_singleton] at he'
    rw [he, he', Construct.driver?]
  exact hplain hfrag e' hdriver ((Expr.hasCall_iff _).mp hcall)

/-- **The temporaries have the effects of the constructs that vary**, in reading
order. -/
theorem effects_axisCalls (hplain : p.DriversHoldNoCall) (hfrag : p.HasFragments) :
    ((axisCalls p.options.subject (p.axes rules)).flatMap Call.exprs).filter Expr.hasCall =
      (p.constructs.filter (·.varies)).flatMap Construct.effects := by
  have hsubject : ((p.options.subject.toList.map Call.subject).flatMap Call.exprs).filter
      Expr.hasCall = [] := by
    have hexprs : (p.options.subject.toList.map Call.subject).flatMap Call.exprs =
        p.options.subject.toList := by
      cases p.options.subject <;> rfl
    rw [hexprs, filter_hasCall_subject hplain hfrag]
  have hcalls : (p.placed.filter fun q => leadsAxis (p.axes rules) q.id).filterMap
      (·.construct.call?) = ((p.placed.filter fun q => leadsAxis (p.axes rules) q.id).map
        (·.construct)).filterMap Construct.call? := by
    rw [List.filterMap_map]
    rfl
  rw [Phrase.axisCalls_eq, List.flatMap_append, List.filter_append, hsubject, List.nil_append,
    hcalls, effects_filterMap_call?, List.flatMap_map, ← Phrase.filter_varies_leadsAxis,
    ← p.map_construct_placed, List.filter_map, List.flatMap_map]
  refine flatMap_filter_of_eq_nil fun q hq hlead => ?_
  obtain ⟨hq, hvaries⟩ := List.mem_filter.mp hq
  exact effects_eq_nil_of_not_leadsAxis hplain hfrag hq hvaries hlead

/-- **The effects of a compiled phrase with fragments**: those of the constructs that
vary, and then those of the plain params. -/
theorem effects_assemble (hplain : p.DriversHoldNoCall) (hfrag : p.HasFragments) :
    (assemble config p).effects =
      (p.constructs.filter (·.varies)).flatMap Construct.effects ++
        (p.constructs.filter (!·.varies)).flatMap Construct.effects := by
  have heffects : (assemble config p).effects =
      ((assemble config p).calls.flatMap Call.exprs).filter Expr.hasCall := rfl
  rw [heffects, calls_of_hasFragments hfrag, List.flatMap_append, List.filter_append,
    effects_axisCalls hplain hfrag, filterMap_plainCall?, effects_filterMap_call?]

/-! ### The order of the source -/

theorem Phrase.effects_eq (hplain : p.DriversHoldNoCall) (hfrag : p.HasFragments) :
    p.effects = p.constructs.flatMap Construct.effects := by
  rw [Phrase.effects, List.filter_append, filter_hasCall_subject hplain hfrag, List.nil_append,
    List.filter_flatMap]
  rfl

/-- No plain param with an effect stands before a construct that varies and has one. -/
def Phrase.DriversFirst (p : Phrase) : Prop :=
  p.constructs.Pairwise fun c d =>
    c.effects ≠ [] → d.effects ≠ [] → d.varies = true → c.varies = true

/-- **Effects move to the front**: a compiled phrase with fragments has the effects
of the constructs that vary before those of the plain params. So it keeps the order
of the source if no plain param with an effect stands before a construct that varies
and has one, and otherwise it does not, unless the same effect is met twice. -/
theorem compile_effects_order {c : CompiledPhrase} (h : compile config p = .ok c)
    (hfrag : p.HasFragments) :
    c.effects = (p.constructs.filter (·.varies)).flatMap Construct.effects ++
        (p.constructs.filter (!·.varies)).flatMap Construct.effects ∧
      (p.DriversFirst → c.effects = p.effects) ∧
      (p.effects.Nodup → c.effects = p.effects → p.DriversFirst) := by
  obtain ⟨hwf, rfl⟩ := compile_eq_ok_iff.mp h
  have hplain := hwf.driversHoldNoCall
  rw [effects_assemble hplain hfrag, Phrase.effects_eq hplain hfrag]
  exact ⟨rfl, flatMap_filter_append, fun hnd hsame => pairwise_of_flatMap_filter_append hsame hnd⟩

/-- A phrase that shows a guest after its greeting. -/
def greetedGuest : Phrase where
  description := "A greeting"
  children :=
    [.construct (.param { name := ⟨"greeting"⟩, value := .call (.identifier "greet") [] }),
     .construct (.name
      { name := ⟨"guest"⟩
        value := .call (.identifier "pick") []
        gender := .identifier "gender" }),
     .fragment [.construct (.text { value := "!" })] {}]

/-- A phrase that shows a guest before its greeting. -/
def guestGreeted : Phrase where
  description := "A guest"
  children :=
    [.construct (.name
      { name := ⟨"guest"⟩
        value := .call (.identifier "pick") []
        gender := .identifier "gender" }),
     .fragment
      [.construct (.param { name := ⟨"greeting"⟩, value := .call (.identifier "greet") [] })] {}]

/-- What varies comes first in this phrase, so the order of its effects is kept. -/
theorem compile_effects_order_guestGreeted :
    ∃ c, compile {} guestGreeted = .ok c ∧ guestGreeted.HasFragments ∧ guestGreeted.DriversFirst ∧
      c.effects = guestGreeted.effects := by
  have h : compile {} guestGreeted = .ok (assemble {} guestGreeted) :=
    compile_of_isNone_fault? (by decide +kernel)
  have hfrag : guestGreeted.HasFragments := by decide
  have hfirst : guestGreeted.DriversFirst := by
    unfold Phrase.DriversFirst
    decide +kernel
  exact ⟨_, h, hfrag, hfirst, (compile_effects_order h hfrag).2.1 hfirst⟩

/-- **The order of effects is not always kept**: the guest is picked before the
greeting is made. -/
theorem not_effects_in_order : ¬∀ (config : Config) (p : Phrase) (c : CompiledPhrase),
    compile config p = .ok c → p.HasFragments → c.effects = p.effects := by
  intro hall
  have h : compile {} greetedGuest = .ok (assemble {} greetedGuest) :=
    compile_of_isNone_fault? (by decide +kernel)
  have hne : (assemble {} greetedGuest).effects ≠ greetedGuest.effects := by decide +kernel
  exact hne (hall {} greetedGuest _ h (by decide))

end Phrasebook
