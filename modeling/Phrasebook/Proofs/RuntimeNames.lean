import Mathlib.Data.List.Basic
import Phrasebook.Proofs.Arguments
import Phrasebook.Proofs.Json

/-!
# The names of runtime values

The values of a compiled phrase are told apart by name: a call supplies its value under
the token it fills, and a fragment is supplied under its alias. All these names come from
the phrase, each once (`Phrasebook.perm_names`): the token reserved for the subject, the
tokens that constructs declare, and the aliases, which are numbered.

Tokens that are declared twice are rejected, and the reserved token and the aliases are
different by how they are made. But nothing keeps an author from declaring a token that
reads like one of the latter, so the names are different exactly if no declared token
does (`Phrasebook.compile_names_nodup_iff`).
-/

namespace Phrasebook

/-! ### Names made by the compiler -/

/-- **Fragments that open at different places have different aliases.** -/
theorem TokenName.aliasOf_injective : Function.Injective TokenName.aliasOf := by
  intro i j h
  have htext : "=m" ++ i.repr = "=m" ++ j.repr := congrArg TokenName.text h
  have hdigits : Nat.toDigits 10 i = Nat.toDigits 10 j := by
    rw [← Nat.toList_repr, ← Nat.toList_repr, (String.append_right_inj _).mp htext]
  exact Json.toDigits_inj hdigits

/-- No fragment has the token of the subject for its alias. -/
theorem TokenName.aliasOf_ne_subject (i : Nat) : TokenName.aliasOf i ≠ .subject := by
  intro h
  have htext : "=m" ++ toString i = "__subject__" := congrArg TokenName.text h
  have hlist := congrArg String.toList htext
  rw [String.toList_append] at hlist
  exact absurd (List.cons.inj hlist).1 (by decide)

namespace Phrase

variable (p : Phrase)

/-- The token reserved for the subject, if a phrase has one. -/
def subjectTokens : List TokenName :=
  if p.options.subject.isSome then [⟨"__subject__"⟩] else []

variable {p} in
theorem mem_subjectTokens {t : TokenName} :
    t ∈ p.subjectTokens ↔ t = ⟨"__subject__"⟩ ∧ p.options.subject.isSome = true := by
  rw [subjectTokens]
  split <;> simp [*]

variable {p} in
theorem mem_aliases {t : TokenName} :
    t ∈ p.aliases ↔ ∃ i < fragmentCountAll p.children, ⟨"=m" ++ toString i⟩ = t := by
  rw [aliases, List.mem_map]
  exact exists_congr fun i => and_congr_left' List.mem_range

theorem nodup_subjectTokens : p.subjectTokens.Nodup := by
  rw [subjectTokens]
  split
  · exact List.nodup_singleton _
  · exact List.nodup_nil

theorem nodup_aliases : p.aliases.Nodup :=
  List.nodup_range.map TokenName.aliasOf_injective

end Phrase

/-! ### Names of a compiled phrase -/

/-- **The names under which a compiled phrase supplies runtime values**: the tokens of
its calls and the aliases of its fragments. -/
def CompiledPhrase.names (c : CompiledPhrase) : List TokenName :=
  c.calls.filterMap Call.token? ++ c.fragments.map (·.aliasName)

/-- A construct's call fills the token the construct declares. -/
theorem Construct.token?_call? (c : Construct) : c.call?.bind Call.token? = c.token? := by
  cases c <;> rfl

section Names

variable {config : Config} {p : Phrase}

/-- A construct that varies and declares a token leads its axis. -/
theorem Placed.leadsAxis_of_token? (rules : Option PluralRules) {q : Placed}
    (hq : q ∈ p.placed) {t : TokenName} (ht : q.construct.token? = some t)
    (hvaries : q.construct.varies = true) : leadsAxis (p.axes rules) q.id = true := by
  refine Phrase.leadsAxis_of_varies hq hvaries fun e he => ?_
  rw [he] at ht
  exact nomatch ht

/-- A construct that declares a token and does not vary is a plain param. -/
theorem Construct.plainCall?_of_token? {c : Construct} {t : TokenName} (ht : c.token? = some t)
    (hvaries : ¬c.varies = true) : c.plainCall? = c.call? ∧ c.call?.isSome = true := by
  have hcall : c.call?.isSome = true := by
    rw [← Construct.token?_call?] at ht
    obtain ⟨call, hcall, -⟩ := Option.bind_eq_some_iff.mp ht
    rw [hcall, Option.isSome_some]
  exact ⟨by rw [Construct.plainCall?_eq, if_neg hvaries], hcall⟩

/-- **A construct that declares a token is called in place.** -/
theorem Placed.calledInPlace_of_token? (rules : Option PluralRules) {q : Placed}
    (hq : q ∈ p.placed) {t : TokenName} (ht : q.construct.token? = some t) :
    q.calledInPlace (p.axes rules) = true := by
  rw [Placed.calledInPlace, Bool.or_eq_true]
  by_cases hvaries : q.construct.varies = true
  · exact Or.inr (Placed.leadsAxis_of_token? _ hq ht hvaries)
  · obtain ⟨hplain, hcall⟩ := Construct.plainCall?_of_token? ht hvaries
    exact Or.inl (hplain ▸ hcall)

theorem filterMap_token?_subject (p : Phrase) :
    (p.options.subject.toList.map Call.subject).filterMap Call.token? = p.subjectTokens := by
  rw [Phrase.subjectTokens]
  cases p.options.subject <;> rfl

/-- The tokens of the calls of some constructs are those that the constructs declare. -/
theorem filterMap_token?_call? (placed : List Placed) :
    (placed.filterMap (·.construct.call?)).filterMap Call.token? = declaredTokens placed := by
  rw [List.filterMap_filterMap]
  exact List.filterMap_congr fun q _ => q.construct.token?_call?

/-- Constructs that declare no token may be left out. -/
theorem declaredTokens_filter {placed : List Placed} {kept : Placed → Bool}
    (h : ∀ q ∈ placed, ∀ t, q.construct.token? = some t → kept q = true) :
    declaredTokens (placed.filter kept) = declaredTokens placed := by
  rw [declaredTokens, List.filterMap_filter]
  refine List.filterMap_congr fun q hq => ?_
  cases ht : q.construct.token? with
  | none => rw [ite_self]
  | some t => rw [if_pos (h q hq t ht)]

/-- **The calls of a phrase fill the token of its subject and those declared**, each
once. -/
theorem perm_tokens : ((assemble config p).calls.filterMap Call.token?).Perm
    (p.subjectTokens ++ p.declared) := by
  rw [← p.declaredTokens_placed]
  by_cases h : p.HasFragments
  · -- what varies is called ahead, and plain params on their own levels
    have hleaders : declaredTokens (p.placed.filter fun q => leadsAxis (p.axes config.rules) q.id) =
        declaredTokens (p.placed.filter (·.construct.varies)) := by
      rw [← Phrase.filter_varies_leadsAxis]
      refine declaredTokens_filter fun q hq t ht => ?_
      obtain ⟨hq, hvaries⟩ := List.mem_filter.mp hq
      exact Placed.leadsAxis_of_token? _ hq ht hvaries
    have hplain : (p.constructs.filterMap Construct.plainCall?).filterMap Call.token? =
        declaredTokens (p.placed.filter (!·.construct.varies)) := by
      rw [filterMap_plainCall?, ← p.map_construct_placed, List.filter_map, List.filterMap_map]
      exact filterMap_token?_call? _
    rw [calls_of_hasFragments h, Phrase.axisCalls_eq, List.filterMap_append,
      List.filterMap_append, filterMap_token?_subject, filterMap_token?_call?, hleaders, hplain,
      List.append_assoc, declaredTokens, declaredTokens, ← List.filterMap_append]
    exact ((List.filter_append_perm _ _).filterMap _).append_left _
  · have hinPlace : declaredTokens (p.placed.filter (·.calledInPlace (p.axes config.rules))) =
        declaredTokens p.placed :=
      declaredTokens_filter fun q hq t ht => Placed.calledInPlace_of_token? config.rules hq ht
    rw [calls_of_not_hasFragments h, List.filterMap_append, filterMap_token?_subject,
      filterMap_token?_call?, hinPlace]

/-- **The names of a compiled phrase are those of the phrase**, each once. -/
theorem perm_names :
    (assemble config p).names.Perm (p.subjectTokens ++ p.declared ++ p.aliases) := by
  rw [CompiledPhrase.names, aliases_assemble]
  exact perm_tokens.append_right _

end Names

/-! ### Different names -/

/-- **No declared token reads like a name made by the compiler**: neither like the token
of the subject, if there is one, nor like the alias of a fragment. -/
structure Phrase.KeepsNamesFree (p : Phrase) : Prop where
  subject : p.options.subject.isSome = true → ⟨"__subject__"⟩ ∉ p.declared
  aliases : ∀ i < fragmentCountAll p.children, ⟨"=m" ++ toString i⟩ ∉ p.declared

theorem Phrase.nodup_names_iff {p : Phrase} (honce : p.DeclaresOnce) :
    (p.subjectTokens ++ p.declared ++ p.aliases).Nodup ↔ p.KeepsNamesFree := by
  rw [List.nodup_append, List.nodup_append]
  constructor
  · rintro ⟨⟨-, -, hsubject⟩, -, haliases⟩
    refine ⟨fun hsome hmem => ?_, fun i hi hmem => ?_⟩
    · exact hsubject _ (Phrase.mem_subjectTokens.mpr ⟨rfl, hsome⟩) _ hmem rfl
    · exact haliases _ (List.mem_append_right _ hmem) _ (Phrase.mem_aliases.mpr ⟨i, hi, rfl⟩) rfl
  · intro hfree
    refine ⟨⟨p.nodup_subjectTokens, honce, ?_⟩, p.nodup_aliases, ?_⟩
    · rintro t ht u hu rfl
      obtain ⟨rfl, hsome⟩ := Phrase.mem_subjectTokens.mp ht
      exact hfree.subject hsome hu
    · rintro t ht u hu rfl
      obtain ⟨i, hi, rfl⟩ := Phrase.mem_aliases.mp hu
      rcases List.mem_append.mp ht with ht | ht
      · exact TokenName.aliasOf_ne_subject i (Phrase.mem_subjectTokens.mp ht).1
      · exact hfree.aliases i hi ht

/-- **Values have different names exactly if no declared token reads like a name made by
the compiler.** The names are the token of the subject, the tokens declared and the
aliases of the fragments. -/
theorem compile_names_nodup_iff {config : Config} {p : Phrase} {c : CompiledPhrase}
    (h : compile config p = .ok c) :
    c.names.Perm (p.subjectTokens ++ p.declared ++ p.aliases) ∧
      (c.names.Nodup ↔ p.KeepsNamesFree) := by
  obtain ⟨hwf, rfl⟩ := compile_eq_ok_iff.mp h
  refine ⟨perm_names, ?_⟩
  rw [perm_names.nodup_iff, Phrase.nodup_names_iff hwf.declaresOnce]

/-- A phrase with a subject, a declared token on each of two levels, and a token that
begins like an alias. -/
def giftSent : Phrase where
  description := "What someone sent"
  options := { subject := some (.identifier "gender") }
  children :=
    [.construct (.param { name := ⟨"=m1"⟩, value := .identifier "sender" }),
     .fragment
      [.construct (.plural
        { singular := "gift", count := .identifier "n", showCount := .yes,
          name := some ⟨"gifts"⟩ })] {}]

/-- It has four names, and since it has a single fragment they are all different. -/
theorem compile_names_nodup_iff_giftSent :
    ∃ c, compile {} giftSent = .ok c ∧
      c.names = [⟨"__subject__"⟩, ⟨"gifts"⟩, ⟨"=m1"⟩, ⟨"=m0"⟩] ∧ c.names.Nodup := by
  have h : compile {} giftSent = .ok (assemble {} giftSent) :=
    compile_of_isNone_fault? (by decide +kernel)
  refine ⟨_, h, rfl, (compile_names_nodup_iff h).2.mpr ⟨fun _ => by decide, fun i hi => ?_⟩⟩
  obtain rfl : i = 0 := Nat.lt_one_iff.mp hi
  decide

/-- A phrase that declares the alias of its own fragment. -/
def linkNamed : Phrase where
  description := "A link"
  children :=
    [.construct (.param { name := ⟨"=m0"⟩, value := .identifier "x" }),
     .fragment [.construct (.text { value := "link" })] {}]

/-- **Names are not always different**: a value is supplied under the alias of a
fragment. -/
theorem not_names_nodup : ¬∀ (config : Config) (p : Phrase) (c : CompiledPhrase),
    compile config p = .ok c → c.names.Nodup := by
  intro hall
  have h : compile {} linkNamed = .ok (assemble {} linkNamed) :=
    compile_of_isNone_fault? (by decide +kernel)
  have hnames : (assemble {} linkNamed).names = [⟨"=m0"⟩, ⟨"=m0"⟩] := rfl
  have hnodup := hall {} linkNamed _ h
  rw [hnames] at hnodup
  exact absurd hnodup (by decide)

end Phrasebook
