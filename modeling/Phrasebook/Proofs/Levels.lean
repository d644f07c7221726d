import Phrasebook.Compile
import Phrasebook.Proofs.Outline

/-!
# The levels of a compiled phrase

A phrase is compiled level by level: its own nodes, and what each of its
fragments wraps. The arguments of a level hold the fragments that stand on it,
each with arguments of its own, so the compiled fragments are found by going
through arguments while the fragments of the phrase are found by going through
nodes. The two ways meet the same fragments in the same order
(`Phrasebook.fragments_assemble`).
-/

namespace Phrasebook

/-! ### The fragments in some arguments -/

theorem fragmentsIn_eq_flatMap (arguments : List Argument) :
    fragmentsIn arguments = arguments.flatMap Argument.fragments := by
  induction arguments with
  | nil => rfl
  | cons a rest ih => rw [fragmentsIn, ih, List.flatMap_cons]

theorem fragmentsIn_append (xs ys : List Argument) :
    fragmentsIn (xs ++ ys) = fragmentsIn xs ++ fragmentsIn ys := by
  simp only [fragmentsIn_eq_flatMap, List.flatMap_append]

theorem fragmentsIn_temporaries (count : Nat) : fragmentsIn (temporaries count) = [] := by
  rw [fragmentsIn_eq_flatMap, List.flatMap_eq_nil_iff]
  intro a ha
  obtain ⟨i, -, rfl⟩ := List.mem_map.mp ha
  rfl

theorem fragmentsIn_calls (calls : List Call) : fragmentsIn (calls.map .call) = [] := by
  rw [fragmentsIn_eq_flatMap, List.flatMap_eq_nil_iff]
  intro a ha
  obtain ⟨call, -, rfl⟩ := List.mem_map.mp ha
  rfl

/-! ### Compiling a fragment -/

section Levels

variable (axes : List Axis) (project : String) (root : List Outline) (shared : List Argument)

/-- What a fragment is compiled to, if `shared` are the arguments that all levels
begin with. -/
def PlacedFragment.compiled (n : PlacedFragment) : FragmentPhrase where
  aliasName := TokenName.aliasOf n.ordinal
  payload := levelPayload axes project (fragmentDescription axes root n.id) n.children
  arguments := shared ++ sharedArgumentsAll axes project root shared n.children

mutual

theorem Outline.fragmentsIn_sharedArguments (hshared : fragmentsIn shared = []) :
    ∀ o : Outline, fragmentsIn (o.sharedArguments axes project root shared) =
      o.fragmentNodes.map (PlacedFragment.compiled axes project root shared)
  | .construct id c => by
    rw [Outline.sharedArguments, Outline.fragmentNodes]
    split
    · cases c.call? <;> rfl
    · rfl
  | .fragment id ordinal location children => by
    have hchildren : fragmentsIn (shared ++ sharedArgumentsAll axes project root shared children) =
        (fragmentNodesIn children).map (PlacedFragment.compiled axes project root shared) := by
      rw [fragmentsIn_append, hshared, List.nil_append,
        fragmentsIn_sharedArgumentsAll hshared children]
    rw [Outline.sharedArguments, Outline.fragmentNodes, List.map_cons, fragmentsIn, fragmentsIn,
      Argument.fragments, hchildren, List.append_nil]
    rfl

theorem fragmentsIn_sharedArgumentsAll (hshared : fragmentsIn shared = []) :
    ∀ os : List Outline, fragmentsIn (sharedArgumentsAll axes project root shared os) =
      (fragmentNodesIn os).map (PlacedFragment.compiled axes project root shared)
  | [] => rfl
  | o :: os => by
    rw [sharedArgumentsAll, fragmentNodesIn, fragmentsIn_append, List.map_append,
      Outline.fragmentsIn_sharedArguments hshared o, fragmentsIn_sharedArgumentsAll hshared os]

end

end Levels

/-! ### Compiling a phrase -/

namespace Phrase

variable (config : Config) (p : Phrase)

/-- The project of a phrase: its own, or else that of its file. -/
def projectUnder : String :=
  (p.options.project.or config.fileOptions.project).getD ""

/-- What every level of a compiled phrase begins with. -/
def sharedTemporaries : List Argument :=
  temporaries (assemble config p).hoisted.length

/-- What a fragment of a phrase is compiled to. -/
def compiledFragment : PlacedFragment → FragmentPhrase :=
  PlacedFragment.compiled (p.axes config.rules) (p.projectUnder config) p.outline
    (p.sharedTemporaries config)

theorem fragmentNodes_eq_nil (h : ¬p.HasFragments) : p.fragmentNodes = [] := by
  have hordinals := p.map_ordinal_fragmentNodes
  rw [not_not.mp h] at hordinals
  exact List.map_eq_nil_iff.mp hordinals

end Phrase

variable (config : Config) (p : Phrase)

theorem payload_assemble : (assemble config p).payload =
    levelPayload (p.axes config.rules) (p.projectUnder config) (fun _ => p.description)
      p.outline := rfl

variable {p} in
/-- In a phrase with fragments every axis has a temporary, and the phrase begins with
them. -/
theorem assemble_of_hasFragments (h : p.HasFragments) :
    (assemble config p).hoisted = hoisted p.options.subject (p.axes config.rules) ∧
      (assemble config p).arguments = p.sharedTemporaries config ++
        sharedArgumentsAll (p.axes config.rules) (p.projectUnder config) p.outline
          (p.sharedTemporaries config) p.outline := by
  have hfrag := p.hasFragment_outline.mpr h
  simp [assemble, Phrase.sharedTemporaries, Phrase.projectUnder, hfrag]

variable {p} in
/-- A phrase without fragments has no temporaries, and calls what it needs in
place. -/
theorem assemble_of_not_hasFragments (h : ¬p.HasFragments) :
    (assemble config p).hoisted = [] ∧
      (assemble config p).arguments =
        inlineArguments (p.axes config.rules) p.options.subject p.outline := by
  have hfrag : ¬hasFragment p.outline = true := fun hf => h (p.hasFragment_outline.mp hf)
  simp [assemble, hfrag]

/-- **The compiled fragments are the fragments of the phrase, compiled**, in
reading order. -/
theorem fragments_assemble :
    (assemble config p).fragments = p.fragmentNodes.map (p.compiledFragment config) := by
  rw [CompiledPhrase.fragments]
  by_cases h : p.HasFragments
  · -- temporaries hold no fragments, so only what the levels add counts
    have hshared : fragmentsIn (p.sharedTemporaries config) = [] := fragmentsIn_temporaries _
    rw [(assemble_of_hasFragments config h).2, fragmentsIn_append, hshared, List.nil_append,
      fragmentsIn_sharedArgumentsAll _ _ _ _ hshared]
    rfl
  · rw [(assemble_of_not_hasFragments config h).2, p.fragmentNodes_eq_nil h, inlineArguments,
      fragmentsIn_calls, List.map_nil]

/-- The aliases of the fragments of a phrase, in reading order. -/
def Phrase.aliases : List TokenName :=
  (List.range (fragmentCountAll p.children)).map fun i => ⟨"=m" ++ toString i⟩

/-- **The compiled fragments go by the aliases of the phrase**, in their order. -/
theorem aliases_assemble : (assemble config p).fragments.map (·.aliasName) = p.aliases := by
  rw [fragments_assemble, Phrase.aliases, ← p.map_ordinal_fragmentNodes, List.map_map,
    List.map_map]
  rfl

/-! ### One level after the other -/

/-- What one level of a phrase is compiled to. -/
structure CompiledLevel where
  payload : Payload
  arguments : List Argument

/-- **The levels of a compiled phrase**: the phrase itself, and its fragments in reading
order. -/
def CompiledPhrase.levels (c : CompiledPhrase) : List CompiledLevel :=
  ⟨c.payload, c.arguments⟩ :: c.fragments.map fun f => ⟨f.payload, f.arguments⟩

/-- The arguments that a level of a phrase is given. -/
def Phrase.argumentsOf (level : List Outline) : List Argument :=
  if p.HasFragments then
    p.sharedTemporaries config ++ sharedArgumentsAll (p.axes config.rules)
      (p.projectUnder config) p.outline (p.sharedTemporaries config) level
  else inlineArguments (p.axes config.rules) p.options.subject level

/-- **A level is compiled** to the table of its wordings and to the arguments it is
given. -/
structure Phrase.CompilesLevel (level : List Outline) (l : CompiledLevel) : Prop where
  mem : level ∈ p.levels
  payload : ∃ describe, l.payload =
    levelPayload (p.axes config.rules) (p.projectUnder config) describe level
  arguments : l.arguments = p.argumentsOf config level

theorem arguments_assemble_eq : (assemble config p).arguments = p.argumentsOf config p.outline := by
  rw [Phrase.argumentsOf]
  split
  · exact (assemble_of_hasFragments config ‹_›).2
  · exact (assemble_of_not_hasFragments config ‹_›).2

theorem Phrase.levels_eq : p.levels = p.outline :: p.fragmentNodes.map (·.children) := by
  rw [Phrase.levels, levelsAll_eq, Phrase.fragmentNodes]

/-- **A compiled phrase has the levels of the phrase, compiled**, in their order. -/
theorem compilesLevels :
    List.Forall₂ (p.CompilesLevel config) p.levels (assemble config p).levels := by
  rw [Phrase.levels_eq, CompiledPhrase.levels, fragments_assemble, List.map_map]
  refine List.Forall₂.cons ⟨List.mem_cons_self, ⟨_, payload_assemble config p⟩,
    arguments_assemble_eq config p⟩ ?_
  rw [List.forall₂_map_left_iff, List.forall₂_map_right_iff, List.forall₂_same]
  intro n hn
  have hfrag : p.HasFragments := by
    by_contra h
    rw [p.fragmentNodes_eq_nil h] at hn
    exact nomatch hn
  refine ⟨?_, ⟨_, rfl⟩, ?_⟩
  · rw [Phrase.levels_eq]
    exact List.mem_cons_of_mem _ (List.mem_map_of_mem hn)
  · rw [Phrase.argumentsOf, if_pos hfrag]
    rfl

variable {p} {level : List Outline}

/-- Every level of a phrase is compiled, at its place. -/
theorem Phrase.exists_compilesLevel (config : Config) {k : Nat} {level : List Outline}
    (h : p.levels[k]? = some level) :
    ∃ l, (assemble config p).levels[k]? = some l ∧ p.CompilesLevel config level l := by
  obtain ⟨hk, rfl⟩ := List.getElem?_eq_some_iff.mp h
  have hlength := (compilesLevels config p).length_eq
  exact ⟨_, List.getElem?_eq_getElem (hlength ▸ hk),
    (compilesLevels config p).get hk (hlength ▸ hk)⟩

/-- What stands in a level of a phrase stands in the phrase. -/
theorem Phrase.placed_of_mem_levels (h : level ∈ p.levels) {q : Placed}
    (hq : q ∈ constructsAll level) : q ∈ p.placed := by
  rw [Phrase.levels_eq] at h
  rcases List.mem_cons.mp h with rfl | h
  · exact hq
  · obtain ⟨n, hn, rfl⟩ := List.mem_map.mp h
    exact constructsAll_of_mem_fragmentNodesIn p.outline hn q hq

/-- A phrase without fragments has a single level, which holds none. -/
theorem Phrase.eq_outline_of_mem_levels (hfrag : ¬p.HasFragments) (h : level ∈ p.levels) :
    level = p.outline ∧ hasFragment level = false := by
  rw [Phrase.levels_eq, p.fragmentNodes_eq_nil hfrag] at h
  obtain rfl := List.mem_singleton.mp h
  exact ⟨rfl, Bool.eq_false_iff.mpr fun hf => hfrag (p.hasFragment_outline.mp hf)⟩

/-! ### The fragments that stand on a level -/

/-- An argument as a fragment of a compiled phrase, if it is one. -/
def Argument.fragment? : Argument → Option FragmentPhrase
  | .temporary _ | .call _ => none
  | .fragment aliasName payload arguments => some ⟨aliasName, payload, arguments⟩

/-- **The fragments that stand on a compiled level**, in reading order. -/
def CompiledLevel.fragments (l : CompiledLevel) : List FragmentPhrase :=
  l.arguments.filterMap Argument.fragment?

theorem filterMap_fragment?_temporaries (count : Nat) :
    (temporaries count).filterMap Argument.fragment? = [] := by
  rw [temporaries, List.filterMap_map]
  exact List.filterMap_eq_nil_iff.mpr fun _ _ => rfl

theorem filterMap_fragment?_calls (calls : List Call) :
    (calls.map Argument.call).filterMap Argument.fragment? = [] := by
  rw [List.filterMap_map]
  exact List.filterMap_eq_nil_iff.mpr fun _ _ => rfl

theorem filterMap_fragment?_sharedArgumentsAll (axes : List Axis) (project : String)
    (root : List Outline) (shared : List Argument) (level : List Outline) :
    (sharedArgumentsAll axes project root shared level).filterMap Argument.fragment? =
      (level.filterMap Outline.fragment?).map
        (PlacedFragment.compiled axes project root shared) := by
  induction level with
  | nil => rfl
  | cons o level ih =>
    rw [sharedArgumentsAll, List.filterMap_append, ih]
    cases o with
    | construct id c =>
      have hnone : (Outline.sharedArguments axes project root shared
          (.construct id c)).filterMap Argument.fragment? = [] := by
        rw [Outline.sharedArguments]
        split
        · cases c.call? <;> rfl
        · rfl
      rw [hnone]
      rfl
    | fragment id ordinal location children => rfl

theorem filterMap_fragment?_of_not_hasFragment (h : hasFragment level = false) :
    level.filterMap Outline.fragment? = [] := by
  refine List.filterMap_eq_nil_iff.mpr fun o ho => ?_
  cases o with
  | construct id c => rfl
  | fragment id ordinal location children =>
    exact absurd rfl (List.any_eq_false.mp h _ ho)

variable {config : Config} {l : CompiledLevel}

/-- **The fragments that stand on a level are compiled in their order.** -/
theorem Phrase.CompilesLevel.fragments_eq (hl : p.CompilesLevel config level l) :
    l.fragments = (level.filterMap Outline.fragment?).map (p.compiledFragment config) := by
  rw [CompiledLevel.fragments, hl.arguments, Phrase.argumentsOf]
  split
  · rw [List.filterMap_append, Phrase.sharedTemporaries, filterMap_fragment?_temporaries,
      List.nil_append, filterMap_fragment?_sharedArgumentsAll]
    rfl
  · rename_i hfrag
    have hlevel := (Phrase.eq_outline_of_mem_levels hfrag hl.mem).2
    rw [inlineArguments, filterMap_fragment?_calls, filterMap_fragment?_of_not_hasFragment hlevel,
      List.map_nil]

/-- Every fragment that stands on a level is among its arguments, under its alias. -/
theorem Phrase.CompilesLevel.fragment_mem (hl : p.CompilesLevel config level l)
    {id ordinal : Nat} {location : Location} {children : List Outline}
    (h : .fragment id ordinal location children ∈ level) :
    ∃ payload arguments, .fragment (TokenName.aliasOf ordinal) payload arguments ∈ l.arguments := by
  have hmem : p.compiledFragment config ⟨id, ordinal, location, children⟩ ∈ l.fragments := by
    rw [hl.fragments_eq]
    exact List.mem_map_of_mem (List.mem_filterMap.mpr ⟨_, h, rfl⟩)
  obtain ⟨_ | _ | ⟨aliasName, payload, arguments⟩, ha, hfragment⟩ := List.mem_filterMap.mp hmem
  · exact nomatch hfragment
  · exact nomatch hfragment
  · obtain ⟨rfl, rfl, rfl⟩ := FragmentPhrase.mk.inj (Option.some.inj hfragment)
    exact ⟨_, _, ha⟩

end Phrasebook
