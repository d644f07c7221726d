import Phrasebook.Proofs.FragmentAliases
import Phrasebook.Proofs.Place

/-!
# Wrapping in markup

To put a run of siblings into markup is to say the same thing with one fragment more. Where the
run stood its level shows a token, the fragment reads as the run did, and no other level reads
differently, neither the levels around the run nor those inside it
(`Phrasebook.compile_wrapped`).

The numbers of nodes and the ordinals of fragments change throughout, and that is dealt with by
leaving room for the fragment. What is left is to see how far the change of one level carries.
The text of that level differs. But its **name**, which the tokens of the fragments around it
are made of, does not: a name spells out fragments as the words they wrap, so that it is the same
whether these words are wrapped or not (`Phrasebook.Recasting.readsAlike_wrap`). Hence the level
above shows the same token, and reads as before
(`Phrasebook.Recasting.Amends.levels`).
-/

namespace Phrasebook

namespace Recasting

/-! ### Reading alike -/

/-- **Two levels read alike in a mode** if they are rendered to the same text whenever
corresponding nodes are given the same values. -/
def ReadsAlike (r : Recasting) (mode : Mode) (os os' : List Outline) : Prop :=
  ∀ values values' : Assignment, (∀ id, values' (r.id id) = values id) →
    renderAll values' (r.mode mode) os' = renderAll values mode os

variable {r : Recasting} {mode : Mode}

theorem Retells.readsAlike {os os' : List Outline} (h : r.Retells os os') (mode : Mode) :
    r.ReadsAlike mode os os' :=
  fun _ _ hvalues => h.renderAll_eq hvalues mode

/-- The levels of retold outlines read alike. -/
theorem Retells.levels_readsAlike {os os' : List Outline} (h : r.Retells os os') :
    List.Forall₂ (r.ReadsAlike .leaf) (levelsAll os) (levelsAll os') :=
  h.forall₂_levelsAll.imp fun _ _ h => h.readsAlike .leaf

/-- Levels that read alike have the same texts. -/
theorem map_renderAll_eq {levels levels' : List (List Outline)}
    (h : List.Forall₂ (r.ReadsAlike mode) levels levels') {values values' : Assignment}
    (hvalues : ∀ id, values' (r.id id) = values id) :
    levels'.map (renderAll values' (r.mode mode)) = levels.map (renderAll values mode) := by
  induction h with
  | nil => rfl
  | cons hlevel _ ih => rw [List.map_cons, List.map_cons, hlevel values values' hvalues, ih]

namespace ReadsAlike

variable {os os' ps ps' children children' : List Outline}

theorem append (h : r.ReadsAlike mode os os') (h' : r.ReadsAlike mode ps ps') :
    r.ReadsAlike mode (os ++ ps) (os' ++ ps') := fun values values' hvalues => by
  rw [renderAll_append, renderAll_append, h values values' hvalues, h' values values' hvalues]

/-- A fragment reads alike if what it wraps has the same name, and where it is not shown as a
token reads alike. -/
theorem fragment (hname : r.ReadsAlike .tokenName children children')
    (hshown : mode ≠ .leaf → r.ReadsAlike mode children children') (h : r.ReadsAlike mode os os')
    (id ordinal ordinal' : Nat) (location location' : Location) :
    r.ReadsAlike mode (.fragment id ordinal location children :: os)
      (.fragment (r.id id) ordinal' location' children' :: os') := fun values values' hvalues => by
  have hname : renderAll values' .tokenName children' = renderAll values .tokenName children :=
    hname values values' hvalues
  rw [renderAll, renderAll, Outline.render, Outline.render, r.showsToken_mode, hname,
    h values values' hvalues]
  by_cases hmode : mode = .leaf
  · subst hmode
    rfl
  · rw [hshown hmode values values' hvalues]

end ReadsAlike

/-! ### Levels of an amended outline -/

namespace Amends

variable {old new os os' : List Outline} {k : Nat}

/-- An outline contributes the axes of the one it amends, recast, if the amended level does. -/
theorem filterMap_axis? (h : r.Amends old new k os os') {rules : Option PluralRules}
    (hlevel : (constructsAll new).filterMap (Placed.axis? rules) =
      ((constructsAll old).filterMap (Placed.axis? rules)).map r.axis) :
    (constructsAll os').filterMap (Placed.axis? rules) =
      ((constructsAll os).filterMap (Placed.axis? rules)).map r.axis := by
  induction h with
  | here => exact hlevel
  | inside id ordinal location hbefore _ hafter ih =>
    simp only [constructsAll_append, constructsAll, Outline.constructs, List.filterMap_append,
      List.map_append, hbefore.filterMap_axis?, hafter.filterMap_axis?, ih]

/-- An outline has the name of the one it amends, if the amended level has. -/
theorem readsAlike_tokenName (h : r.Amends old new k os os')
    (hlevel : r.ReadsAlike .tokenName old new) : r.ReadsAlike .tokenName os os' := by
  induction h with
  | here => exact hlevel
  | inside id ordinal location hbefore _ hafter ih =>
    exact (hbefore.readsAlike _).append
      (.fragment ih (fun _ => ih) (hafter.readsAlike _) id ordinal _ location _)

/-- **Only one level reads differently in an amended outline**, if the amended level keeps its
name. -/
theorem levels (h : r.Amends old new k os os') (hlevel : r.ReadsAlike .tokenName old new) :
    ∃ above above' below below' : List (List Outline),
      os :: levelsAll os = above ++ old :: (levelsAll old ++ below) ∧
      os' :: levelsAll os' = above' ++ new :: (levelsAll new ++ below') ∧
      above.length = k ∧ List.Forall₂ (r.ReadsAlike .leaf) above above' ∧
      List.Forall₂ (r.ReadsAlike .leaf) below below' := by
  induction h with
  | here => exact ⟨[], [], [], [], by simp, by simp, rfl, .nil, .nil⟩
  | @inside before before' children children' after after' k id ordinal location hbefore h hafter
      ih =>
    obtain ⟨above, above', below, below', hlevels, hlevels', hlength, habove, hbelow⟩ := ih
    -- the level that the fragment stands on shows its token, which is made of its name
    have hfragment := ReadsAlike.fragment (h.readsAlike_tokenName hlevel)
      (fun hmode => absurd rfl hmode) (hafter.readsAlike .leaf) id ordinal (r.ordinal ordinal)
      location (r.location location)
    refine ⟨(before ++ .fragment id ordinal location children :: after) ::
        (levelsAll before ++ above),
      (before' ++ .fragment (r.id id) (r.ordinal ordinal) (r.location location) children' ::
        after') :: (levelsAll before' ++ above'),
      below ++ levelsAll after, below' ++ levelsAll after', ?_, ?_, ?_, ?_, ?_⟩
    · rw [levelsAll_append, levelsAll, Outline.levels, hlevels]
      simp only [List.cons_append, List.append_assoc]
    · rw [levelsAll_append, levelsAll, Outline.levels, hlevels']
      simp only [List.cons_append, List.append_assoc]
    · rw [List.length_cons, List.length_append, hlength]
      omega
    · exact .cons ((hbefore.readsAlike .leaf).append hfragment)
        (List.rel_append hbefore.levels_readsAlike habove)
    · exact List.rel_append hbelow hafter.levels_readsAlike

/-- The amended level has its place among the levels. -/
theorem getElem?_levels (h : r.Amends old new k os os')
    (hlevel : r.ReadsAlike .tokenName old new) :
    (os :: levelsAll os)[k]? = some old ∧ (os' :: levelsAll os')[k]? = some new := by
  obtain ⟨above, above', below, below', hlevels, hlevels', hlength, habove, -⟩ := h.levels hlevel
  constructor
  · rw [hlevels, ← hlength, List.getElem?_append_right (le_refl _), Nat.sub_self]
    rfl
  · rw [hlevels', ← hlength, habove.length_eq, List.getElem?_append_right (le_refl _), Nat.sub_self]
    rfl

end Amends

/-! ### Wrapping a run -/

section Wrap

variable {before before' wrapped wrapped' after after' : List Outline} (id ordinal : Nat)
  (location : Location)

/-- A run contributes the same axes when it is wrapped. -/
theorem filterMap_axis?_wrap (hbefore : r.Retells before before')
    (hwrapped : r.Retells wrapped wrapped') (hafter : r.Retells after after')
    (rules : Option PluralRules) :
    (constructsAll (before' ++ .fragment id ordinal location wrapped' :: after')).filterMap
        (Placed.axis? rules) =
      ((constructsAll (before ++ (wrapped ++ after))).filterMap (Placed.axis? rules)).map
        r.axis := by
  simp only [constructsAll_append, constructsAll, Outline.constructs, List.filterMap_append,
    List.map_append, hbefore.filterMap_axis?, hwrapped.filterMap_axis?, hafter.filterMap_axis?]

/-- A run is named alike when it is wrapped. -/
theorem readsAlike_wrap (hbefore : r.Retells before before')
    (hwrapped : r.Retells wrapped wrapped') (hafter : r.Retells after after') :
    r.ReadsAlike .tokenName (before ++ (wrapped ++ after))
      (before' ++ .fragment id ordinal location wrapped' :: after') := by
  refine (hbefore.readsAlike _).append fun values values' hvalues => ?_
  have hname : renderAll values' .tokenName wrapped' = renderAll values .tokenName wrapped :=
    hwrapped.renderAll_eq hvalues .tokenName
  have hrest : renderAll values' .tokenName after' = renderAll values .tokenName after :=
    hafter.renderAll_eq hvalues .tokenName
  have hshown : Outline.render values' .tokenName (.fragment id ordinal location wrapped') =
      renderAll values' .tokenName wrapped' := by
    simp [Outline.render, Mode.showsToken]
  rw [Recasting.mode, renderAll, hshown, renderAll_append, hname, hrest]

variable {id ordinal location}

/-- **What the levels of an outline read as when a run is wrapped**: where the run was the level
shows a token, the level of its own that the run has now reads as the run, and every other level
reads as before. -/
theorem Amends.map_renderAll_levels {os os' : List Outline} {k : Nat}
    (h : r.Amends (before ++ (wrapped ++ after))
      (before' ++ .fragment id ordinal location wrapped' :: after') k os os')
    (hbefore : r.Retells before before') (hwrapped : r.Retells wrapped wrapped')
    (hafter : r.Retells after after') {values values' : Assignment}
    (hvalues : ∀ id, values' (r.id id) = values id) :
    let text := renderAll values .leaf
    ∃ above inner below : List String,
      (os :: levelsAll os).map text =
        above ++ (text before ++ text wrapped ++ text after) :: (inner ++ below) ∧
      (os' :: levelsAll os').map (renderAll values' .leaf) =
        above ++ (text before ++ (implicitToken values wrapped).placeholder ++ text after) ::
          (inner ++ text wrapped :: below) ∧
      above.length = k ∧ inner.length = (levelsAll before).length := by
  intro text
  obtain ⟨above, above', below, below', hlevels, hlevels', hlength, habove, hbelow⟩ :=
    h.levels (readsAlike_wrap id ordinal location hbefore hwrapped hafter)
  have htexts : ∀ {xs xs' : List (List Outline)}, List.Forall₂ (r.ReadsAlike .leaf) xs xs' →
      xs'.map (renderAll values' .leaf) = xs.map text := fun hxs => map_renderAll_eq hxs hvalues
  have htext : ∀ {xs xs' : List Outline}, r.Retells xs xs' →
      renderAll values' .leaf xs' = text xs := fun hxs => hxs.renderAll_eq hvalues .leaf
  refine ⟨above.map text, (levelsAll before).map text,
    (levelsAll wrapped).map text ++ ((levelsAll after).map text ++ below.map text), ?_, ?_, ?_, ?_⟩
  · rw [hlevels]
    simp only [levelsAll_append, List.map_append, List.map_cons, List.append_assoc, text,
      renderAll_append, String.append_assoc]
  · rw [hlevels', List.map_append, List.map_cons, htexts habove, renderAll_fragment, htext hbefore,
      htext hafter, hwrapped.implicitToken_eq hvalues]
    simp only [levelsAll_append, levelsAll, Outline.levels, List.map_append, List.map_cons,
      List.append_assoc, List.cons_append, htexts hbelow, htexts hbefore.levels_readsAlike,
      htexts hwrapped.levels_readsAlike, htexts hafter.levels_readsAlike, htext hwrapped]
  · rw [List.length_map, hlength]
  · rw [List.length_map]

end Wrap

/-- The paths of recast axes are theirs. -/
theorem signatures_distinct_map (axes : List Axis) :
    signatures ((axes.map r.axis).map Axis.distinct) = signatures (axes.map Axis.distinct) := by
  have hdistinct : (axes.map r.axis).map Axis.distinct = (axes.map Axis.distinct).map r.axis := by
    rw [List.map_map, List.map_map]
    rfl
  rw [hdistinct, r.signatures_map]

end Recasting

/-! ### Texts of a compiled phrase -/

/-- The paths that lead to a leaf of a payload, in their order. -/
def Payload.paths (payload : Payload) : List (List String) :=
  payload.table.wordings.map Prod.fst

/-- **What the levels of a compiled phrase read as at a path**, one after the other. -/
def CompiledPhrase.textsAt (c : CompiledPhrase) (path : List String) : List (Option String) :=
  c.levels.map fun l => (l.payload.table.get? path).map (·.text)

section Texts

variable {config : Config} {p : Phrase}

theorem textsAt_assemble {s : Signature} (hs : s.Chooses (p.axes config.rules)) :
    (assemble config p).textsAt s.path =
      (p.levels.map (renderAll (s.valueFor (p.axes config.rules)) .leaf)).map some := by
  have htexts : List.Forall₂ (· = ·)
      (p.levels.map fun level => some (renderAll (s.valueFor (p.axes config.rules)) .leaf level))
      ((assemble config p).textsAt s.path) := by
    rw [CompiledPhrase.textsAt, List.forall₂_map_left_iff, List.forall₂_map_right_iff]
    refine (compilesLevels config p).imp fun level l hl => ?_
    obtain ⟨describe, hlists⟩ := hl.lists
    rw [hlists.get?_path s hs]
    rfl
  rw [List.forall₂_eq_eq_eq] at htexts
  rw [← htexts, List.map_map]
  rfl

/-- All levels of a compiled phrase have the paths and the descriptors of its axes. -/
theorem paths_of_mem_levels {l : CompiledLevel} (hl : l ∈ (assemble config p).levels) :
    l.payload.paths = (signatures ((p.axes config.rules).map Axis.distinct)).map Signature.path ∧
      l.payload.descriptors = (p.axes config.rules).map (·.descriptor) := by
  obtain ⟨k, hk, rfl⟩ := List.mem_iff_getElem.mp hl
  have hlength := (compilesLevels config p).length_eq
  obtain ⟨describe, hlists⟩ := ((compilesLevels config p).get (hlength ▸ hk) hk).lists
  exact ⟨hlists.paths, hlists.descriptors⟩

end Texts

/-! ### Compiled with a run wrapped -/

section Compiled

variable {r : Recasting} {config : Config} {p p' : Phrase}

/-- Recast axes leave the paths and the descriptors of all levels as they are. -/
theorem paths_of_axes_map (haxes : p'.axes config.rules = (p.axes config.rules).map r.axis)
    {l : CompiledLevel} (hl : l ∈ (assemble config p).levels ++ (assemble config p').levels) :
    l.payload.paths = (assemble config p).payload.paths ∧
      l.payload.descriptors = (assemble config p).payload.descriptors := by
  have hroot : ⟨(assemble config p).payload, (assemble config p).arguments⟩ ∈
      (assemble config p).levels := List.mem_cons_self
  obtain ⟨hpaths, hdescriptors⟩ := paths_of_mem_levels hroot
  rw [hpaths, hdescriptors]
  rcases List.mem_append.mp hl with hl | hl
  · exact paths_of_mem_levels hl
  · obtain ⟨hpaths', hdescriptors'⟩ := paths_of_mem_levels hl
    rw [haxes, r.signatures_distinct_map] at hpaths'
    rw [haxes, r.descriptors_map] at hdescriptors'
    exact ⟨hpaths', hdescriptors'⟩

theorem chooses_of_axes_map (haxes : p'.axes config.rules = (p.axes config.rules).map r.axis)
    {s : Signature} (hs : s.Chooses (p.axes config.rules)) : s.Chooses (p'.axes config.rules) := by
  rw [← mem_signatures] at hs ⊢
  rwa [haxes, r.signatures_map]

/-- **The new fragment goes by its token**: on the level it stands on, at every path, the token
of what it wraps is an alias of the compiled fragment with its ordinal. -/
theorem exists_tokenAlias {k : Nat} {before children after : List Outline} {id ordinal : Nat}
    {location : Location}
    (hlevel : p.levels[k]? = some (before ++ .fragment id ordinal location children :: after))
    {s : Signature} (hs : s.Chooses (p.axes config.rules)) :
    ∃ l leaf f, (assemble config p).levels[k]? = some l ∧
      l.payload.table.get? s.path = some leaf ∧ (assemble config p).fragments[ordinal]? = some f ∧
      (implicitToken (s.valueFor (p.axes config.rules)) children, f.aliasName) ∈
        leaf.tokenAliases := by
  obtain ⟨l, hl, hcompiles⟩ := Phrase.exists_compilesLevel config hlevel
  obtain ⟨describe, hlists⟩ := hcompiles.lists
  have hfragment : ⟨id, ordinal, location, children⟩ ∈ p.fragmentNodes :=
    Phrase.mem_fragmentNodes_of_mem_levels hcompiles.mem
      (List.mem_filterMap.mpr ⟨_, List.mem_append_right _ List.mem_cons_self, rfl⟩)
  have hcompiled : (assemble config p).fragments[ordinal]? =
      some (p.compiledFragment config ⟨id, ordinal, location, children⟩) := by
    rw [fragments_assemble, List.getElem?_map, Phrase.getElem?_fragmentNodes hfragment,
      Option.map_some]
  exact ⟨l, _, _, hl, hlists.get?_path s hs, hcompiled,
    List.mem_of_getElem? (getElem?_fragmentAliases _ before after id ordinal location children)⟩

end Compiled

/-! ### Wrapping in markup -/

/-- **At a path, one compiled phrase reads as another with a run wrapped**: level number `level`
shows `token` in place of `mid`, the fragment with the token and with `ordinal` reads as `mid`,
and all other levels read as they did. -/
structure CompiledPhrase.WrapsAt (c c' : CompiledPhrase) (path : List String) (level ordinal : Nat)
    (pre mid post : String) (token : TokenName) : Prop where
  texts : ∃ above inner below : List String,
    c.textsAt path = (above ++ (pre ++ mid ++ post) :: (inner ++ below)).map some ∧
    c'.textsAt path =
      (above ++ (pre ++ ("\x7b" ++ token.text ++ "\x7d") ++ post) ::
        (inner ++ mid :: below)).map some ∧
    above.length = level ∧ above.length + inner.length = ordinal
  named : ∃ l leaf f, c'.levels[level]? = some l ∧ l.payload.table.get? path = some leaf ∧
    c'.fragments[ordinal]? = some f ∧ (token, f.aliasName) ∈ leaf.tokenAliases

/-- **Wrapping in markup does not change what a phrase says.** If a phrase is compiled both as it
is and with a run of siblings wrapped in a fragment, then all levels of the two have the same
paths and the same descriptors. At each path the fragment has taken over the text of the run, its
token stands between the texts of what comes before the run and of what comes after, and the
other levels read the same. -/
theorem compile_wrapped {config : Config} {p : Phrase} {place : Place} {run : List Node}
    {location : Location} {c c' : CompiledPhrase}
    (h : compile config (p.filled place run) = .ok c)
    (h' : compile config (p.filled place [.fragment run location]) = .ok c') :
    (∀ l ∈ c.levels ++ c'.levels, l.payload.paths = c.payload.paths ∧
      l.payload.descriptors = c.payload.descriptors) ∧
    ∃ before wrapped after : List Outline,
      (p.filled place run).levels[place.level]? = some (before ++ (wrapped ++ after)) ∧
      before.length = place.before.length ∧ wrapped.length = run.length ∧
      ∀ path ∈ c.payload.paths, ∃ s : Signature,
        s.Chooses ((p.filled place run).axes config.rules) ∧ s.path = path ∧
        let values := s.valueFor ((p.filled place run).axes config.rules)
        c.WrapsAt c' path place.level place.ordinal (renderAll values .leaf before)
          (renderAll values .leaf wrapped) (renderAll values .leaf after)
          (implicitToken values wrapped) := by
  obtain ⟨-, rfl⟩ := compile_eq_ok_iff.mp h
  obtain ⟨-, rfl⟩ := compile_eq_ok_iff.mp h'
  obtain ⟨before, after, after', hlength, hcount, hbefore, hafter, hamends⟩ :=
    p.exists_amends_filled place run [.fragment run location] rfl rfl
  -- the fragment takes the first number of the place, and the run comes right after
  have hwrapped : (Recasting.leavingRoom place.id 1 place.ordinal 1).Retells
      (outlineAll place.id place.ordinal run) (outlineAll (place.id + 1) (place.ordinal + 1) run) :=
    Recasting.retells_after run (le_refl _) (le_refl _) rfl rfl
  have haxes : (p.filled place [.fragment run location]).axes config.rules =
      ((p.filled place run).axes config.rules).map
        (Recasting.leavingRoom place.id 1 place.ordinal 1).axis :=
    Recasting.axes_map _ (hamends.filterMap_axis? (Recasting.filterMap_axis?_wrap place.id
      place.ordinal location hbefore hwrapped hafter config.rules)) rfl
  obtain ⟨hlevel, hlevel'⟩ := hamends.getElem?_levels
    (Recasting.readsAlike_wrap place.id place.ordinal location hbefore hwrapped hafter)
  refine ⟨fun l hl => paths_of_axes_map haxes hl, before, outlineAll place.id place.ordinal run,
    after, hlevel, hlength, length_outlineAll _ _ _, fun path hpath => ?_⟩
  -- a path is that of a choice on the axes, which is one on the axes with the run wrapped
  rw [(paths_of_mem_levels List.mem_cons_self).1] at hpath
  obtain ⟨s, hs, rfl⟩ := List.mem_map.mp hpath
  have hs := Signature.chooses_distinct.mp (mem_signatures.mp hs)
  have hs' := chooses_of_axes_map haxes hs
  have hvalues := (Recasting.leavingRoom place.id 1 place.ordinal 1).valueFor_map
    ((p.filled place run).axes config.rules) s
  obtain ⟨above, inner, below, htexts, htexts', habove, hinner⟩ :=
    hamends.map_renderAll_levels hbefore hwrapped hafter hvalues
  refine ⟨s, hs, rfl, ⟨above, inner, below, ?_, ?_, habove, ?_⟩, ?_⟩
  · rw [textsAt_assemble hs]
    exact congrArg _ htexts
  · rw [textsAt_assemble hs', haxes]
    exact congrArg _ htexts'
  · rw [habove, hinner, hcount, Place.ordinal]
  · have htoken := exists_tokenAlias hlevel' hs'
    rwa [haxes, hwrapped.implicitToken_eq hvalues] at htoken

/-- What someone took, in a phrase that has it inside a fragment, after their name. -/
def tookToday : Place :=
  .inside
    [.construct (.name
      { name := ⟨"person"⟩, value := .identifier "person", gender := .identifier "gender" })] {}
    (.here [.construct (.text { value := " took " })] [.construct (.text { value := " today" })])
    [.fragment [.construct (.text { value := "!" })] {}]

/-- Some photos, with a fragment of their own. -/
def photosTaken : List Node :=
  [.construct (.plural { singular := "photo", count := .identifier "count", showCount := .yes }),
   .fragment [.construct (.text { value := " of a cat" })] {}]

/-- At both its paths a fragment with the photos wrapped reads as before around a token for
them. For the count one all the texts are written out. -/
theorem compile_wrapped_photosTaken :
    let p : Phrase := { description := "Photos taken today", children := [] }
    ∃ c c', compile {} (p.filled tookToday photosTaken) = .ok c ∧
      compile {} (p.filled tookToday [.fragment photosTaken {}]) = .ok c' ∧
      c.payload.paths = [["*", "*"], ["*", "_1"]] ∧
      (∀ path ∈ c.payload.paths,
        ∃ pre mid post token, c.WrapsAt c' path 1 1 pre mid post token) ∧
      c.textsAt ["*", "_1"] =
        [some "\x7bperson\x7d\x7b= took 1 photo of a cat today\x7d\x7b=!\x7d",
         some " took 1 photo\x7b= of a cat\x7d today", some " of a cat", some "!"] ∧
      c'.textsAt ["*", "_1"] =
        [some "\x7bperson\x7d\x7b= took 1 photo of a cat today\x7d\x7b=!\x7d",
         some " took \x7b=1 photo of a cat\x7d today", some "1 photo\x7b= of a cat\x7d",
         some " of a cat", some "!"] := by
  intro p
  have h : compile {} (p.filled tookToday photosTaken) =
      .ok (assemble {} (p.filled tookToday photosTaken)) :=
    compile_of_isNone_fault? (by decide +kernel)
  have h' : compile {} (p.filled tookToday [.fragment photosTaken {}]) =
      .ok (assemble {} (p.filled tookToday [.fragment photosTaken {}])) :=
    compile_of_isNone_fault? (by decide +kernel)
  obtain ⟨-, before, wrapped, after, -, -, -, hwraps⟩ := compile_wrapped h h'
  refine ⟨_, _, h, h', (paths_of_mem_levels List.mem_cons_self).1.trans rfl, fun path hpath => ?_,
    by decide +kernel, by decide +kernel⟩
  obtain ⟨s, -, -, hwraps⟩ := hwraps path hpath
  exact ⟨_, _, _, _, hwraps⟩

end Phrasebook
