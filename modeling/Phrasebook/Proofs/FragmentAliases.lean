import Phrasebook.Proofs.Wordings

/-!
# The aliases of fragments

A fragment has two names. Its token is made of the words it wraps: a text shows it, and
it varies with the wording. Its alias is made of its ordinal: the arguments supply the
fragment under it, and it is the same in every wording. What leads from one to the other
are the token aliases of a leaf.

The two are told of by different walks. The ordinals count all fragments of the phrase,
the token aliases go through the nodes of one level, and the compiled fragments are found
in arguments of arguments. They agree (`Phrasebook.compile_aliases_fragments`): the
`i`-th fragment of a phrase has the `i`-th alias and is compiled to the `i`-th compiled
fragment, whatever level it stands on; and each leaf of that level gives its alias for
the very token that the text of the leaf shows in its place.

That a token leads to one alias only is not due to these walks but to a check made under
each signature, which rejects a phrase whose tokens collide.
-/

namespace Phrasebook

/-! ### Where a fragment is shown -/

theorem renderAll_append (values : Assignment) (mode : Mode) (before after : List Outline) :
    renderAll values mode (before ++ after) =
      renderAll values mode before ++ renderAll values mode after := by
  induction before with
  | nil => rw [List.nil_append, renderAll, String.empty_append]
  | cons o before ih => rw [List.cons_append, renderAll, renderAll, ih, String.append_assoc]

/-- The text of a level shows a fragment as its token, after the text of what comes
before and ahead of the text of what comes after. -/
theorem renderAll_fragment (values : Assignment) (before after : List Outline)
    (id ordinal : Nat) (location : Location) (children : List Outline) :
    renderAll values .leaf (before ++ .fragment id ordinal location children :: after) =
      renderAll values .leaf before ++ (implicitToken values children).placeholder ++
        renderAll values .leaf after := by
  have hshown : Outline.render values .leaf (.fragment id ordinal location children) =
      (implicitToken values children).placeholder := by
    simp [Outline.render, Mode.showsToken, implicitToken]
  rw [renderAll_append, renderAll, hshown, String.append_assoc]

/-! ### The token aliases of a level -/

/-- The token aliases of a level go through the fragments that stand on it. -/
theorem fragmentAliases_eq (values : Assignment) (level : List Outline) :
    fragmentAliases values level = (level.filterMap Outline.fragment?).map fun n =>
      (implicitToken values n.children, TokenName.aliasOf n.ordinal) := by
  rw [fragmentAliases, List.map_filterMap]
  refine List.filterMap_congr fun o _ => ?_
  cases o <;> rfl

theorem map_fst_fragmentAliases (values : Assignment) (level : List Outline) :
    (fragmentAliases values level).map Prod.fst = fragmentTokens values level := by
  rw [fragmentAliases, List.map_filterMap, fragmentTokens]
  refine List.filterMap_congr fun o _ => ?_
  cases o <;> rfl

theorem map_snd_fragmentAliases (values : Assignment) (level : List Outline) :
    (fragmentAliases values level).map Prod.snd =
      (level.filterMap Outline.fragment?).map fun n => TokenName.aliasOf n.ordinal := by
  rw [fragmentAliases_eq, List.map_map]
  rfl

/-- As many fragments come before a fragment as entries before its own. -/
theorem getElem?_fragmentAliases (values : Assignment) (before after : List Outline)
    (id ordinal : Nat) (location : Location) (children : List Outline) :
    (fragmentAliases values (before ++ .fragment id ordinal location children :: after))[
      (before.filterMap Outline.fragment?).length]? =
      some (implicitToken values children, TokenName.aliasOf ordinal) := by
  rw [fragmentAliases_eq, List.filterMap_append, List.map_append,
    List.getElem?_append_right (by rw [List.length_map]), List.length_map, Nat.sub_self]
  rfl

/-! ### One leaf and its level -/

/-- **A leaf names the fragments of its level**: it has a token alias for each fragment
that stands on the level, in order, and these are the aliases under which the level is
supplied with fragments. The tokens differ from one another and from every token
declared. And each is what the text shows: at the place of a fragment, between the texts
of the nodes before it and of those after it. -/
structure Phrase.NamesFragments (p : Phrase) (level : List Outline) (l : CompiledLevel)
    (values : Assignment) (leaf : Leaf) : Prop where
  aliases : leaf.tokenAliases.map Prod.snd =
    (level.filterMap Outline.fragment?).map fun n => ⟨"=m" ++ toString n.ordinal⟩
  supplied : leaf.tokenAliases.map Prod.snd = l.fragments.map (·.aliasName)
  nodup : (leaf.tokenAliases.map Prod.fst).Nodup
  undeclared : ∀ k ∈ leaf.tokenAliases.map Prod.fst, k ∉ p.declared
  shown : ∀ before id ordinal location children after,
    level = before ++ .fragment id ordinal location children :: after →
    ∃ k, leaf.tokenAliases[(before.filterMap Outline.fragment?).length]? =
        some (k, ⟨"=m" ++ toString ordinal⟩) ∧
      leaf.text = renderAll values .leaf before ++ ("\x7b" ++ k.text ++ "\x7d") ++
        renderAll values .leaf after

section Levels

variable {config : Config} {p : Phrase} {level : List Outline} {l : CompiledLevel}

theorem namesFragments_level (hwf : p.WellFormed config.rules)
    (hl : p.CompilesLevel config level l) {s : Signature} (hs : s.Chooses (p.axes config.rules))
    (describe : Signature → String) :
    p.NamesFragments level l (s.valueFor (p.axes config.rules))
      (levelLeaf (p.axes config.rules) describe level s) := by
  have haliases := map_snd_fragmentAliases (s.valueFor (p.axes config.rules)) level
  have htokens := map_fst_fragmentAliases (s.valueFor (p.axes config.rules)) level
  have hsupplied : l.fragments.map (·.aliasName) =
      (level.filterMap Outline.fragment?).map fun n => TokenName.aliasOf n.ordinal := by
    rw [hl.fragments_eq, List.map_map]
    rfl
  -- the check made under `s` is about the same tokens
  obtain ⟨hnodup, hundeclared⟩ :=
    Phrase.fragmentTokensDiffer_iff.mp hwf.fragmentTokensDiffer s hs level hl.mem
  refine ⟨haliases, haliases.trans hsupplied.symm, htokens ▸ hnodup, htokens ▸ hundeclared, ?_⟩
  rintro before id ordinal location children after rfl
  exact ⟨_, getElem?_fragmentAliases _ before after id ordinal location children,
    renderAll_fragment _ before after id ordinal location children⟩

/-- A fragment on a level is one of the fragments of the phrase. -/
theorem Phrase.mem_fragmentNodes_of_mem_levels (hlevel : level ∈ p.levels) {n : PlacedFragment}
    (hn : n ∈ level.filterMap Outline.fragment?) : n ∈ p.fragmentNodes := by
  have hn := mem_fragmentNodesIn_of_mem hn
  rw [Phrase.levels_eq] at hlevel
  rcases List.mem_cons.mp hlevel with rfl | hlevel
  · exact hn
  · obtain ⟨m, hm, rfl⟩ := List.mem_map.mp hlevel
    exact mem_fragmentNodesIn_trans p.outline hm hn

/-- **The fragments that stand on a level are the compiled fragments with their
ordinals.** -/
theorem forall₂_fragments_level (hl : p.CompilesLevel config level l) :
    List.Forall₂ (fun (n : PlacedFragment) f => (assemble config p).fragments[n.ordinal]? = some f)
      (level.filterMap Outline.fragment?) l.fragments := by
  rw [hl.fragments_eq, List.forall₂_map_right_iff, List.forall₂_same]
  intro n hn
  have hplace := Phrase.getElem?_fragmentNodes (Phrase.mem_fragmentNodes_of_mem_levels hl.mem hn)
  rw [fragments_assemble, List.getElem?_map, hplace, Option.map_some]

end Levels

/-- **Tokens, aliases and compiled fragments agree.** The compiled fragments have the
aliases from zero on, one for each fragment of the phrase. On every level stand the
compiled fragments that have the ordinals of its fragments, and every leaf names them. -/
theorem compile_aliases_fragments {config : Config} {p : Phrase} {c : CompiledPhrase}
    (h : compile config p = .ok c) :
    c.fragments.map (·.aliasName) =
        (List.range (fragmentCountAll p.children)).map (fun i => ⟨"=m" ++ toString i⟩) ∧
      List.Forall₂ (fun level l =>
          List.Forall₂ (fun (n : PlacedFragment) f => c.fragments[n.ordinal]? = some f)
            (level.filterMap Outline.fragment?) l.fragments ∧
          ∀ leaf ∈ l.payload.table.leaves, ∃ s : Signature, s.Chooses (p.axes config.rules) ∧
            l.payload.table.get? s.path = some leaf ∧
            p.NamesFragments level l (s.valueFor (p.axes config.rules)) leaf)
        p.levels c.levels := by
  obtain ⟨hwf, rfl⟩ := compile_eq_ok_iff.mp h
  refine ⟨aliases_assemble config p, (compilesLevels config p).imp fun level l hl => ?_⟩
  obtain ⟨describe, hlists⟩ := hl.lists
  refine ⟨forall₂_fragments_level hl, fun leaf hleaf => ?_⟩
  rw [hlists.leaves] at hleaf
  obtain ⟨s, hs, rfl⟩ := List.mem_map.mp hleaf
  have hs := Signature.chooses_distinct.mp (mem_signatures.mp hs)
  exact ⟨s, hs, hlists.get?_path s hs, namesFragments_level hwf hl hs describe⟩

/-- A phrase with two fragments, the first of which wraps a third and varies. -/
def albumShared : Phrase where
  description := "Who shared which album"
  children :=
    [.fragment
      [.construct (.plural
        { singular := "album", count := .identifier "n", showCount := .yes }),
       .fragment [.construct (.text { value := " of photos" })] {}] {},
     .construct (.text { value := " shared with " }),
     .fragment [.construct (.text { value := "friends" })] {}]

/-- Both its wordings name the outer fragments in order, under the first alias and the
third, and the text shows the first of them ahead of all else; for the count one it reads
as it is written here. -/
theorem compile_aliases_fragments_albumShared :
    ∃ c, compile {} albumShared = .ok c ∧
      c.fragments.map (·.aliasName) = [⟨"=m0"⟩, ⟨"=m1"⟩, ⟨"=m2"⟩] ∧
      (∀ leaf ∈ c.payload.table.leaves,
        leaf.tokenAliases.map Prod.snd = [⟨"=m0"⟩, ⟨"=m2"⟩] ∧
        ∃ k, leaf.tokenAliases[0]? = some (k, ⟨"=m0"⟩) ∧
          ∃ rest, leaf.text = "\x7b" ++ k.text ++ "\x7d" ++ rest) ∧
      ∃ leaf, c.payload.table.get? ["_1"] = some leaf ∧
        leaf.text = "\x7b=1 album of photos\x7d shared with \x7b=friends\x7d" ∧
        leaf.tokenAliases = [(⟨"=1 album of photos"⟩, ⟨"=m0"⟩), (⟨"=friends"⟩, ⟨"=m2"⟩)] := by
  have h : compile {} albumShared = .ok (assemble {} albumShared) :=
    compile_of_isNone_fault? (by decide +kernel)
  obtain ⟨haliases, hlevels⟩ := compile_aliases_fragments h
  refine ⟨_, h, haliases, fun leaf hleaf => ?_, _, rfl, rfl, rfl⟩
  rcases hlevels with _ | ⟨⟨-, hroot⟩, -⟩
  obtain ⟨s, -, -, hnames⟩ := hroot leaf hleaf
  refine ⟨hnames.aliases, ?_⟩
  obtain ⟨k, hk, htext⟩ := hnames.shown [] _ _ _ _ _ rfl
  exact ⟨k, hk, _, by rw [htext, renderAll, String.empty_append]⟩

end Phrasebook
