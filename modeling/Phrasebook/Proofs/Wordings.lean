import Phrasebook.Proofs.Acceptance
import Phrasebook.Proofs.FullTable
import Phrasebook.Proofs.Levels

/-!
# The wordings of a compiled phrase

Every level of a compiled phrase, the phrase itself or one of its fragments, has a
payload with a text table over all axes of the phrase. That table is **complete**:
whatever is chosen on the axes, the wording of the level for that choice stands at
the path of the choice, and nothing stands anywhere else
(`Phrasebook.Payload.Lists`).

What a table holds is settled without knowing what the wordings say, so it is the
same argument for all levels, and the levels have their paths in common
(`Phrasebook.compile_lists_wordings`): a path found for the phrase leads to a
wording of each of its fragments.
-/

namespace Phrasebook

/-! ### Each choice once -/

theorem Axis.nodup_candidates_distinct (a : Axis) : a.distinct.candidates.Nodup := by
  rw [Axis.distinct]
  induction a.candidates using List.reverseRecOn with
  | nil => exact List.nodup_nil
  | append_singleton candidates v ih =>
    by_cases hv : v ∈ candidates
    · rw [eraseDups_concat_of_mem hv]
      exact ih
    · rw [eraseDups_concat_of_notMem hv, List.nodup_append_comm]
      exact List.nodup_cons.mpr ⟨fun h => hv (List.mem_eraseDups.mp h), ih⟩

/-- Without repeated candidates no signature is met twice. -/
theorem nodup_signatures {axes : List Axis} (h : ∀ a ∈ axes, a.candidates.Nodup) :
    (signatures axes).Nodup := by
  induction axes with
  | nil => exact List.nodup_singleton _
  | cons a axes ih =>
    have ih := ih fun b hb => h b (List.mem_cons_of_mem _ hb)
    rw [signatures, List.nodup_flatMap]
    refine ⟨fun v _ => ih.map (List.cons_injective), ?_⟩
    -- signatures that begin differently are different
    refine (h a List.mem_cons_self).imp fun {v w} hne s hs ht => hne ?_
    obtain ⟨s', -, rfl⟩ := List.mem_map.mp hs
    obtain ⟨t', -, ht'⟩ := List.mem_map.mp ht
    exact (List.cons.inj ht').1.symm

/-! ### The table of a level -/

/-- The wording of a level under a signature. -/
def levelLeaf (axes : List Axis) (describe : Signature → String) (level : List Outline)
    (s : Signature) : Leaf where
  description := describe s
  text := renderAll (s.valueFor axes) .leaf level
  tokenAliases := fragmentAliases (s.valueFor axes) level

/-- **A payload lists wordings over some axes**: each choice of candidates leads to
its own wording, no other path leads to one, and the leaves are these wordings, each
once, the first axis varying slowest and candidates in their order. Of each axis
there is a descriptor, and every leaf stands as deep as there are descriptors. -/
structure Payload.Lists (payload : Payload) (axes : List Axis) (wording : Signature → Leaf) :
    Prop where
  get?_path : ∀ s : Signature, s.Chooses axes → payload.table.get? s.path = some (wording s)
  get?_other : ∀ path : List String, (∀ s : Signature, s.Chooses axes → s.path ≠ path) →
    payload.table.get? path = none
  leaves : payload.table.leaves = (signatures (axes.map Axis.distinct)).map wording
  paths : payload.table.wordings.map Prod.fst =
    (signatures (axes.map Axis.distinct)).map Signature.path
  nodup_paths : (payload.table.wordings.map Prod.fst).Nodup
  length_leaves : payload.table.leaves.length =
    (axes.map fun a => a.candidates.eraseDups.length).prod
  depth : ∀ w ∈ payload.table.wordings, w.1.length = axes.length
  descriptors : payload.descriptors = axes.map (·.descriptor)

variable {axes : List Axis}

theorem Signature.Chooses.length_path {s : Signature} (hs : s.Chooses axes) :
    s.path.length = axes.length := by
  rw [Signature.path, List.length_map]
  exact List.Forall₂.length_eq hs

theorem length_signatures_distinct (axes : List Axis) :
    (signatures (axes.map Axis.distinct)).length =
      (axes.map fun a => a.candidates.eraseDups.length).prod := by
  rw [length_signatures, List.map_map]
  rfl

/-- The table of a level is the full table, unless there are no signatures. -/
theorem table_levelPayload (hkeys : KeysDistinguish axes) (project : String)
    (describe : Signature → String) (level : List Outline) :
    (signatures axes = [] ∧ (levelPayload axes project describe level).table = .empty) ∨
      (levelPayload axes project describe level).table =
        TextTable.full (axes.map Axis.distinct) (levelLeaf axes describe level) := by
  have htable : (levelPayload axes project describe level).table =
      TextTable.fill axes (levelLeaf axes describe level) .empty := rfl
  by_cases hne : signatures axes = []
  · refine Or.inl ⟨hne, ?_⟩
    rw [htable, TextTable.fill, hne, List.foldl_nil]
  · exact Or.inr (htable.trans (TextTable.fill_empty hkeys hne _))

/-- An axis without candidates leaves no choice, with repetitions or without. -/
theorem signatures_distinct_eq_nil (h : signatures axes = []) :
    signatures (axes.map Axis.distinct) = [] := by
  refine List.eq_nil_iff_forall_not_mem.mpr fun s hs => ?_
  have hs := mem_signatures.mpr (Signature.chooses_distinct.mp (mem_signatures.mp hs))
  rw [h] at hs
  exact nomatch hs

/-- The wordings in the table of a level, whether there are any or not. -/
theorem wordings_levelPayload (hkeys : KeysDistinguish axes) (project : String)
    (describe : Signature → String) (level : List Outline) :
    (levelPayload axes project describe level).table.wordings =
      (signatures (axes.map Axis.distinct)).map fun s =>
        (s.path, levelLeaf axes describe level s) := by
  rcases table_levelPayload hkeys project describe level with ⟨hnil, htable⟩ | htable
  · rw [htable, signatures_distinct_eq_nil hnil]
    rfl
  · rw [htable, TextTable.wordings_full]

/-- **The payload of a level lists its wordings.** -/
theorem levelPayload_lists (hkeys : KeysDistinguish axes) (project : String)
    (describe : Signature → String) (level : List Outline) :
    (levelPayload axes project describe level).Lists axes (levelLeaf axes describe level) := by
  have hwordings := wordings_levelPayload hkeys project describe level
  have hpaths : (levelPayload axes project describe level).table.wordings.map Prod.fst =
      (signatures (axes.map Axis.distinct)).map Signature.path := by
    rw [hwordings, List.map_map]
    rfl
  have hleaves : (levelPayload axes project describe level).table.leaves =
      (signatures (axes.map Axis.distinct)).map (levelLeaf axes describe level) := by
    rw [← TextTable.map_snd_wordings, hwordings, List.map_map]
    rfl
  refine
    { get?_path := fun s hs => ?_
      get?_other := fun path hpath => ?_
      leaves := hleaves
      paths := hpaths
      nodup_paths := ?_
      length_leaves := ?_
      depth := fun w hw => ?_
      descriptors := rfl }
  · rcases table_levelPayload hkeys project describe level with ⟨hnil, -⟩ | htable
    · -- an axis without candidates leaves nothing to choose
      have hs := mem_signatures.mpr hs
      rw [hnil] at hs
      exact nomatch hs
    · rw [htable]
      exact TextTable.get?_full hkeys.distinct (Signature.chooses_distinct.mpr hs) _
  · refine Option.eq_none_iff_forall_ne_some.mpr fun l hl => ?_
    rcases table_levelPayload hkeys project describe level with ⟨-, htable⟩ | htable
    · rw [htable, TextTable.get?_empty] at hl
      exact nomatch hl
    · rw [htable] at hl
      obtain ⟨s, hs, hsp, -⟩ := TextTable.exists_chooses_of_get?_full hl
      exact hpath s (Signature.chooses_distinct.mp hs) hsp
  · -- each choice is met once, and different choices have different paths
    rw [hpaths]
    refine List.Nodup.map_on (fun s hs t ht hst => ?_) (nodup_signatures fun a ha => ?_)
    · exact (mem_signatures.mp hs).eq_of_path_eq hkeys.distinct (mem_signatures.mp ht) hst
    · obtain ⟨b, -, rfl⟩ := List.mem_map.mp ha
      exact b.nodup_candidates_distinct
  · rw [hleaves, List.length_map, length_signatures_distinct]
  · rw [hwordings] at hw
    obtain ⟨s, hs, rfl⟩ := List.mem_map.mp hw
    exact (Signature.chooses_distinct.mp (mem_signatures.mp hs)).length_path

/-! ### The tables of a phrase -/

/-- The payload of a compiled level lists the wordings of the level. -/
theorem Phrase.CompilesLevel.lists {config : Config} {p : Phrase} {level : List Outline}
    {l : CompiledLevel} (hl : p.CompilesLevel config level l) :
    ∃ describe, l.payload.Lists (p.axes config.rules)
      (levelLeaf (p.axes config.rules) describe level) := by
  obtain ⟨describe, hpayload⟩ := hl.payload
  rw [hpayload]
  exact ⟨describe, levelPayload_lists (p.keysDistinguish config.rules) _ describe level⟩

/-- **The tables of a compiled phrase are complete**: the payload of the phrase
lists its wordings, and the payload of each fragment, at any depth, those of the
fragment, over the same paths and with the same descriptors. -/
theorem compile_lists_wordings {config : Config} {p : Phrase} {c : CompiledPhrase}
    (h : compile config p = .ok c) :
    c.payload.Lists (p.axes config.rules)
        (levelLeaf (p.axes config.rules) (fun _ => p.description) p.outline) ∧
      List.Forall₂ (fun (f : FragmentPhrase) (n : PlacedFragment) =>
          f.payload.Lists (p.axes config.rules)
            (levelLeaf (p.axes config.rules)
              (fragmentDescription (p.axes config.rules) p.outline n.id) n.children))
        c.fragments p.fragmentNodes ∧
      ∀ f ∈ c.fragments,
        f.payload.table.wordings.map Prod.fst = c.payload.table.wordings.map Prod.fst ∧
          f.payload.descriptors = c.payload.descriptors := by
  obtain ⟨-, rfl⟩ := compile_eq_ok_iff.mp h
  have hkeys := p.keysDistinguish config.rules
  have hroot : (assemble config p).payload.Lists (p.axes config.rules)
      (levelLeaf (p.axes config.rules) (fun _ => p.description) p.outline) := by
    rw [payload_assemble]
    exact levelPayload_lists hkeys _ _ _
  have hfragment : ∀ n : PlacedFragment, (p.compiledFragment config n).payload.Lists
      (p.axes config.rules) (levelLeaf (p.axes config.rules)
        (fragmentDescription (p.axes config.rules) p.outline n.id) n.children) :=
    fun n => levelPayload_lists hkeys _ _ _
  rw [fragments_assemble]
  refine ⟨hroot, ?_, fun f hf => ?_⟩
  · rw [List.forall₂_map_left_iff, List.forall₂_same]
    exact fun n _ => hfragment n
  · obtain ⟨n, -, rfl⟩ := List.mem_map.mp hf
    have hn := hfragment n
    exact ⟨hn.paths.trans hroot.paths.symm, hn.descriptors.trans hroot.descriptors.symm⟩

/-- A phrase with a choice that is repeated, and a fragment in a fragment. -/
def photosByPlace : Phrase where
  description := "Where some photos are"
  children :=
    [.construct (.enumeration
      { value := .identifier "place"
        range := [⟨"album", "In the album: "⟩, ⟨"wall", "On the wall: "⟩, ⟨"album", "There: "⟩] }),
     .fragment
      [.construct (.plural
        { singular := "photo", count := .identifier "count", showCount := .yes }),
       .fragment [.construct (.text { value := " of yours" })] {}] {}]

/-- Two places and two wordings of the count make four leaves on each of three
levels. -/
theorem compile_lists_wordings_photosByPlace :
    ∃ c, compile {} photosByPlace = .ok c ∧ c.payload.table.leaves.length = 4 ∧
      c.fragments.length = 2 ∧ ∀ f ∈ c.fragments, f.payload.table.wordings.map Prod.fst =
        [["album", "*"], ["album", "_1"], ["wall", "*"], ["wall", "_1"]] := by
  have h : compile {} photosByPlace = .ok (assemble {} photosByPlace) := rfl
  obtain ⟨hroot, hfragments, hsame⟩ := compile_lists_wordings h
  refine ⟨_, h, hroot.length_leaves, hfragments.length_eq, fun f hf => ?_⟩
  rw [(hsame f hf).1, hroot.paths]
  rfl

end Phrasebook
