import Phrasebook.Proofs.FragmentAliases

/-!
# The sentence around a fragment

A translator is handed a fragment on its own, and the only thing that says where it belongs is its
description. It quotes the phrase around the fragment: every other fragment as the words it wraps,
and the one described as its token. So all fragments of a phrase, however deep, are described in
one **sentence**, which is what the constructs of the phrase read as, one after the other
(`Phrasebook.wordingOf`), and each description has this sentence with a token in place of the words
of one fragment (`Phrasebook.compile_describes_fragments`).

That the token stands in the sentence once, and in the place of the fragment, is due to the
numbering. The description is rendered in a mode that knows the fragment by its number, and among
all nodes of the phrase no other has that number (`Phrasebook.Phrase.pairwise_ids`). A fragment
**stands in** some nodes between the constructs before it and those after it
(`Phrasebook.PlacedFragment.StandsIn`); outside of it there is nothing for the mode to show
(`Phrasebook.renderAll_description_of_notMem`).
-/

namespace Phrasebook

/-! ### Flattened text -/

/-- **What some constructs read as**, one after the other, their tokens between braces. Fragments
play no part in it. -/
def wordingOf (values : Assignment) (placed : List Placed) : String :=
  String.join (placed.map fun q => q.construct.render .leaf (values q.id))

theorem wordingOf_nil (values : Assignment) : wordingOf values [] = "" := rfl

theorem wordingOf_append (values : Assignment) (xs ys : List Placed) :
    wordingOf values (xs ++ ys) = wordingOf values xs ++ wordingOf values ys := by
  rw [wordingOf, wordingOf, wordingOf, List.map_append, String.join_append]

/-- A construct reads in a description as in a leaf. -/
theorem Construct.render_description (target : Nat) (value : Option AxisValue) (c : Construct) :
    c.render (.description target) value = c.render .leaf value := by
  cases c with
  | plural p =>
    cases hshow : p.showCount <;> simp [Construct.render, Plural.render, Mode.token, hshow]
  | _ => rfl

mutual

theorem Outline.render_description_of_notMem (values : Assignment) (target : Nat) :
    ∀ o : Outline, target ∉ o.ids →
      o.render values (.description target) = wordingOf values o.constructs
  | .construct id c, _ => by
    rw [Outline.render, Construct.render_description, Outline.constructs, wordingOf, List.map_cons,
      List.map_nil, String.join_cons, String.join_nil, String.append_empty]
  | .fragment id ordinal location children, h => by
    obtain ⟨hid, hchildren⟩ := not_or.mp (mt List.mem_cons.mpr h)
    have hshown : ¬Mode.showsToken (.description target) id = true := by
      simpa [Mode.showsToken] using hid
    rw [Outline.render, if_neg hshown, Outline.constructs]
    exact renderAll_description_of_notMem values target children hchildren

/-- **Where the fragment described is not, a description is flattened text.** -/
theorem renderAll_description_of_notMem (values : Assignment) (target : Nat) :
    ∀ os : List Outline, target ∉ idsAll os →
      renderAll values (.description target) os = wordingOf values (constructsAll os)
  | [], _ => rfl
  | o :: os, h => by
    obtain ⟨ho, hos⟩ := not_or.mp (mt List.mem_append.mpr h)
    rw [renderAll, Outline.render_description_of_notMem values target o ho,
      renderAll_description_of_notMem values target os hos, constructsAll, wordingOf_append]

end

/-! ### Where a fragment stands -/

/-- A fragment as a node. -/
def PlacedFragment.node (n : PlacedFragment) : Outline :=
  .fragment n.id n.ordinal n.location n.children

/-- **A fragment stands in some nodes**, at any depth, behind the constructs `before` and ahead of
the constructs `after`. -/
inductive PlacedFragment.StandsIn (n : PlacedFragment) :
    List Outline → List Placed → List Placed → Prop
  | here (os : List Outline) : StandsIn n (n.node :: os) [] (constructsAll os)
  | inside (id ordinal : Nat) (location : Location) (os : List Outline) {children : List Outline}
    {before after : List Placed} (h : StandsIn n children before after) :
    StandsIn n (.fragment id ordinal location children :: os) before (after ++ constructsAll os)
  | behind (o : Outline) {os : List Outline} {before after : List Placed}
    (h : StandsIn n os before after) : StandsIn n (o :: os) (o.constructs ++ before) after

section StandsIn

variable {n : PlacedFragment} {before after : List Placed}

/-- Each fragment in some nodes stands in them. -/
theorem PlacedFragment.exists_standsIn : ∀ os : List Outline, n ∈ fragmentNodesIn os →
    ∃ before after, n.StandsIn os before after
  | .construct id c :: os, h => by
    obtain ⟨before, after, hos⟩ := exists_standsIn os h
    exact ⟨_, _, .behind (.construct id c) hos⟩
  | .fragment id ordinal location children :: os, h => by
    rcases List.mem_append.mp h with h | h
    · rcases List.mem_cons.mp h with rfl | h
      · exact ⟨_, _, .here os⟩
      · obtain ⟨before, after, hchildren⟩ := exists_standsIn children h
        exact ⟨_, _, .inside id ordinal location os hchildren⟩
    · obtain ⟨before, after, hos⟩ := exists_standsIn os h
      exact ⟨_, _, .behind (.fragment id ordinal location children) hos⟩

/-- A construct in some nodes is numbered among them. -/
theorem id_mem_ids {o : Outline} {q : Placed} (h : q ∈ o.constructs) : q.id ∈ o.ids :=
  o.map_id_constructs_sublist.subset (List.mem_map_of_mem h)

theorem id_mem_idsAll {os : List Outline} {q : Placed} (h : q ∈ constructsAll os) :
    q.id ∈ idsAll os :=
  (map_id_constructsAll_sublist os).subset (List.mem_map_of_mem h)

namespace PlacedFragment.StandsIn

variable {os : List Outline}

/-- **The constructs before a fragment, those in it and those after it are all there are.** -/
theorem constructs_eq (h : n.StandsIn os before after) :
    constructsAll os = before ++ constructsAll n.children ++ after := by
  induction h with
  | here os => rfl
  | inside id ordinal location os _ ih =>
    rw [constructsAll, Outline.constructs, ih, List.append_assoc _ _ (constructsAll os)]
  | behind o _ ih => rw [constructsAll, ih, List.append_assoc, List.append_assoc, List.append_assoc]

theorem id_mem (h : n.StandsIn os before after) : n.id ∈ idsAll os := by
  induction h with
  | here os => exact List.mem_cons_self
  | inside id ordinal location os _ ih => exact List.mem_cons_of_mem _ (List.mem_append_left _ ih)
  | behind o _ ih => exact List.mem_append_right _ ih

/-- Constructs before a fragment have smaller numbers, and constructs after it greater ones. -/
theorem lt_id (h : n.StandsIn os before after) (hids : (idsAll os).Pairwise (· < ·)) :
    (∀ q ∈ before, q.id < n.id) ∧ ∀ q ∈ after, n.id < q.id := by
  induction h with
  | here os =>
    refine ⟨fun _ hq => absurd hq List.not_mem_nil, fun q hq => ?_⟩
    exact (List.pairwise_append.mp hids).2.2 n.id List.mem_cons_self q.id (id_mem_idsAll hq)
  | inside id ordinal location os h ih =>
    obtain ⟨ho, -, hacross⟩ := List.pairwise_append.mp hids
    obtain ⟨hbefore, hafter⟩ := ih (List.pairwise_cons.mp ho).2
    refine ⟨hbefore, fun q hq => ?_⟩
    rcases List.mem_append.mp hq with hq | hq
    · exact hafter q hq
    · exact hacross n.id (List.mem_cons_of_mem _ h.id_mem) q.id (id_mem_idsAll hq)
  | behind o h ih =>
    obtain ⟨-, hos, hacross⟩ := List.pairwise_append.mp hids
    obtain ⟨hbefore, hafter⟩ := ih hos
    refine ⟨fun q hq => ?_, hafter⟩
    rcases List.mem_append.mp hq with hq | hq
    · exact hacross q.id (id_mem_ids hq) n.id h.id_mem
    · exact hbefore q hq

/-- **A description shows the token of a fragment** between the words before it and those after
it. -/
theorem renderAll_eq (h : n.StandsIn os before after) (hids : (idsAll os).Nodup)
    (values : Assignment) :
    renderAll values (.description n.id) os =
      wordingOf values before ++ (implicitToken values n.children).placeholder ++
        wordingOf values after := by
  induction h with
  | here os =>
    have hos : n.id ∉ idsAll os :=
      fun hmem => (List.nodup_append.mp hids).2.2 n.id List.mem_cons_self n.id hmem rfl
    have hshown : Mode.showsToken (.description n.id) n.id = true := by simp [Mode.showsToken]
    rw [renderAll, PlacedFragment.node, Outline.render, if_pos hshown,
      renderAll_description_of_notMem values n.id os hos, wordingOf_nil, String.empty_append]
    rfl
  | inside id ordinal location os h ih =>
    obtain ⟨ho, -, hacross⟩ := List.nodup_append.mp hids
    obtain ⟨hid, hchildren⟩ := List.nodup_cons.mp ho
    have hshown : ¬Mode.showsToken (.description n.id) id = true := by
      intro hshown
      exact hid (of_decide_eq_true hshown ▸ h.id_mem)
    have hos : n.id ∉ idsAll os :=
      fun hmem => hacross n.id (List.mem_cons_of_mem _ h.id_mem) n.id hmem rfl
    rw [renderAll, Outline.render, if_neg hshown, ih hchildren,
      renderAll_description_of_notMem values n.id os hos, wordingOf_append]
    simp only [String.append_assoc]
  | behind o h ih =>
    obtain ⟨-, hos, hacross⟩ := List.nodup_append.mp hids
    have ho : n.id ∉ o.ids := fun hmem => hacross n.id hmem n.id h.id_mem rfl
    rw [renderAll, Outline.render_description_of_notMem values n.id o ho, ih hos, wordingOf_append]
    simp only [String.append_assoc]

/-- **A fragment stands on one of the levels** among which it is. -/
theorem exists_level (h : n.StandsIn os before after) :
    ∃ level ∈ os :: levelsAll os, n.node ∈ level := by
  induction h with
  | here os => exact ⟨n.node :: os, List.mem_cons_self, List.mem_cons_self⟩
  | inside id ordinal location os _ ih =>
    obtain ⟨level, hlevel, hn⟩ := ih
    exact ⟨level, List.mem_cons_of_mem _ (List.mem_append_left _ hlevel), hn⟩
  | @behind o os _ _ _ ih =>
    obtain ⟨level, hlevel, hn⟩ := ih
    rcases List.mem_cons.mp hlevel with rfl | hlevel
    · exact ⟨o :: level, List.mem_cons_self, List.mem_cons_of_mem o hn⟩
    · exact ⟨level, List.mem_cons_of_mem _ (List.mem_append_right _ hlevel), hn⟩

end PlacedFragment.StandsIn

end StandsIn

/-! ### Descriptions -/

/-- **A compiled fragment is described in a sentence**, at a path: its description quotes what the
phrase reads as before the fragment and after it, with `token` between the two. With the words of
the fragment in place of the token, that is the sentence. -/
def FragmentPhrase.DescribedIn (f : FragmentPhrase) (p : Phrase) (path : List String)
    (values : Assignment) (sentence : String) (token : TokenName) (n : PlacedFragment) : Prop :=
  ∃ leaf before after, f.payload.table.get? path = some leaf ∧
    p.placed = before ++ constructsAll n.children ++ after ∧
    (∀ q ∈ before, q.id < n.id) ∧ (∀ q ∈ after, n.id < q.id) ∧
    leaf.description = "In the phrase: \"" ++
      (wordingOf values before ++ ("\x7b" ++ token.text ++ "\x7d") ++ wordingOf values after) ++
        "\"" ∧
    wordingOf values before ++ wordingOf values (constructsAll n.children) ++
      wordingOf values after = sentence

/-- **A compiled phrase shows a fragment as a token**, at a path: the level that the fragment
stands on reads as the token in its place, and gives the alias of the compiled fragment for it. -/
def CompiledPhrase.Shows (c : CompiledPhrase) (p : Phrase) (path : List String)
    (values : Assignment) (token : TokenName) (n : PlacedFragment) (f : FragmentPhrase) : Prop :=
  ∃ (k : Nat) (l : CompiledLevel) (leaf : Leaf) (before after : List Outline),
    p.levels[k]? = some (before ++ n.node :: after) ∧ c.levels[k]? = some l ∧
    l.payload.table.get? path = some leaf ∧
    leaf.text = renderAll values .leaf before ++ ("\x7b" ++ token.text ++ "\x7d") ++
      renderAll values .leaf after ∧
    (token, f.aliasName) ∈ leaf.tokenAliases

section Descriptions

variable {config : Config} {p : Phrase} {s : Signature} {n : PlacedFragment}

/-- Each fragment is described in the sentence that the constructs of the phrase make. -/
theorem describedIn_compiledFragment (hs : s.Chooses (p.axes config.rules))
    (hn : n ∈ p.fragmentNodes) :
    (p.compiledFragment config n).DescribedIn p s.path (s.valueFor (p.axes config.rules))
      (wordingOf (s.valueFor (p.axes config.rules)) p.placed)
      (implicitToken (s.valueFor (p.axes config.rules)) n.children) n := by
  have hlists : (p.compiledFragment config n).payload.Lists (p.axes config.rules)
      (levelLeaf (p.axes config.rules)
        (fragmentDescription (p.axes config.rules) p.outline n.id) n.children) :=
    levelPayload_lists (p.keysDistinguish config.rules) _ _ _
  obtain ⟨before, after, hstands⟩ := PlacedFragment.exists_standsIn p.outline hn
  obtain ⟨hbefore, hafter⟩ := hstands.lt_id p.pairwise_ids
  have hnodup : (idsAll p.outline).Nodup := p.pairwise_ids.imp fun h => ne_of_lt h
  refine ⟨_, before, after, hlists.get?_path s hs, hstands.constructs_eq, hbefore, hafter, ?_, ?_⟩
  · exact congrArg (fun text => "In the phrase: \"" ++ text ++ "\"") (hstands.renderAll_eq hnodup _)
  · rw [Phrase.placed, hstands.constructs_eq, wordingOf_append, wordingOf_append]

/-- Each fragment is shown as its token on the level it stands on. -/
theorem shows_compiledFragment (hs : s.Chooses (p.axes config.rules)) (hn : n ∈ p.fragmentNodes) :
    (assemble config p).Shows p s.path (s.valueFor (p.axes config.rules))
      (implicitToken (s.valueFor (p.axes config.rules)) n.children) n
      (p.compiledFragment config n) := by
  obtain ⟨_, _, hstands⟩ := PlacedFragment.exists_standsIn p.outline hn
  obtain ⟨level, hlevel, hnode⟩ := hstands.exists_level
  obtain ⟨k, hk⟩ := List.mem_iff_getElem?.mp hlevel
  obtain ⟨l, hl, hcompiles⟩ := Phrase.exists_compilesLevel config hk
  obtain ⟨describe, hlists⟩ := hcompiles.lists
  obtain ⟨before, after, rfl⟩ := List.append_of_mem hnode
  exact ⟨k, l, _, before, after, hk, hl, hlists.get?_path s hs,
    renderAll_fragment _ before after n.id n.ordinal n.location n.children,
    List.mem_of_getElem? (getElem?_fragmentAliases _ before after n.id n.ordinal n.location
      n.children)⟩

end Descriptions

/-- **All fragments are described in one sentence.** Under every signature, each fragment of a
compiled phrase, at any depth, is described in what the phrase reads as with its fragments
flattened. Only the fragment itself stands there as a token, the one by which the text around it
shows the fragment. -/
theorem compile_describes_fragments {config : Config} {p : Phrase} {c : CompiledPhrase}
    (h : compile config p = .ok c) {s : Signature} (hs : s.Chooses (p.axes config.rules)) :
    let values := s.valueFor (p.axes config.rules)
    List.Forall₂ (fun n f =>
        f.DescribedIn p s.path values (wordingOf values p.placed) (implicitToken values n.children)
            n ∧
          c.Shows p s.path values (implicitToken values n.children) n f)
      p.fragmentNodes c.fragments := by
  obtain ⟨-, rfl⟩ := compile_eq_ok_iff.mp h
  intro values
  rw [fragments_assemble, List.forall₂_map_right_iff, List.forall₂_same]
  intro n hn
  exact ⟨describedIn_compiledFragment hs hn, shows_compiledFragment hs hn⟩

/-- A phrase about a trip, in which a place by a lake stands in a fragment of a fragment. -/
def tripPlanned : Phrase where
  description := "Who plans which trip"
  children :=
    [.construct (.name
      { name := ⟨"friend"⟩, value := .identifier "friend", gender := .identifier "gender" }),
     .construct (.text { value := " plans " }),
     .fragment
      [.construct (.plural
        { singular := "walk", count := .identifier "count", showCount := .yes }),
       .fragment
        [.construct (.text { value := " by the " }),
         .construct (.param { name := ⟨"lake"⟩, value := .identifier "lake" })] {}] {},
     .construct (.text { value := "!" })]

/-- Both its fragments are described in one sentence about several walks, each with its own words
replaced by its own token. -/
theorem compile_describes_fragments_tripPlanned :
    let s : Signature := [.any, .any]
    let values := s.valueFor (tripPlanned.axes none)
    ∃ c, compile {} tripPlanned = .ok c ∧ s.Chooses (tripPlanned.axes none) ∧
      tripPlanned.fragmentNodes.map (fun n => implicitToken values n.children) =
        [⟨"=[number] walks by the [lake]"⟩, ⟨"= by the [lake]"⟩] ∧
      List.Forall₂ (fun n f => f.DescribedIn tripPlanned s.path values
          "\x7bfriend\x7d plans \x7bnumber\x7d walks by the \x7blake\x7d!"
          (implicitToken values n.children) n)
        tripPlanned.fragmentNodes c.fragments := by
  intro s values
  have h : compile {} tripPlanned = .ok (assemble {} tripPlanned) :=
    compile_of_isNone_fault? (by decide +kernel)
  have hs : s.Chooses (tripPlanned.axes none) := mem_signatures.mp (by decide)
  have hsentence : wordingOf values tripPlanned.placed =
      "\x7bfriend\x7d plans \x7bnumber\x7d walks by the \x7blake\x7d!" := rfl
  refine ⟨_, h, hs, rfl, (compile_describes_fragments h hs).imp fun n f hf => ?_⟩
  exact hsentence ▸ hf.1

end Phrasebook
